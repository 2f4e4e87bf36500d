import LinuxProgramming.DbStore

/-! # The database refines a finite map

A database that db_open has just created holds the empty map, and every call that returns
answers and acts as the map does. -/
namespace DbRefinement

open CStrings ByteFiles SyscallPrograms SoloRuns LinkedChains DbLibrary DbImage DbRecords Function
  DbLists DbInvariant DbOperations DbStore

/-! ## The map and its operations -/

inductive MapOp where
  | fetch (k : CString)
  | store (k d : CString) (flag : ℤ)
  | delete (k : CString)
  deriving DecidableEq

def MapOp.call : MapOp → Call
  | .fetch k => .fetch k
  | .store k d flag => .store k d flag
  | .delete k => .delete k

def MapOp.key : MapOp → CString
  | .fetch k => k
  | .store k _ _ => k
  | .delete k => k

def MapOp.apply (m : KeyMap) : MapOp → Result × KeyMap
  | .fetch k => (.data ((m k).map Subtype.val), m)
  | .store k d flag => (.status (storeRc m k flag), storeMap m k d flag)
  | .delete k => (.status (if m k = none then -1 else 0), Function.update m k none)

def applyAll (m : KeyMap) : List MapOp → List Result × KeyMap
  | [] => ([], m)
  | op :: ops =>
    let (r, m) := op.apply m
    let (rs, m) := applyAll m ops
    (r :: rs, m)

def emptyMap : KeyMap := fun _ => none

/-- A key without a separator; a store also has data of 1 to 1023 bytes. -/
def MapOp.Admissible : MapOp → Prop
  | .fetch k => sep ∉ k.1
  | .store k d _ => sep ∉ k.1 ∧ datlenMin ≤ d.1.length + 1 ∧ d.1.length + 1 ≤ datlenMax
  | .delete k => sep ∉ k.1

def execAll (fuel : ℕ) : List Call → DB → Act (List Result × DB)
  | [], db => .ret ([], db)
  | c :: cs, db => do
    let (r, db) ← exec fuel c db
    let (rs, db) ← execAll fuel cs db
    return (r :: rs, db)

def results : Outcome Fd Fatal (List Result × DB) → Option (List Result)
  | .done (rs, _) _ => some rs
  | _ => none

def abortOf : Outcome Fd Fatal (List Result × DB) → Option Fatal
  | .aborted err _ => some err
  | _ => none

def filesOf : Outcome Fd Fatal (List Result × DB) → Fd → List Byte
  | .done _ fs => fs
  | .aborted _ fs => fs
  | .hung fs => fs

/-! ## A new database -/

def created : Image where
  ptr _ := 0
  recs := []
  blocks := []
  ptr_le _ := Nat.zero_le _
  recs_placed := trivial
  blocks_placed := trivial

theorem created_slots (n : ℕ) : render (Cell.bytes fun _ => 0) (slots n) =
    (List.replicate n (padLeft ptrSz (decimal 0))).flatten := by
  rw [render, slots, List.flatMap_map, List.flatMap_def]
  congr 1
  exact List.map_const'.trans (by rw [List.length_range]; rfl)

theorem created_idx : created.idx = initHash := by
  have hcells : created.cells = slots (nhash + 1) ++ [((nhash + 1) * ptrSz, .mark)] :=
    List.append_nil _
  rw [Image.idx, hcells, render_append]
  exact congrArg (· ++ [newline]) (created_slots (nhash + 1))

theorem created_stores : Stores created (fun _ => []) [] emptyMap := by
  refine ⟨fun h _ => ⟨rfl, ?_, ?_⟩, ⟨rfl, ?_⟩, ⟨?_, ?_⟩, ?_, fun k d => ⟨?_, ?_⟩⟩
  · exact fun o ho => absurd ho List.not_mem_nil
  · exact fun o ho => absurd ho List.not_mem_nil
  · exact fun o ho => absurd ho List.not_mem_nil
  · exact fun o e he => by cases he
  · exact fun o o' e e' he => by cases he
  · exact fun h _ o ho => absurd ho List.not_mem_nil
  · exact fun hm => by cases hm
  · rintro ⟨o, ho, -⟩
    exact absurd ho List.not_mem_nil

theorem created_tight : Tight created (fun _ => []) [] [] [] := by
  constructor
  · intro o e he
    cases he
  · intro b d hd
    cases hd

theorem rewind_seekTo (db : DB) (n : ℕ) : dbRewind (db.seekTo .idx n) = dbRewind db := rfl

/-- db_open with O_CREAT and O_TRUNC, whatever the files held before. -/
theorem wp_open {Q : DB → (Fd → List Byte) → Prop} {E : Fatal → (Fd → List Byte) → Prop}
    {fs : Fd → List Byte} (hQ : Q (dbRewind {}) created.files) :
    wp (dbOpen true true) Q E fs := by
  have hfiles : Function.update (Function.update (Function.update fs .idx []) .dat []) .idx
      (pwrite [] 0 initHash) = created.files := by
    have hw : pwrite [] 0 initHash = created.idx := by
      rw [created_idx]
      exact pwrite_end [] initHash
    funext fd
    cases fd with
    | idx => exact (update_self _ _ _).trans hw
    | dat => rfl
  unfold dbOpen
  apply wp_bind
  apply wp_truncate
  apply wp_truncate
  apply wp_ret
  apply wp_bind
  apply wp_bind
  apply wp_lock
  apply wp_ret
  apply wp_bind
  apply wp_size
  apply wp_ret
  apply wp_bind
  apply wp_if_pos rfl
  apply wp_write
  apply wp_ret
  apply wp_bind
  apply wp_unLock
  apply wp_ret
  apply wp_ret
  rw [← hfiles] at hQ
  rw [rewind_seekTo]
  exact hQ

/-! ## One call -/

/-- The files keep the map `m`, with no record and no block lost. -/
def Keeps (m : KeyMap) (fs : Fd → List Byte) : Prop :=
  ∃ I chain free, fs = I.files ∧ Stores I chain free m ∧ Tight I chain free [] []

theorem keeps_created : Keeps emptyMap created.files :=
  ⟨created, _, _, rfl, created_stores, created_tight⟩

/-- Every key of the map satisfies `P`. -/
def KeysIn (P : CString → Prop) (m : KeyMap) : Prop := ∀ k d, m k = some d → P k

def Clean (m : KeyMap) : Prop := KeysIn (fun k => sep ∉ k.1) m

theorem clean_not_poisoned {I : Image} {chain : ℕ → List ℕ} {free : List ℕ} {m : KeyMap} {h : ℕ}
    (s : Stores I chain free m) (hm : Clean m) (k : CString) (hh : h < nhash) :
    ¬ Poisoned I (chain h) k := by
  rintro ⟨l₁, x, l₂, a, hl, -, ha, hs⟩
  have hx : x ∈ chain h := by simp [hl]
  obtain ⟨e, he, hhash⟩ := (s.chains h hh).entry x hx
  obtain rfl : a = e := Option.some.inj (ha.symm.trans he)
  obtain ⟨d, hd, -⟩ := s.blocks.block x a ha
  exact hm a.key d ((s.maps a.key d).mpr ⟨x, by rwa [hhash], a, ha, rfl, hd⟩) hs

theorem keysIn_apply {P : CString → Prop} {m : KeyMap} {op : MapOp} (hm : KeysIn P m)
    (hop : ∀ k d flag, op = .store k d flag → P k) : KeysIn P (op.apply m).2 := by
  cases op with
  | fetch k => exact hm
  | store k d flag =>
    intro k' d' h'
    by_cases hk : k' = k
    · rw [hk]
      exact hop k d flag rfl
    · refine hm k' d' ?_
      simp only [MapOp.apply, storeMap] at h'
      split at h'
      · rwa [update_of_ne hk] at h'
      · exact h'
  | delete k =>
    intro k' d' h'
    by_cases hk : k' = k
    · simp [MapOp.apply, hk] at h'
    · simp only [MapOp.apply, update_of_ne hk] at h'
      exact hm k' d' h'

variable {fuel : ℕ} {m : KeyMap} {fs : Fd → List Byte} {db : DB}

/-- Every call, with any key: the answer and the effect of the map, or an abort. -/
theorem wp_exec (op : MapOp) (hf : ptrMax ≤ fuel) {I : Image} {chain : ℕ → List ℕ}
    {free : List ℕ} (s : Stores I chain free m) {Q : Result × DB → (Fd → List Byte) → Prop}
    {E : Fatal → (Fd → List Byte) → Prop}
    (hQ : ∀ db' fs', StoreDone I chain free (op.apply m).2 fs' → Q ((op.apply m).1, db') fs')
    (hpois : Poisoned I (chain (dbHash op.key.1)) op.key → E tooMany I.files)
    (habort : ∀ k d flag err J, op = .store k d flag → StoreAborts I chain k d flag err J →
      E err J.files) :
    wp (exec fuel op.call db) Q E I.files := by
  cases op with
  | fetch k =>
    apply wp_bind
    refine wp_fetch s hf (fun v db' hv => wp_ret ?_) hpois
    rw [← hv.stored s]
    exact hQ db' _ (storeDone_same s)
  | store k d flag =>
    apply wp_bind
    exact wp_store s hf (fun db' fs' hd => wp_ret (hQ db' fs' hd))
      fun err J ha => habort k d flag err J rfl ha
  | delete k =>
    apply wp_bind
    refine wp_delete s hf (fun l₁ o l₂ e d J db' hc he hk f st hm => ?_) (fun db' hm => ?_) hpois
    · have hr : (MapOp.apply m (.delete k)).1 = .status 0 := by simp [MapOp.apply, hm]
      rw [hr] at hQ
      obtain ⟨d', hd', -, hm'⟩ := stores_get_found s (by simp [hc]) he hk
      obtain rfl : d = d' := Option.some.inj (hm.symm.trans hm')
      exact wp_ret (hQ db' _ ⟨J, _, _, rfl, st, fun t => t.delete hc he hd' f⟩)
    · have hr : MapOp.apply m (.delete k) = (.status (-1), m) := by
        simp only [MapOp.apply, hm, if_pos]
        rw [← hm, update_eq_self]
      rw [hr] at hQ
      exact wp_ret (hQ db' _ (storeDone_same s))

/-! ## Whole runs -/

/-- An admissible call on a clean map fails only at the limits of the format. -/
theorem wp_exec_admissible {op : MapOp} (hop : op.Admissible) (hf : ptrMax ≤ fuel) (hm : Clean m)
    (hk : Keeps m fs) :
    wp (exec fuel op.call db)
      (fun r fs' => r.1 = (op.apply m).1 ∧ Keeps (op.apply m).2 fs' ∧ Clean (op.apply m).2)
      (fun err _ => err = longRecord ∨ err = farRecord) fs := by
  obtain ⟨I, chain, free, rfl, s, t⟩ := hk
  have hclean : Clean (op.apply m).2 := by
    refine keysIn_apply hm ?_
    rintro k d flag rfl
    exact hop.1
  refine wp_exec op hf s (fun db' fs' hdone => ⟨rfl, ?_, hclean⟩) (fun hp => ?_) ?_
  · obtain ⟨J, chain', free', hfs, s', ht⟩ := hdone
    exact ⟨J, chain', free', hfs, s', ht t⟩
  · exact absurd hp (clean_not_poisoned s hm _ (dbHash_lt _))
  · rintro k d flag err J rfl ha
    cases ha with
    | data hd =>
      have := hop.2
      omega
    | poisoned hp => exact absurd hp (clean_not_poisoned s hm _ (dbHash_lt _))
    | absentLong => exact Or.inl rfl
    | absentFar => exact Or.inr rfl
    | presentLong => exact Or.inl rfl
    | presentFar => exact Or.inr rfl

theorem wp_execAll {ops : List MapOp} (hops : ∀ op ∈ ops, op.Admissible) (hf : ptrMax ≤ fuel)
    (hm : Clean m) (hk : Keeps m fs) :
    wp (execAll fuel (ops.map MapOp.call) db) (fun r _ => r.1 = (applyAll m ops).1)
      (fun err _ => err = longRecord ∨ err = farRecord) fs := by
  induction ops generalizing m fs db with
  | nil => exact wp_ret rfl
  | cons op ops ih =>
    have hop := hops op List.mem_cons_self
    have hrest : ∀ op' ∈ ops, op'.Admissible := fun op' h' => hops op' (List.mem_cons_of_mem op h')
    apply wp_bind
    refine wp_mono (wp_exec_admissible hop hf hm hk) ?_ fun _ _ he => he
    rintro ⟨r, db'⟩ fs' ⟨hr, hk', hm'⟩
    apply wp_bind
    refine wp_mono (ih hrest hm' hk') ?_ fun _ _ he => he
    rintro ⟨rs, db''⟩ fs'' hrs
    apply wp_ret
    change r :: rs = (op.apply m).1 :: (applyAll (op.apply m).2 ops).1
    rw [← hr, ← hrs]

/-- From a new database every sequence of calls returns what the plain map returns, unless
it ends at a limit of the file format. -/
theorem database_refines_map (fuel : ℕ) (hf : ptrMax ≤ fuel) (ops : List MapOp)
    (hops : ∀ op ∈ ops, op.Admissible) (fs : Fd → List Byte) :
    Meets (fun r _ => r.1 = (applyAll emptyMap ops).1)
      (fun err _ => err = longRecord ∨ err = farRecord)
      ((dbOpen true true >>= execAll fuel (ops.map MapOp.call)).run fs) := by
  have hclean : Clean emptyMap := fun k d h => by cases h
  have h : wp (dbOpen true true >>= execAll fuel (ops.map MapOp.call))
      (fun r _ => r.1 = (applyAll emptyMap ops).1)
      (fun err _ => err = longRecord ∨ err = farRecord) fs := by
    apply wp_bind
    apply wp_open
    exact wp_execAll hops hf hclean keeps_created
  unfold wp at h
  exact h

/-- Storing, storing again, deleting and fetching one key. -/
theorem database_refines_map_one_key :
    let k : CString := ⟨[107], by decide⟩
    let ops : List MapOp := [.store k ⟨[118, 49], by decide⟩ dbInsert,
      .store k ⟨[118], by decide⟩ dbStoreFlag, .fetch k, .delete k, .fetch k]
    (applyAll emptyMap ops).1 = [.status 0, .status 0, .data (some [118]), .status 0, .data none] ∧
      Meets (fun r _ => r.1 = (applyAll emptyMap ops).1)
        (fun err _ => err = longRecord ∨ err = farRecord)
        ((dbOpen true true >>= execAll ptrMax (ops.map MapOp.call)).run fun _ => []) := by
  intro k ops
  have hops : ∀ op ∈ ops, op.Admissible := by
    intro op hop
    simp only [ops, List.mem_cons, List.not_mem_nil, or_false] at hop
    rcases hop with rfl | rfl | rfl | rfl | rfl
    · exact ⟨by decide, by decide, by decide⟩
    · exact ⟨by decide, by decide, by decide⟩
    · exact (by decide : sep ∉ k.1)
    · exact (by decide : sep ∉ k.1)
    · exact (by decide : sep ∉ k.1)
  refine ⟨by decide, ?_⟩
  clear_value ops
  exact database_refines_map ptrMax le_rfl ops hops _

/-! ## The representation invariant -/

/-- What the two files of a database satisfy between calls. The index file is the free-list
pointer, the chain pointers and a newline, then the records of the image back to back; the
data file is the blocks of the image, each with its newline. -/
structure Represents (I : Image) (chain : ℕ → List ℕ) (free : List ℕ) (fs : Fd → List Byte) :
    Prop where
  index_file : fs .idx = I.idx
  data_file : fs .dat = I.dat
  free_list : Linked I.ptr freeOff free ∧ free.Nodup
  hash_chain : ∀ h, h < nhash → Linked I.ptr (slotOff h) (chain h) ∧ (chain h).Nodup
  listed : ∀ o, o ∈ free ∨ (∃ h, h < nhash ∧ o ∈ chain h) → ∃ e, I.recs.lookup o = some e
  one_list : ∀ o e, I.recs.lookup o = some e →
    (o ∈ free ∧ (∀ h, h < nhash → o ∉ chain h) ∧ isBlank e.key.1 = true ∧
      isBlank ((pread (fs .dat) e.datoff e.datlen).dropLast) = true) ∨
    (o ∉ free ∧ ∀ h, h < nhash → (o ∈ chain h ↔ h = dbHash e.key.1))
  live_keys : ∀ o o' e e', I.recs.lookup o = some e → I.recs.lookup o' = some e' →
    o ∉ free → o' ∉ free → e.key = e'.key → o = o'
  disjoint : ∀ o o' e e', I.recs.lookup o = some e → I.recs.lookup o' = some e' → o ≠ o' →
    e.datoff + e.datlen ≤ e'.datoff ∨ e'.datoff + e'.datlen ≤ e.datoff
  tiles : ∀ i, i < (fs .dat).length ↔
    ∃ o e, I.recs.lookup o = some e ∧ e.datoff ≤ i ∧ i < e.datoff + e.datlen
  newlines : ∀ o e, I.recs.lookup o = some e →
    (pread (fs .dat) e.datoff e.datlen).getLast? = some newline

def RepInv (fs : Fd → List Byte) : Prop := ∃ I chain free, Represents I chain free fs

theorem represents_of_stores {I : Image} {chain : ℕ → List ℕ} {free : List ℕ}
    (s : Stores I chain free m) (t : Tight I chain free [] []) :
    Represents I chain free I.files := by
  have hread : ∀ o e, I.recs.lookup o = some e → ∃ d, I.blocks.lookup e.datoff = some d ∧
      pread I.dat e.datoff e.datlen = d.1 ++ [newline] := by
    intro o e he
    obtain ⟨d, hd, hl⟩ := s.blocks.block o e he
    exact ⟨d, hd, hl ▸ pread_block hd⟩
  have hchain : ∀ h, h < nhash → ∀ o ∈ chain h, ∀ e, I.recs.lookup o = some e →
      h = dbHash e.key.1 := by
    intro h hh o ho e he
    obtain ⟨e', he', hhash⟩ := (s.chains h hh).entry o ho
    obtain rfl : e = e' := Option.some.inj (he.symm.trans he')
    exact hhash.symm
  have honlist : ∀ o e, I.recs.lookup o = some e → o ∉ free → o ∈ chain (dbHash e.key.1) := by
    intro o e he hf
    by_contra hn
    refine t.listed o e he List.not_mem_nil ⟨hf, fun h hh ho => hn ?_⟩
    rwa [← hchain h hh o ho e he]
  constructor
  · rfl
  · rfl
  · exact ⟨s.freeList.linked, linked_nodup s.freeList.linked⟩
  · exact fun h hh => ⟨(s.chains h hh).linked, linked_nodup (s.chains h hh).linked⟩
  · rintro o (ho | ⟨h, hh, ho⟩)
    · exact s.entry (listed_of_free ho)
    · exact s.entry (listed_of_chain hh ho)
  · intro o e he
    by_cases hf : o ∈ free
    · obtain ⟨e', d, he', hk, hd, hb⟩ := s.freeList.entry o hf
      obtain rfl : e = e' := Option.some.inj (he.symm.trans he')
      obtain ⟨d', hd', hr⟩ := hread o e he
      obtain rfl : d = d' := Option.some.inj (hd.symm.trans hd')
      refine Or.inl ⟨hf, fun h hh ho => s.apart h hh o ho hf, hk, ?_⟩
      change isBlank (pread I.dat e.datoff e.datlen).dropLast = true
      rw [hr, List.dropLast_concat]
      exact hb
    · refine Or.inr ⟨hf, fun h hh => ⟨fun ho => hchain h hh o ho e he, ?_⟩⟩
      rintro rfl
      exact honlist o e he hf
  · intro o o' e e' he he' hf hf' hk
    refine (s.chains _ (dbHash_lt e.key.1)).keys o (honlist o e he hf) o' ?_ e e' he he' hk
    rw [hk]
    exact honlist o' e' he' hf'
  · intro o o' e e' he he' hne
    obtain ⟨d, hd, hl⟩ := s.blocks.block o e he
    obtain ⟨d', hd', hl'⟩ := s.blocks.block o' e' he'
    have hoff : e.datoff ≠ e'.datoff := fun h => hne (s.blocks.own o o' e e' he he' h)
    have := I.blocks_placed.disjoint (lookup_block.mp hd) (lookup_block.mp hd') hoff
    rw [hl, hl']
    exact this
  · intro i
    change i < I.dat.length ↔ _
    rw [length_dat]
    constructor
    · intro hi
      obtain ⟨⟨b, d⟩, hm, h₁, h₂⟩ := I.blocks_placed.cover (Nat.zero_le i) (by rwa [Nat.zero_add])
      obtain ⟨o, e, he, rfl⟩ := t.named b d (lookup_block.mpr hm) List.not_mem_nil
      obtain ⟨d', hd', hl⟩ := s.blocks.block o e he
      obtain rfl : d = d' := Option.some.inj ((lookup_block.mpr hm).symm.trans hd')
      exact ⟨o, e, he, h₁, by rw [hl]; exact h₂⟩
    · rintro ⟨o, e, he, h₁, h₂⟩
      obtain ⟨d, hd, hl⟩ := s.blocks.block o e he
      have hb := (I.blocks_placed.bounds (lookup_block.mp hd)).2
      rw [Nat.zero_add] at hb
      rw [hl] at h₂
      exact Nat.lt_of_lt_of_le h₂ hb
  · intro o e he
    obtain ⟨d, hd, hr⟩ := hread o e he
    change (pread I.dat e.datoff e.datlen).getLast? = some newline
    rw [hr, List.getLast?_concat]

/-- The files of a database that has seen completed calls only, made by any handles, each
with a key that satisfies `P`. -/
inductive Reachable (P : CString → Prop) (fuel : ℕ) : (Fd → List Byte) → Prop where
  | created {fs₀ fs : Fd → List Byte} {db : DB} (h : (dbOpen true true).run fs₀ = .done db fs) :
      Reachable P fuel fs
  | call {fs fs' : Fd → List Byte} {db db' : DB} {op : MapOp} {r : Result}
      (hr : Reachable P fuel fs) (hk : P op.key)
      (h : (exec fuel op.call db).run fs = .done (r, db') fs') : Reachable P fuel fs'

theorem open_run (fs : Fd → List Byte) :
    (dbOpen true true).run fs = .done (dbRewind {}) created.files := by
  have h : wp (dbOpen true true) (fun db fs' => db = dbRewind {} ∧ fs' = created.files)
      (fun _ _ => False) fs := wp_open ⟨rfl, rfl⟩
  obtain ⟨db, fs', hr, rfl, rfl⟩ := wp_returns h
  exact hr

theorem created_store_run (db : DB) (hf : ptrMax ≤ fuel) {k d : CString} (hfit : FitsIndex k 0 d)
    (hd : datlenMin ≤ d.1.length + 1 ∧ d.1.length + 1 ≤ datlenMax) :
    ∃ db' fs', (exec fuel (.store k d dbInsert) db).run created.files =
      .done (.status 0, db') fs' ∧ Keeps (Function.update emptyMap k (some d)) fs' := by
  have hclean : ∀ {k'}, ¬ Poisoned created [] k' := by
    rintro k' ⟨l₁, x, l₂, a, hl, -⟩
    exact List.append_ne_nil_of_right_ne_nil _ (List.cons_ne_nil _ _) hl.symm
  have hw : wp (exec fuel (MapOp.store k d dbInsert).call db) (fun r fs' => r.1 = .status 0 ∧
      Keeps (Function.update emptyMap k (some d)) fs') (fun _ _ => False) created.files := by
    refine wp_exec _ hf created_stores (fun db' fs' hdone => ?_) ?_ ?_
    · obtain ⟨J, chain', free', hfs, s', ht⟩ := hdone
      exact ⟨rfl, J, chain', free', hfs, s', ht created_tight⟩
    · exact fun hp => hclean hp
    · rintro k' d' flag err J heq ha
      cases heq
      cases ha with
      | data hd' => omega
      | poisoned hp => exact hclean hp
      | absentLong _ hl => exact hl hfit
      | absentFar _ _ _ hmax => exact absurd hmax (by decide)
      | presentLong hc => exact List.append_ne_nil_of_right_ne_nil _ (List.cons_ne_nil _ _) hc.symm
      | presentFar hc => exact List.append_ne_nil_of_right_ne_nil _ (List.cons_ne_nil _ _) hc.symm
  obtain ⟨⟨r, db'⟩, fs', hr, rfl, hk⟩ := wp_returns hw
  exact ⟨db', fs', hr, hk⟩

theorem keeps_call {op : MapOp} {r : Result} {db' : DB} {fs' : Fd → List Byte}
    (hf : ptrMax ≤ fuel) (hk : Keeps m fs)
    (h : (exec fuel op.call db).run fs = .done (r, db') fs') : Keeps (op.apply m).2 fs' := by
  obtain ⟨I, chain, free, rfl, s, t⟩ := hk
  have hw : wp (exec fuel op.call db) (fun _ fs' => Keeps (op.apply m).2 fs') (fun _ _ => True)
      I.files := by
    refine wp_exec op hf s (fun _ fs' hdone => ?_) (fun _ => trivial) fun _ _ _ _ _ _ _ => trivial
    obtain ⟨J, chain', free', hfs, s', ht⟩ := hdone
    exact ⟨J, chain', free', hfs, s', ht t⟩
  have hdone := wp_done hw h
  exact hdone

theorem reachable_keeps {P : CString → Prop} (hf : ptrMax ≤ fuel) (h : Reachable P fuel fs) :
    ∃ m, Keeps m fs ∧ KeysIn P m := by
  induction h with
  | created h =>
    rw [open_run] at h
    cases h
    exact ⟨emptyMap, keeps_created, fun k d h => by cases h⟩
  | call _ hk h ih =>
    obtain ⟨m, hm, hP⟩ := ih
    refine ⟨_, keeps_call hf hm h, keysIn_apply hP ?_⟩
    rintro k d flag rfl
    exact hk

end DbRefinement
