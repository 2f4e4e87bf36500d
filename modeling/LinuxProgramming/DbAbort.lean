import LinuxProgramming.DbScan

/-! # What an aborted db_store leaves in the files

The limits are checked by _db_writeidx and _db_writeptr, after the data record is written
and, when the length of the data changes, after the old record is deleted. An abort there
can lose the old pair, and it can leave a record that no chain holds but a scan lists. -/
namespace DbAbort

open CStrings ByteFiles SyscallPrograms SoloRuns LinkedChains DbLibrary DbImage DbRecords
  DbLists DbInvariant DbOperations DbStore DbRefinement DbScan

/-! ## What the files serve -/

inductive Answer where
  | value (r : Option (List Byte))
  | aborted (err : Fatal)
  | hung
  deriving DecidableEq, Repr

def answerOf : Outcome Fd Fatal (Option (List Byte) × DB) → Answer
  | .done r _ => .value r.1
  | .aborted err _ => .aborted err
  | .hung _ => .hung

def answer (fuel : ℕ) (fs : Fd → List Byte) (key : List Byte) : Answer :=
  answerOf ((dbOpen false false >>= fun db => dbFetch fuel db key).run fs)

def reopenScan (fuel : ℕ) (fs : Fd → List Byte) : List (ℤ × List Byte × List Byte) × ScanEnd :=
  match (dbOpen false false).run fs with
  | .done db fs' => scan fuel db fs'
  | .aborted err _ => ([], .aborted err)
  | .hung _ => ([], .hung)

def Listed (fuel : ℕ) (fs : Fd → List Byte) (key data : List Byte) : Prop :=
  ∃ off, (off, key, data) ∈ (reopenScan fuel fs).1

/-- Two states of the files that no fetch and no scan can tell apart. -/
structure SameContents (fuel : ℕ) (fs fs' : Fd → List Byte) : Prop where
  fetch : ∀ k : CString, answer fuel fs' k.1 = answer fuel fs k.1
  scan : ∀ key data, Listed fuel fs' key data ↔ Listed fuel fs key data

variable {I J : Image} {chain : ℕ → List ℕ} {free : List ℕ} {m : KeyMap} {k d : CString}
  {fuel : ℕ} {fs fs' : Fd → List Byte} {flag : ℤ} {err : Fatal} {os : List ℕ}

theorem answer_eq (fuel : ℕ) (fs : Fd → List Byte) (key : List Byte) :
    answer fuel fs key = answerOf ((dbFetch fuel (dbRewind {}) key).run fs) := rfl

/-! ## Fetches are determined by the walk -/

theorem split_cases {l₁ l₂ r₁ r₂ : List ℕ} {x y : ℕ} (h : l₁ ++ x :: l₂ = r₁ ++ y :: r₂) :
    x ∈ r₁ ∨ y ∈ l₁ ∨ x = y := by
  rcases List.append_eq_append_iff.mp h with ⟨a, ha, hb⟩ | ⟨a, ha, hb⟩
  · cases a with
    | nil => exact Or.inr (Or.inr (List.cons.inj hb).1)
    | cons z a =>
      left
      rw [ha, (List.cons.inj hb).1]
      simp
  · cases a with
    | nil => exact Or.inr (Or.inr (List.cons.inj hb).1.symm)
    | cons z a =>
      right
      left
      rw [ha, (List.cons.inj hb).1]
      simp

theorem found_not_poisoned {v : Option CString} (h : Found I os k v) : ¬ Poisoned I os k := by
  rintro ⟨r₁, x, r₂, a, hr, hpass, ha, hs⟩
  cases h with
  | absent habs => exact (habs x (by simp [hr]) a ha).2 hs
  | @present l₁ l₂ o e d hos habs he hk hsep hd =>
    rcases split_cases (hos.symm.trans hr) with ho | hx | rfl
    · exact (hpass o ho e he).1 hk
    · exact (habs x hx a ha).2 hs
    · obtain rfl : e = a := Option.some.inj (he.symm.trans ha)
      exact hsep (hk ▸ hs)

theorem answer_cases (s : Stores I chain free m) (hf : ptrMax ≤ fuel) (k : CString) :
    (∃ v, Found I (chain (dbHash k.1)) k v ∧ answer fuel I.files k.1 = .value (v.map Subtype.val)) ∨
      (Poisoned I (chain (dbHash k.1)) k ∧ answer fuel I.files k.1 = .aborted tooMany) := by
  let Q : Option (List Byte) → Prop := fun r =>
    ∃ v, Found I (chain (dbHash k.1)) k v ∧ r = v.map Subtype.val
  have h : wp (dbFetch fuel (dbRewind {}) k.1) (fun r _ => Q r.1)
      (fun err _ => Poisoned I (chain (dbHash k.1)) k ∧ err = tooMany) I.files :=
    wp_fetch s hf (fun v _ hv => ⟨v, hv, rfl⟩) fun hp => ⟨hp, rfl⟩
  rw [answer_eq]
  unfold wp at h
  generalize (dbFetch fuel (dbRewind {}) k.1).run I.files = out at h
  cases out with
  | done r fs =>
    obtain ⟨v, hv, hr⟩ := h
    exact Or.inl ⟨v, hv, congrArg Answer.value hr⟩
  | aborted err fs =>
    obtain ⟨hp, rfl⟩ := h
    exact Or.inr ⟨hp, rfl⟩
  | hung fs => exact h.elim

theorem answer_found {v : Option CString} (s : Stores I chain free m) (hf : ptrMax ≤ fuel)
    (h : Found I (chain (dbHash k.1)) k v) :
    answer fuel I.files k.1 = .value (v.map Subtype.val) := by
  rcases answer_cases s hf k with ⟨w, hw, ha⟩ | ⟨hp, -⟩
  · rw [ha, ← hw.stored s, h.stored s]
  · exact absurd hp (found_not_poisoned h)

theorem answer_poisoned (s : Stores I chain free m) (hf : ptrMax ≤ fuel)
    (h : Poisoned I (chain (dbHash k.1)) k) : answer fuel I.files k.1 = .aborted tooMany := by
  rcases answer_cases s hf k with ⟨v, hv, -⟩ | ⟨-, ha⟩
  · exact absurd h (found_not_poisoned hv)
  · exact ha

theorem answer_map {r : Option (List Byte)} (s : Stores I chain free m) (hf : ptrMax ≤ fuel)
    (h : answer fuel I.files k.1 = .value r) : r = (m k).map Subtype.val := by
  rcases answer_cases s hf k with ⟨v, hv, ha⟩ | ⟨-, ha⟩
  · rw [hv.stored s]
    exact Answer.value.inj (h.symm.trans ha)
  · cases h.symm.trans ha

/-! ## Images with more records -/

/-- Every record of `I` is in `J`, with its data. -/
def Extends (I J : Image) : Prop :=
  ∀ x e, I.recs.lookup x = some e →
    J.recs.lookup x = some e ∧ J.blocks.lookup e.datoff = I.blocks.lookup e.datoff

theorem extends_addBlock (hb : BlocksOK I) (d : CString) : Extends I (I.addBlock d) := by
  intro x e he
  refine ⟨he, ?_⟩
  rw [addBlock_lookup, if_neg (datEnd_unnamed hb he)]

theorem extends_appended (hb : BlocksOK I) (d : CString) (e : Entry) {v : ℕ} (hv : v ≤ ptrMax) :
    Extends I (appended I d e v hv) := by
  intro x a ha
  obtain ⟨h₁, h₂⟩ := extends_addBlock hb d x a ha
  refine ⟨?_, h₂⟩
  rw [appended, addEntry_lookup, if_neg]
  · exact h₁
  · rintro rfl
    rw [lookup_idxEnd] at h₁
    cases h₁

section Extends

variable (hx : Extends I J) (hin : ∀ x ∈ os, ∃ e, I.recs.lookup x = some e)

include hx

theorem Extends.absent {l : List ℕ} (hin : ∀ x ∈ l, ∃ e, I.recs.lookup x = some e)
    (h : Absent I l k) : Absent J l k := by
  intro x hxl a ha
  obtain ⟨e, he⟩ := hin x hxl
  obtain rfl : e = a := Option.some.inj ((hx x e he).1.symm.trans ha)
  exact h x hxl e he

include hin

theorem Extends.found {v : Option CString} (h : Found I os k v) : Found J os k v := by
  cases h with
  | absent h => exact .absent (hx.absent hin h)
  | @present l₁ l₂ o e d hos habs he hk hs hd =>
    obtain ⟨he', hd'⟩ := hx o e he
    have hin₁ : ∀ x ∈ l₁, ∃ e, I.recs.lookup x = some e := fun x hxl => hin x (by simp [hos, hxl])
    exact .present hos (hx.absent hin₁ habs) he' hk hs (hd'.trans hd)

theorem Extends.poisoned (h : Poisoned I os k) : Poisoned J os k := by
  obtain ⟨l₁, x, l₂, a, hos, habs, ha, hs⟩ := h
  have hin₁ : ∀ x ∈ l₁, ∃ e, I.recs.lookup x = some e := fun x hxl => hin x (by simp [hos, hxl])
  exact ⟨l₁, x, l₂, a, hos, hx.absent hin₁ habs, (hx x a ha).1, hs⟩

end Extends

theorem Extends.answer (hx : Extends I J) (s : Stores I chain free m) (s' : Stores J chain free m)
    (hf : ptrMax ≤ fuel) (k : CString) : answer fuel J.files k.1 = answer fuel I.files k.1 := by
  have hin : ∀ x ∈ chain (dbHash k.1), ∃ e, I.recs.lookup x = some e := by
    intro x hxc
    obtain ⟨e, he, -⟩ := (s.chains _ (dbHash_lt _)).entry x hxc
    exact ⟨e, he⟩
  rcases answer_cases s hf k with ⟨v, hv, ha⟩ | ⟨hp, ha⟩
  · rw [ha, answer_found s' hf (hx.found hin hv)]
  · rw [ha, answer_poisoned s' hf (hx.poisoned hin hp)]

/-! ## Scans -/

theorem recs_lt_length (I : Image) : I.recs.length < (I.files .idx).length := by
  have h := length_le_extent (fun e : Entry => e.size_pos) I.recs
  have hend : (I.files .idx).length = recordsOff + extent Entry.size I.recs := length_idx I
  have hpos : 0 < recordsOff := by decide
  omega

theorem listed_iff (hb : BlocksOK I) (hf : I.recs.length < fuel) {key data : List Byte} :
    Listed fuel I.files key data ↔ ∃ o e, (o, e) ∈ readable I.recs ∧ ¬ Blank (o, e) ∧
      key = e.key.1 ∧ data = entryData I e := by
  have hscan : (reopenScan fuel I.files).1 = listing I (readable I.recs) :=
    congrArg Prod.fst (scan_eq (dbRewind {}) hb hf)
  rw [Listed, hscan]
  constructor
  · rintro ⟨off, h⟩
    obtain ⟨o, e, hm, hnb, -, hk, hd⟩ := mem_listing.mp h
    exact ⟨o, e, hm, hnb, hk, hd⟩
  · rintro ⟨o, e, hm, hnb, hk, hd⟩
    exact ⟨o, mem_listing.mpr ⟨o, e, hm, hnb, rfl, hk, hd⟩⟩

theorem reopenScan_null (hb : BlocksOK I) (hf : I.recs.length < fuel) :
    (reopenScan fuel I.files).2 = .null ↔ readable I.recs = I.recs := by
  have hscan : (reopenScan fuel I.files).2 =
      if readable I.recs = I.recs then .null else .aborted tooMany :=
    congrArg Prod.snd (scan_eq (dbRewind {}) hb hf)
  rw [hscan]
  by_cases h : readable I.recs = I.recs
  · simp [h]
  · simp [h]

theorem readable_mem {l : List (ℕ × Entry)} {r : ℕ × Entry} (h : r ∈ readable l) : r ∈ l :=
  (List.takeWhile_sublist _).subset h

theorem Extends.entryData (hx : Extends I J) {o : ℕ} {e : Entry} (h : (o, e) ∈ readable I.recs) :
    entryData J e = entryData I e := by
  have he := lookup_entry.mpr (readable_mem h)
  rw [DbScan.entryData, DbScan.entryData, (hx o e he).2]

/-- The pairs of a scan are those of the readable records, whatever blocks are added. -/
theorem Extends.listed (hx : Extends I J) (hb : BlocksOK I) (hb' : BlocksOK J)
    (hf : I.recs.length < fuel) (hf' : J.recs.length < fuel)
    (hr : readable J.recs = readable I.recs) (key data : List Byte) :
    Listed fuel J.files key data ↔ Listed fuel I.files key data := by
  rw [listed_iff hb hf, listed_iff hb' hf', hr]
  constructor
  · rintro ⟨o, e, hm, hnb, hk, hd⟩
    exact ⟨o, e, hm, hnb, hk, hd.trans (hx.entryData hm)⟩
  · rintro ⟨o, e, hm, hnb, hk, hd⟩
    exact ⟨o, e, hm, hnb, hk, hd.trans (hx.entryData hm).symm⟩

theorem readable_snoc (l : List (ℕ × Entry)) (r : ℕ × Entry) :
    readable (l ++ [r]) = if readable l = l ∧ sep ∉ r.2.key.1 then l ++ [r] else readable l := by
  by_cases hl : readable l = l
  · have hall := List.takeWhile_eq_self_iff.mp hl
    have happ : readable (l ++ [r]) = l ++ readable [r] := List.takeWhile_append_of_pos hall
    by_cases hs : sep ∈ r.2.key.1
    · have hr : readable [r] = [] := List.takeWhile_cons_of_neg (by simpa using hs)
      rw [happ, hr, if_neg fun h => h.2 hs, List.append_nil, hl]
    · have hr : readable [r] = [r] := List.takeWhile_cons_of_pos (by simpa using hs)
      rw [happ, hr, if_pos ⟨hl, hs⟩]
  · rw [if_neg fun h => hl h.1]
    have hlen : (l.takeWhile fun r => sep ∉ r.2.key.1).length ≠ l.length := by
      intro h
      exact hl ((List.takeWhile_sublist _).eq_of_length h)
    rw [readable, List.takeWhile_append, if_neg hlen]
    rfl

/-- A record behind the others is listed, and nothing else changes, unless the scan ends
before it or skips it. -/
theorem listed_appended (hb : BlocksOK I) {e : Entry} {v : ℕ} (hv : v ≤ ptrMax)
    (hb' : BlocksOK (appended I d e v hv)) (ho : e.datoff = I.datEnd)
    (hf : I.recs.length + 1 < fuel) (key data : List Byte) :
    Listed fuel (appended I d e v hv).files key data ↔ Listed fuel I.files key data ∨
      (readable I.recs = I.recs ∧ sep ∉ e.key.1 ∧ isBlank e.key.1 = false ∧
        key = e.key.1 ∧ data = d.1) := by
  have hx := extends_appended hb d e hv
  have hrecs : (appended I d e v hv).recs = I.recs ++ [(I.idxEnd, e)] := rfl
  have hlen : (appended I d e v hv).recs.length < fuel := by
    rw [hrecs, List.length_append]
    exact hf
  have hread := readable_snoc I.recs (I.idxEnd, e)
  by_cases hall : readable I.recs = I.recs ∧ sep ∉ e.key.1
  · rw [if_pos hall] at hread
    have hdata : entryData (appended I d e v hv) e = d.1 := by
      have hd : (I.addBlock d).blocks.lookup e.datoff = some d := by
        rw [addBlock_lookup, if_pos ho]
      have hd' : (appended I d e v hv).blocks.lookup e.datoff = some d := hd
      simp [DbScan.entryData, hd']
    rw [listed_iff hb' hlen, listed_iff hb (by omega), hrecs, hread]
    constructor
    · rintro ⟨o, a, hm, hnb, hk, hd⟩
      rcases List.mem_append.mp hm with hm | hm
      · rw [← hall.1] at hm
        exact Or.inl ⟨o, a, hm, hnb, hk, hd.trans (hx.entryData hm)⟩
      · cases List.mem_singleton.mp hm
        exact Or.inr ⟨hall.1, hall.2, Bool.not_eq_true _ ▸ hnb, hk, hd.trans hdata⟩
    · rintro (⟨o, a, hm, hnb, hk, hd⟩ | ⟨-, -, hnb, hk, hd⟩)
      · refine ⟨o, a, List.mem_append_left _ (readable_mem hm), hnb, hk, ?_⟩
        exact hd.trans (hx.entryData hm).symm
      · refine ⟨I.idxEnd, e, by simp, fun hbl => ?_, hk, hd.trans hdata.symm⟩
        exact absurd (hbl.symm.trans hnb) (by decide)
  · rw [if_neg hall] at hread
    have hrest := hx.listed hb hb' (by omega) hlen hread key data
    rw [hrest]
    constructor
    · exact Or.inl
    · rintro (h | ⟨h₁, h₂, -⟩)
      · exact h
      · exact absurd ⟨h₁, h₂⟩ hall

/-! ## Every state that calls and aborts can leave -/

/-- The files of a database between processes: each call is made with any handle, and a
process that aborts is followed by others. db_rewind and db_nextrec write nothing. -/
inductive Visited (fuel : ℕ) : (Fd → List Byte) → Prop where
  | created {fs₀ fs : Fd → List Byte} {db : DB} (h : (dbOpen true true).run fs₀ = .done db fs) :
      Visited fuel fs
  | returned {fs fs' : Fd → List Byte} {db db' : DB} {op : MapOp} {r : Result}
      (hv : Visited fuel fs) (h : (exec fuel op.call db).run fs = .done (r, db') fs') :
      Visited fuel fs'
  | aborted {fs fs' : Fd → List Byte} {db : DB} {op : MapOp} {err : Fatal}
      (hv : Visited fuel fs) (h : (exec fuel op.call db).run fs = .aborted err fs') :
      Visited fuel fs'

def WellFormed (fs : Fd → List Byte) : Prop :=
  ∃ I chain free m, fs = Image.files I ∧ Stores I chain free m

theorem storeAborts_stores (s : Stores I chain free m)
    (h : StoreAborts I chain k d flag err J) : ∃ chain' free' m', Stores J chain' free' m' := by
  cases h with
  | data | poisoned => exact ⟨chain, free, m, s⟩
  | absentLong => exact ⟨chain, free, m, s.addBlock d⟩
  | absentFar _ _ _ _ hv => exact ⟨chain, free, m, stores_appended s hv rfl rfl⟩
  | presentLong hc he _ hd₀ _ _ _ f =>
    exact ⟨_, _, _, (s.delete (dbHash_lt _) hc he hd₀ f).addBlock d⟩
  | presentFar hc he _ hd₀ _ _ _ f _ _ _ hv =>
    exact ⟨_, _, _, stores_appended (s.delete (dbHash_lt _) hc he hd₀ f) hv rfl rfl⟩

theorem wp_exec_wellFormed (op : MapOp) (db : DB) (hf : ptrMax ≤ fuel) (s : Stores I chain free m) :
    wp (exec fuel op.call db) (fun _ fs => WellFormed fs) (fun _ fs => WellFormed fs) I.files := by
  refine wp_exec op hf s (fun db' fs' hdone => ?_) (fun _ => ⟨I, chain, free, m, rfl, s⟩) ?_
  · obtain ⟨J, chain', free', hfs, s', -⟩ := hdone
    exact ⟨J, chain', free', _, hfs, s'⟩
  · rintro k d flag err J rfl ha
    obtain ⟨chain', free', m', s'⟩ := storeAborts_stores s ha
    exact ⟨J, chain', free', m', rfl, s'⟩

theorem visited_wellFormed (hf : ptrMax ≤ fuel) (h : Visited fuel fs) : WellFormed fs := by
  induction h with
  | created h =>
    rw [open_run] at h
    cases h
    exact ⟨created, _, _, _, rfl, created_stores⟩
  | @returned fs fs' db db' op r _ h ih =>
    obtain ⟨I, chain, free, m, rfl, s⟩ := ih
    exact wp_done (wp_exec_wellFormed op db hf s) h
  | @aborted fs fs' db op err _ h ih =>
    obtain ⟨I, chain, free, m, rfl, s⟩ := ih
    exact wp_aborted (wp_exec_wellFormed op db hf s) h

theorem store_aborted {db : DB} (hf : ptrMax ≤ fuel) (s : Stores I chain free m)
    (h : (exec fuel (.store k d flag) db).run I.files = .aborted err fs') :
    ∃ J, StoreAborts I chain k d flag err J ∧ fs' = J.files := by
  have hw : wp (exec fuel (.store k d flag) db) (fun _ _ => True)
      (fun err fs => ∃ J, StoreAborts I chain k d flag err J ∧ fs = J.files) I.files := by
    apply wp_bind
    exact wp_store s hf (fun _ _ _ => wp_ret trivial) fun err J ha => ⟨J, ha, rfl⟩
  exact wp_aborted hw h

/-! ## When an abort shows -/

/-- The old pair of the key is gone, or a new record that no chain holds is listed. -/
def Spoils (fuel : ℕ) (fs : Fd → List Byte) (k d : CString) (err : Fatal) : Prop :=
  ((err = longRecord ∨ err = farRecord) ∧ ∃ d₀, answer fuel fs k.1 = .value (some d₀)) ∨
    (err = farRecord ∧ answer fuel fs k.1 = .value none ∧ isBlank k.1 = false ∧ sep ∉ k.1 ∧
      (reopenScan fuel fs).2 = .null ∧ ¬ Listed fuel fs k.1 d.1)

theorem spoils_limit (h : Spoils fuel fs k d err) : err = longRecord ∨ err = farRecord := by
  rcases h with ⟨h, -⟩ | ⟨h, -⟩
  · exact h
  · exact Or.inr h

theorem deleted_not_same {d₀ : CString} {chain' : ℕ → List ℕ} {free' : List ℕ} {m' : KeyMap}
    (s : Stores I chain free m) (s' : Stores J chain' free' m') (hf : ptrMax ≤ fuel)
    (hfound : Found I (chain (dbHash k.1)) k (some d₀)) (hm : m' k = none) :
    ¬ SameContents fuel I.files J.files := by
  intro hsame
  have hfetch := (hsame.fetch k).trans (answer_found s hf hfound)
  have hgone := answer_map s' hf hfetch
  rw [hm] at hgone
  cases hgone

theorem appended_same_iff (s : Stores I chain free m) (hf : ptrMax ≤ fuel)
    (hfound : Found I (chain (dbHash k.1)) k none) (hd : d.1.length + 1 ≤ datlenMax)
    (hfit : FitsIndex k I.datEnd d) {v : ℕ} (hv : v ≤ ptrMax) (hlen : I.recs.length + 1 < fuel) :
    SameContents fuel I.files (appended I d (newEntry k I.datEnd d hd hfit) v hv).files ↔
      ¬ Spoils fuel I.files k d farRecord := by
  have s' := stores_appended s (e := newEntry k I.datEnd d hd hfit) hv rfl rfl
  have hx := extends_appended s.blocks d (newEntry k I.datEnd d hd hfit) hv
  have hlisted := listed_appended s.blocks hv s'.blocks rfl hlen
  have hnull := reopenScan_null s.blocks (Nat.lt_of_succ_lt hlen)
  have habs := answer_found s hf hfound
  constructor
  · rintro hsame (⟨-, d₀, h₀⟩ | ⟨-, -, hnb, hs, hend, hnew⟩)
    · cases h₀.symm.trans habs
    · refine hnew ((hsame.scan k.1 d.1).mp ((hlisted _ _).mpr (Or.inr ?_)))
      exact ⟨hnull.mp hend, hs, hnb, rfl, rfl⟩
  · intro hno
    refine ⟨fun k' => hx.answer s s' hf k', fun key data => (hlisted key data).trans ?_⟩
    constructor
    · rintro (h | ⟨hend, hs, hnb, rfl, rfl⟩)
      · exact h
      · by_contra hnew
        exact hno (Or.inr ⟨rfl, habs, hnb, hs, hnull.mpr hend, hnew⟩)
    · exact Or.inl

def longKey : CString := ⟨List.replicate 1019 97, by decide +kernel⟩

end DbAbort
