import LinuxProgramming.DbRefinement

/-! # Scanning the index file with db_nextrec

A scan follows neither the chains nor the free list: it reads the index records in the
order of the file and skips those whose key is all blanks. -/
namespace DbScan

open CStrings ByteFiles SyscallPrograms SoloRuns LinkedChains DbLibrary DbImage DbRecords
  DbLists DbInvariant DbOperations DbStore DbRefinement

variable {E : Fatal → (Fd → List Byte) → Prop} {I : Image} {db : DB} {fuel : ℕ}

/-! ## One call -/

/-- The index descriptor stands behind the records `l₁` and before the records `l₂`. -/
structure Before (I : Image) (db : DB) (l₁ l₂ : List (ℕ × Entry)) : Prop where
  split : I.recs = l₁ ++ l₂
  idxpos : db.idxpos = recordsOff + extent Entry.size l₁

theorem Before.offset {l₁ l₂ : List (ℕ × Entry)} {o : ℕ} {e : Entry}
    (b : Before I db l₁ ((o, e) :: l₂)) : db.idxpos = o ∧ I.recs.lookup o = some e := by
  have hpl := I.recs_placed
  rw [b.split] at hpl
  obtain ⟨-, ho, -⟩ := placed_append.mp hpl
  refine ⟨b.idxpos.trans ho.symm, lookup_entry.mpr ?_⟩
  rw [b.split]
  simp

theorem Before.next {l₁ l₂ : List (ℕ × Entry)} {o : ℕ} {e : Entry}
    (b : Before I db l₁ ((o, e) :: l₂)) {db' : DB} (h : db'.idxpos = db.idxpos + e.size) :
    Before I db' (l₁ ++ [(o, e)]) l₂ := by
  refine ⟨by simp [b.split], ?_⟩
  rw [h, b.idxpos, extent_append, extent_cons, extent_nil, Nat.add_zero, Nat.add_assoc]

theorem Before.atEnd {l₁ : List (ℕ × Entry)} (b : Before I db l₁ []) : db.idxpos = I.idxEnd := by
  have := b.split
  rw [List.append_nil] at this
  rw [b.idxpos, Image.idxEnd, this]

def Blank (r : ℕ × Entry) : Prop := isBlank r.2.key.1 = true

instance (r : ℕ × Entry) : Decidable (Blank r) := inferInstanceAs (Decidable (_ = _))

theorem wp_nextrecLoop {Q : Option (List Byte) × DB → (Fd → List Byte) → Prop}
    {l₁ l₂ : List (ℕ × Entry)} (hb : Before I db l₁ l₂) (hf : l₂.length < fuel)
    (hfound : ∀ (a : List (ℕ × Entry)) (o : ℕ) (e : Entry) (c : List (ℕ × Entry)) (db' : DB),
      l₂ = a ++ (o, e) :: c → (∀ r ∈ a, Blank r) → ¬ Blank (o, e) → sep ∉ e.key.1 →
      Names db' I o e → Before I db' (l₁ ++ a ++ [(o, e)]) c → Q (some e.key.1, db') I.files)
    (hnone : ∀ db', (∀ r ∈ l₂, Blank r) → db'.idxpos = I.idxEnd → Q (none, db') I.files)
    (hE : ∀ (a : List (ℕ × Entry)) (r : ℕ × Entry) (c : List (ℕ × Entry)),
      l₂ = a ++ r :: c → (∀ r ∈ a, Blank r) → sep ∈ r.2.key.1 → E tooMany I.files) :
    wp (nextrecLoop fuel db) Q E I.files := by
  induction l₂ generalizing l₁ fuel db with
  | nil =>
    obtain ⟨n, rfl⟩ : ∃ n, fuel = n + 1 := ⟨fuel - 1, by omega⟩
    have hend := hb.atEnd
    apply wp_bind
    refine wp_readidx_eof hend ?_
    apply wp_if_pos (by decide)
    apply wp_ret
    exact hnone _ (fun r hr => by cases hr) hend
  | cons r l₂ ih =>
    obtain ⟨n, rfl⟩ : ∃ n, fuel = n + 1 := ⟨fuel - 1, by omega⟩
    obtain ⟨o, e⟩ := r
    obtain ⟨ho, he⟩ := hb.offset
    subst ho
    have hnext : Before I (readBack db (I.ptr db.idxpos) e) (l₁ ++ [(db.idxpos, e)]) l₂ :=
      hb.next rfl
    have hcstr : cstr (readBack db (I.ptr db.idxpos) e).idxbuf = e.key.1 := cstr_parsed e
    apply wp_bind
    refine wp_readRecord he (fun hs => ?_) fun hs => ?_
    · apply wp_if_neg (by simp)
      apply wp_ite
      · intro hblank
        have hblank : Blank (db.idxpos, e) := by
          change isBlank e.key.1 = true
          rw [← hcstr]
          exact hblank
        have hcons : ∀ a : List (ℕ × Entry), (∀ r ∈ a, Blank r) →
            ∀ r ∈ (db.idxpos, e) :: a, Blank r := by
          intro a ha r hr
          rcases List.mem_cons.mp hr with rfl | hr
          · exact hblank
          · exact ha r hr
        refine ih hnext (by simp only [List.length_cons] at hf; omega) ?_ ?_ ?_
        · intro a o' e' c db' hl ha hnb hs' hn hb'
          refine hfound ((db.idxpos, e) :: a) o' e' c db' (by simp [hl]) (hcons a ha) hnb hs' hn ?_
          simpa using hb'
        · exact fun db' ha hend => hnone db' (hcons l₂ ha) hend
        · exact fun a r c hl ha hs' => hE ((db.idxpos, e) :: a) r c (by simp [hl]) (hcons a ha) hs'
      · intro hnb
        apply wp_ret
        rw [hcstr]
        refine hfound [] db.idxpos e l₂ _ rfl (fun r hr => by cases hr) (fun hbl => hnb ?_) hs
          (names_readBack db I e) (by simpa using hnext)
        rw [hcstr]
        exact hbl
    · exact hE [] (db.idxpos, e) l₂ rfl (fun r hr => by cases hr) hs

/-- What one db_nextrec does before the records `l₂`. -/
inductive NextrecOutcome (I : Image) (l₁ l₂ : List (ℕ × Entry)) :
    Outcome Fd Fatal (Option (List Byte × List Byte) × DB) → Prop where
  | null {db' : DB} (hblank : ∀ r ∈ l₂, Blank r) (hend : db'.idxpos = I.idxEnd) :
      NextrecOutcome I l₁ l₂ (.done (none, db') I.files)
  | found {a c : List (ℕ × Entry)} {o : ℕ} {e : Entry} {d : CString} {db' : DB}
      (hl : l₂ = a ++ (o, e) :: c) (ha : ∀ r ∈ a, Blank r) (hnb : ¬ Blank (o, e))
      (hs : sep ∉ e.key.1) (hd : I.blocks.lookup e.datoff = some d) (hoff : db'.idxoff = o)
      (hb : Before I db' (l₁ ++ a ++ [(o, e)]) c) :
      NextrecOutcome I l₁ l₂ (.done (some (e.key.1, d.1), db') I.files)
  | poisoned {a c : List (ℕ × Entry)} {r : ℕ × Entry} (hl : l₂ = a ++ r :: c)
      (ha : ∀ r ∈ a, Blank r) (hs : sep ∈ r.2.key.1) :
      NextrecOutcome I l₁ l₂ (.aborted tooMany I.files)

theorem nextrec_outcome {l₁ l₂ : List (ℕ × Entry)} (hblocks : BlocksOK I)
    (hb : Before I db l₁ l₂) (hf : l₂.length < fuel) :
    NextrecOutcome I l₁ l₂ ((dbNextrec fuel db).run I.files) := by
  have h : wp (dbNextrec fuel db) (fun a fs => NextrecOutcome I l₁ l₂ (.done a fs))
      (fun err fs => NextrecOutcome I l₁ l₂ (.aborted err fs)) I.files := by
    unfold dbNextrec
    apply wp_withLock
    apply wp_bind
    refine wp_nextrecLoop hb hf ?_ ?_ fun a r c hl ha hs => .poisoned hl ha hs
    · intro a o e c db' hl ha hnb hs hn hb'
      have hmem : (o, e) ∈ I.recs := by
        rw [hb.split, hl]
        simp
      obtain ⟨d, hd, hlen⟩ := hblocks.block o e (lookup_entry.mpr hmem)
      apply wp_bind
      refine wp_readdat hn.datoff (hn.datlen.trans hlen) hd ?_
      apply wp_ret
      exact .found hl ha hnb hs hd hn.idxoff ⟨hb'.split, hb'.idxpos⟩
    · intro db' hbl hend
      exact wp_ret (.null hbl hend)
  unfold wp at h
  cases hr : (dbNextrec fuel db).run I.files with
  | done a fs =>
    rw [hr] at h
    exact h
  | aborted err fs =>
    rw [hr] at h
    exact h
  | hung fs =>
    rw [hr] at h
    exact h.elim

/-! ## Whole scans -/

inductive ScanEnd where
  | null
  | aborted (e : Fatal)
  | hung
  deriving DecidableEq, Repr

/-- Calls of db_nextrec until one does not return a record: the index offset, the key and
the data of each record, and how the scan ended. -/
def scanLoop (fuel : ℕ) : ℕ → DB → (Fd → List Byte) → List (ℤ × List Byte × List Byte) × ScanEnd
  | 0, _, _ => ([], .hung)
  | n + 1, db, fs =>
    match (dbNextrec fuel db).run fs with
    | .done (none, _) _ => ([], .null)
    | .done (some (key, data), db') fs' =>
      let (l, fin) := scanLoop fuel n db' fs'
      ((db'.idxoff, key, data) :: l, fin)
    | .aborted err _ => ([], .aborted err)
    | .hung _ => ([], .hung)

def scan (fuel : ℕ) (db : DB) (fs : Fd → List Byte) :
    List (ℤ × List Byte × List Byte) × ScanEnd := scanLoop fuel fuel (dbRewind db) fs

def entryData (I : Image) (e : Entry) : List Byte :=
  ((I.blocks.lookup e.datoff).map Subtype.val).getD []

/-- The pairs of the index records whose key is not blank, in the order of the file. -/
def listing (I : Image) (l : List (ℕ × Entry)) : List (ℤ × List Byte × List Byte) :=
  (l.filter fun r => ¬ Blank r).map fun r => ((r.1 : ℤ), r.2.key.1, entryData I r.2)

def readable (l : List (ℕ × Entry)) : List (ℕ × Entry) := l.takeWhile fun r => sep ∉ r.2.key.1

theorem blank_readable {a : List (ℕ × Entry)} (ha : ∀ r ∈ a, Blank r) (c : List (ℕ × Entry)) :
    readable (a ++ c) = a ++ readable c := by
  refine List.takeWhile_append_of_pos fun r hr => ?_
  simpa using sep_notMem_blank (ha r hr)

theorem listing_blank {a : List (ℕ × Entry)} (ha : ∀ r ∈ a, Blank r) (c : List (ℕ × Entry)) :
    listing I (a ++ c) = listing I c := by
  have hnil : a.filter (fun r => ¬ Blank r) = [] := by
    rw [List.filter_eq_nil_iff]
    intro r hr
    simpa using ha r hr
  rw [listing, List.filter_append, hnil, List.nil_append]
  rfl

theorem listing_cons {o : ℕ} {e : Entry} (hnb : ¬ Blank (o, e)) (c : List (ℕ × Entry)) :
    listing I ((o, e) :: c) = ((o : ℤ), e.key.1, entryData I e) :: listing I c := by
  simp [listing, hnb]

/-- A scan returns the readable records and aborts exactly when there are others. -/
theorem scanLoop_eq {l₁ l₂ : List (ℕ × Entry)} {n : ℕ} (hblocks : BlocksOK I)
    (hb : Before I db l₁ l₂) (hf : l₂.length < fuel) (hn : l₂.length < n) :
    scanLoop fuel n db I.files = (listing I (readable l₂),
      if readable l₂ = l₂ then .null else .aborted tooMany) := by
  induction n generalizing l₁ l₂ db with
  | zero => omega
  | succ n ih =>
    have ho := nextrec_outcome hblocks hb hf
    rw [scanLoop]
    generalize (dbNextrec fuel db).run I.files = out at ho
    cases ho with
    | null hblank hend =>
      have hall : readable l₂ = l₂ := by
        have hread := blank_readable hblank []
        rwa [List.append_nil, show readable [] = [] from rfl, List.append_nil] at hread
      have hnil := listing_blank (I := I) hblank []
      rw [List.append_nil] at hnil
      rw [hall, if_pos rfl, hnil]
      rfl
    | @found a c o e d db' hl ha hnb hs hd hoff hb' =>
      have hread : readable l₂ = a ++ (o, e) :: readable c := by
        rw [hl, blank_readable ha, readable, List.takeWhile_cons_of_pos (by simpa using hs)]
        rfl
      have hlen : c.length < l₂.length := by
        rw [hl]
        simp only [List.length_append, List.length_cons]
        omega
      have hdata : entryData I e = d.1 := by simp [entryData, hd]
      dsimp only
      rw [ih hb' (by omega) (by omega), hread, listing_blank ha, listing_cons hnb, hdata, hoff, hl]
      simp
    | @poisoned a c r hl ha hs =>
      have hread : readable l₂ = a := by
        rw [hl, blank_readable ha, readable, List.takeWhile_cons_of_neg (by simpa using hs),
          List.append_nil]
      have hne : ¬ readable l₂ = l₂ := by
        rw [hread, hl]
        simp
      have hnil := listing_blank (I := I) ha []
      rw [List.append_nil] at hnil
      rw [if_neg hne, hread, hnil]
      rfl

/-! ## A scan of a database at rest -/

section Rest

variable {chain : ℕ → List ℕ} {free : List ℕ} {m : KeyMap}

theorem recs_increasing (I : Image) : I.recs.Pairwise fun a b => a.1 < b.1 :=
  I.recs_placed.increasing fun r _ => r.2.size_pos

theorem before_rewind (I : Image) (db : DB) : Before I (dbRewind db) [] I.recs := ⟨rfl, rfl⟩

theorem scan_eq (db : DB) (hblocks : BlocksOK I) (hf : I.recs.length < fuel) :
    scan fuel db I.files = (listing I (readable I.recs),
      if readable I.recs = I.recs then .null else .aborted tooMany) :=
  scanLoop_eq hblocks (before_rewind I db) hf hf

theorem recs_length_le (s : Stores I chain free m) (t : Tight I chain free [] []) :
    I.recs.length ≤ ptrMax := by
  have hnd : (I.recs.map Prod.fst).Nodup :=
    List.pairwise_map.mpr ((recs_increasing I).imp fun h => Nat.ne_of_lt h)
  have := length_le_of_nodup (n := ptrMax) hnd fun x hx => ?_
  · rwa [List.length_map] at this
  · obtain ⟨⟨o, e⟩, hm, rfl⟩ := List.mem_map.mp hx
    have he := lookup_entry.mpr hm
    refine ⟨entry_ne_zero he, ?_⟩
    by_contra hn
    refine t.listed o e he List.not_mem_nil ⟨fun hf => hn ?_, fun h hh hc => hn ?_⟩
    · exact linked_le_ptrMax s.freeList.linked hf
    · exact linked_le_ptrMax (s.chains h hh).linked hc

/-- In a tight database a record is free, and blank, or it is a pair of the map. -/
theorem record_cases (s : Stores I chain free m) (t : Tight I chain free [] []) {o : ℕ} {e : Entry}
    (he : I.recs.lookup o = some e) :
    (o ∈ free ∧ Blank (o, e)) ∨ (o ∈ chain (dbHash e.key.1) ∧ ∃ d, I.blocks.lookup e.datoff = some d ∧
      m e.key = some d) := by
  by_cases hf : o ∈ free
  · obtain ⟨e', d, he', hk, -⟩ := s.freeList.entry o hf
    obtain rfl : e = e' := Option.some.inj (he.symm.trans he')
    exact Or.inl ⟨hf, hk⟩
  · have hc : o ∈ chain (dbHash e.key.1) := by
      by_contra hn
      refine t.listed o e he List.not_mem_nil ⟨hf, fun h hh ho => hn ?_⟩
      obtain ⟨e', he', rfl⟩ := (s.chains h hh).entry o ho
      obtain rfl : e = e' := Option.some.inj (he.symm.trans he')
      exact ho
    obtain ⟨d, hd, -⟩ := s.blocks.block o e he
    exact Or.inr ⟨hc, d, hd, (s.maps _ d).mpr ⟨o, hc, e, he, rfl, hd⟩⟩

theorem readable_eq_self (s : Stores I chain free m) (t : Tight I chain free [] []) (hm : Clean m) :
    readable I.recs = I.recs := by
  refine List.takeWhile_eq_self_iff.mpr fun r hr => ?_
  obtain ⟨o, e⟩ := r
  have hs : sep ∉ e.key.1 := by
    rcases record_cases s t (lookup_entry.mpr hr) with ⟨-, hb⟩ | ⟨-, d, -, hd⟩
    · exact sep_notMem_blank hb
    · exact hm _ d hd
  simpa using hs

theorem mem_listing {l : List (ℕ × Entry)} {off : ℤ} {key data : List Byte} :
    (off, key, data) ∈ listing I l ↔
      ∃ o e, (o, e) ∈ l ∧ ¬ Blank (o, e) ∧ off = o ∧ key = e.key.1 ∧ data = entryData I e := by
  simp only [listing, List.mem_map, List.mem_filter, decide_eq_true_eq, Prod.mk.injEq]
  constructor
  · rintro ⟨⟨o, e⟩, ⟨hm, hb⟩, h₁, h₂, h₃⟩
    exact ⟨o, e, hm, hb, h₁.symm, h₂.symm, h₃.symm⟩
  · rintro ⟨o, e, hm, hb, h₁, h₂, h₃⟩
    exact ⟨(o, e), ⟨hm, hb⟩, h₁.symm, h₂.symm, h₃.symm⟩

theorem listing_increasing (I : Image) :
    ((listing I I.recs).map fun r => r.1).Pairwise (· < ·) := by
  rw [listing, List.map_map, List.pairwise_map]
  refine ((recs_increasing I).filter _).imp fun h => ?_
  exact Int.ofNat_lt.mpr h

theorem listing_keys_nodup (s : Stores I chain free m) (t : Tight I chain free [] []) :
    ((listing I I.recs).map fun r => r.2.1).Nodup := by
  rw [listing, List.map_map, List.nodup_iff_pairwise_ne, List.pairwise_map]
  refine List.Pairwise.imp_of_mem ?_ ((recs_increasing I).filter _)
  rintro ⟨o, e⟩ ⟨o', e'⟩ hr hr' hlt hk
  obtain ⟨hm, hb⟩ := List.mem_filter.mp hr
  obtain ⟨hm', hb'⟩ := List.mem_filter.mp hr'
  have hk : e.key = e'.key := Subtype.ext hk
  rcases record_cases s t (lookup_entry.mpr hm) with ⟨-, hbl⟩ | ⟨hc, -⟩
  · simp [hbl] at hb
  rcases record_cases s t (lookup_entry.mpr hm') with ⟨-, hbl⟩ | ⟨hc', -⟩
  · simp [hbl] at hb'
  rw [← hk] at hc'
  have := (s.chains _ (dbHash_lt _)).keys o hc o' hc' e e' (lookup_entry.mpr hm)
    (lookup_entry.mpr hm') hk
  dsimp only at hlt
  omega

/-- A scan lists the pairs of the map, when no key of the map is blank. -/
theorem mem_listing_iff (s : Stores I chain free m) (t : Tight I chain free [] [])
    (hm : KeysIn (fun k => isBlank k.1 = false) m) {key data : List Byte} :
    (∃ off, (off, key, data) ∈ listing I I.recs) ↔
      ∃ h : (0 : Byte) ∉ key, (m ⟨key, h⟩).map Subtype.val = some data := by
  constructor
  · rintro ⟨off, hin⟩
    obtain ⟨o, e, hmem, hb, -, rfl, rfl⟩ := mem_listing.mp hin
    rcases record_cases s t (lookup_entry.mpr hmem) with ⟨-, hbl⟩ | ⟨-, d, hd, hmd⟩
    · exact absurd hbl hb
    · exact ⟨e.key.2, by rw [hmd, entryData, hd]; rfl⟩
  · rintro ⟨h, hd⟩
    obtain ⟨d, hmd, rfl⟩ := Option.map_eq_some_iff.mp hd
    obtain ⟨o, -, e, he, hk, hb⟩ := (s.maps _ d).mp hmd
    refine ⟨o, mem_listing.mpr ⟨o, e, lookup_entry.mp he, fun hbl => ?_, rfl, ?_, ?_⟩⟩
    · have hnb := hm _ d hmd
      rw [← hk] at hnb
      exact absurd (hbl.symm.trans hnb) (by decide)
    · rw [hk]
    · rw [entryData, hb]
      rfl

end Rest

theorem fetch_run (db : DB) {m : KeyMap} {chain : ℕ → List ℕ} {free : List ℕ} (s : Stores I chain free m)
    (hm : Clean m) (hf : ptrMax ≤ fuel) (k : CString) :
    ∃ db', (dbFetch fuel db k.1).run I.files = .done ((m k).map Subtype.val, db') I.files := by
  have h : wp (dbFetch fuel db k.1)
      (fun r fs => r.1 = (m k).map Subtype.val ∧ fs = I.files) (fun _ _ => False) I.files :=
    wp_fetch s hf (fun _ _ hv => ⟨by rw [hv.stored s], rfl⟩) fun hp => clean_not_poisoned s hm _ (dbHash_lt _) hp
  obtain ⟨⟨r, db'⟩, fs', hr, rfl, rfl⟩ := wp_returns h
  exact ⟨db', hr⟩

/-- In a database built by completed calls a scan ends with NULL and returns each live pair
once, in the order of the index file, and nothing else. -/
theorem scan_lists_live_pairs (fuel : ℕ) (hf : ptrMax < fuel) {fs : Fd → List Byte}
    (h : Reachable (fun k => sep ∉ k.1 ∧ isBlank k.1 = false) fuel fs) (db : DB) :
    (scan fuel db fs).2 = .null ∧
    ((scan fuel db fs).1.map fun r => r.1).Pairwise (· < ·) ∧
    ((scan fuel db fs).1.map fun r => r.2.1).Nodup ∧
    (∀ r ∈ (scan fuel db fs).1,
      pread (fs .idx) (r.1.toNat + (ptrSz + idxlenSz)) r.2.1.length = r.2.1) ∧
    ∀ key data, (∃ off, (off, key, data) ∈ (scan fuel db fs).1) ↔
      (0 : Byte) ∉ key ∧ ∃ db', (dbFetch fuel db key).run fs = .done (some data, db') fs := by
  obtain ⟨m, ⟨I, chain, free, rfl, s, t⟩, hP⟩ := reachable_keeps hf.le h
  have hclean : Clean m := fun k d hk => (hP k d hk).1
  have hlen := recs_length_le s t
  have hscan := scan_eq db s.blocks (Nat.lt_of_le_of_lt hlen hf)
  rw [readable_eq_self s t hclean, if_pos rfl] at hscan
  rw [hscan]
  refine ⟨rfl, listing_increasing I, listing_keys_nodup s t, ?_, fun key data => ?_⟩
  · rintro ⟨off, key, data⟩ hr
    obtain ⟨o, e, hm, -, rfl, rfl, -⟩ := mem_listing.mp hr
    have hkey : e.text.take e.key.1.length = e.key.1 := by
      rw [entryText_eq, List.append_assoc, List.take_left]
    have hle : e.key.1.length ≤ e.text.length := by
      have := congrArg List.length hkey
      rw [List.length_take] at this
      omega
    have htake := congrArg (List.take e.key.1.length) (pread_entry_text (lookup_entry.mpr hm))
    rw [pread, List.take_take, Nat.min_eq_left hle, hkey] at htake
    exact htake
  · rw [mem_listing_iff s t fun k d hk => (hP k d hk).2]
    constructor
    · rintro ⟨hz, hmd⟩
      obtain ⟨db', hr⟩ := fetch_run db s hclean hf.le ⟨key, hz⟩
      rw [hmd] at hr
      exact ⟨hz, db', hr⟩
    · rintro ⟨hz, db', hr⟩
      obtain ⟨db₂, hr₂⟩ := fetch_run db s hclean hf.le ⟨key, hz⟩
      refine ⟨hz, ?_⟩
      rw [hr] at hr₂
      simp only [Outcome.done.injEq, Prod.mk.injEq] at hr₂
      exact hr₂.1.1.symm

/-- After one store the scan returns that pair. -/
theorem scan_lists_live_pairs_one : ∃ fs,
    Reachable (fun k => sep ∉ k.1 ∧ isBlank k.1 = false) (ptrMax + 1) fs ∧
      (scan (ptrMax + 1) {} fs).2 = .null ∧
      ∃ off, (off, [107], [118]) ∈ (scan (ptrMax + 1) {} fs).1 := by
  let k : CString := ⟨[107], by decide⟩
  let d : CString := ⟨[118], by decide⟩
  have hfit : FitsIndex k 0 d := ⟨by decide, by decide⟩
  obtain ⟨db', fs, hr, I, chain, free, rfl, s, t⟩ :=
    created_store_run {} (Nat.le_succ ptrMax) hfit ⟨by decide, by decide⟩
  have hreach : Reachable (fun k => sep ∉ k.1 ∧ isBlank k.1 = false) (ptrMax + 1) I.files :=
    have hkey : sep ∉ (MapOp.store k d dbInsert).key.1 ∧
        isBlank (MapOp.store k d dbInsert).key.1 = false := ⟨by decide, by decide⟩
    .call (.created (open_run fun _ => [])) hkey hr
  have hclean : Clean (Function.update emptyMap k (some d)) := by
    intro k' d' h'
    by_cases hk : k' = k
    · rw [hk]
      decide
    · rw [Function.update_of_ne hk] at h'
      cases h'
  obtain ⟨hnull, -, -, -, hmem⟩ := scan_lists_live_pairs (ptrMax + 1) (Nat.lt_succ_self _) hreach {}
  obtain ⟨db₂, hfetch⟩ := fetch_run {} s hclean (Nat.le_succ ptrMax) k
  rw [Function.update_self] at hfetch
  exact ⟨I.files, hreach, hnull, (hmem _ _).mpr ⟨by decide, db₂, hfetch⟩⟩

end DbScan
