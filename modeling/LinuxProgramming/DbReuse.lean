import LinuxProgramming.DbAbort

/-! # The space that db_store uses

The free list is what _db_readptr and _db_readidx read from its head on, in any state that calls and
aborts can leave. What a store that returns 0 does to the bytes of both files depends on that list and
on the record found for its key. -/
namespace DbReuse

open CStrings ByteFiles SyscallPrograms SoloRuns LinkedChains DbLibrary DbImage DbRecords
  DbLists DbInvariant DbOperations DbStore DbRefinement DbAbort

/-- Where an index record and its data stand, and the lengths of the key and of the data. -/
structure Place where
  off : ℕ
  datoff : ℕ
  keylen : ℕ
  datlen : ℕ
  deriving DecidableEq, Repr

def placeOf (db : DB) : Place :=
  ⟨db.idxoff.toNat, db.datoff.toNat, (cstr db.idxbuf).length, db.datlen⟩

def walkFree : ℕ → DB → ℤ → Act (List Place)
  | 0, _, offset => if offset = 0 then .ret [] else .hang
  | fuel + 1, db, offset =>
    if offset = 0 then .ret []
    else do
      let (nextoffset, db) ← dbReadidx db offset
      let rest ← walkFree fuel db nextoffset
      return placeOf db :: rest

def readFreeList (fuel : ℕ) : Act (List Place) := do
  let (offset, db) ← dbReadptr {} freeOff
  walkFree fuel db offset

def FreeList (fuel : ℕ) (fs : Fd → List Byte) (free : List Place) : Prop :=
  (readFreeList fuel).run fs = .done free fs

def Place.Fits (r : Place) (k d : CString) : Prop := r.keylen = k.1.length ∧ r.datlen = d.1.length + 1

/-! ## Changes of the files -/

def indexRecord (v : ℕ) (key : List Byte) (datoff datlen : ℕ) : List Byte :=
  pointerText v ++ padLeft idxlenSz (decimal (entryText key datoff datlen).length) ++
    entryText key datoff datlen

/-- The pointer field at `o` reads `v`. -/
def Points (fs : Fd → List Byte) (o v : ℕ) : Prop := pread (fs .idx) o ptrSz = pointerText v

structure SameLengths (fs fs' : Fd → List Byte) : Prop where
  idx : (fs' .idx).length = (fs .idx).length
  dat : (fs' .dat).length = (fs .dat).length

/-- The record at `r`, behind `pred` on the free list, is unlinked, filled and linked in front of the
chain of its key. -/
structure Reused (fs fs' : Fd → List Byte) (pred : ℕ) (r : Place) (k d : CString) : Prop where
  dat : fs' .dat = pwrite (fs .dat) r.datoff (d.1 ++ [newline])
  idx : ∃ v next, Points fs (chainOff k.1) v ∧ Points fs r.off next ∧
    fs' .idx = pwrite (pwrite (pwrite (fs .idx) pred (pointerText next))
      r.off (indexRecord v k.1 r.datoff r.datlen)) (chainOff k.1) (pointerText r.off)

/-- Both files grow by one record, which is linked in front of the chain of its key. -/
structure Appended (fs fs' : Fd → List Byte) (k d : CString) : Prop where
  dat : fs' .dat = fs .dat ++ (d.1 ++ [newline])
  idx : ∃ v, Points fs (chainOff k.1) v ∧
    fs' .idx = pwrite (fs .idx ++ indexRecord v k.1 (fs .dat).length (d.1.length + 1))
      (chainOff k.1) (pointerText (fs .idx).length) ∧
    (fs' .idx).length =
      (fs .idx).length + (indexRecord v k.1 (fs .dat).length (d.1.length + 1)).length

/-- The record at `r`, behind `pred` on its chain, is made blank and linked in front of the free list. -/
structure Deleted (fs fs' : Fd → List Byte) (pred : ℕ) (r : Place) : Prop where
  lengths : SameLengths fs fs'
  dat : fs' .dat = pwrite (fs .dat) r.datoff (List.replicate (r.datlen - 1) space ++ [newline])
  idx : ∃ v next, Points fs freeOff v ∧ Points fs r.off next ∧
    fs' .idx = pwrite (pwrite (pwrite (fs .idx)
      r.off (indexRecord v (List.replicate r.keylen space) r.datoff r.datlen))
      freeOff (pointerText r.off)) pred (pointerText next)

/-- Only the data bytes of the record change. -/
structure Overwritten (fs fs' : Fd → List Byte) (r : Place) (d : CString) : Prop where
  idx : fs' .idx = fs .idx
  dat : fs' .dat = pwrite (fs .dat) r.datoff (d.1 ++ [newline])
  dat_length : (fs' .dat).length = (fs .dat).length

/-- A key that was not there takes the first record of the free list that fits; when there is none,
both files grow by one record. -/
structure Inserted (fuel : ℕ) (fs fs' : Fd → List Byte) (free : List Place) (k d : CString) : Prop where
  lengths : SameLengths fs fs' ↔ ∃ r ∈ free, r.Fits k d
  reused : (∃ r ∈ free, r.Fits k d) → ∃ l₁ r l₂, free = l₁ ++ r :: l₂ ∧ r.Fits k d ∧
    (∀ x ∈ l₁, ¬ x.Fits k d) ∧ Reused fs fs' ((l₁.map Place.off).getLastD freeOff) r k d ∧
    FreeList fuel fs' (l₁ ++ l₂)
  appended : (∀ r ∈ free, ¬ r.Fits k d) → Appended fs fs' k d ∧ FreeList fuel fs' free

def Missing (fuel : ℕ) (fs : Fd → List Byte) (k : CString) : Prop :=
  ∀ db, ∃ db', (dbFindAndLock fuel db k.1 true).run fs = .done (-1, db') fs

/-- The record of the key is found at `r`, behind `pred`. -/
def Finds (fuel : ℕ) (fs : Fd → List Byte) (k : CString) (pred : ℕ) (r : Place) : Prop :=
  ∀ db, ∃ db', (dbFindAndLock fuel db k.1 true).run fs = .done (0, db') fs ∧ placeOf db' = r ∧
    db'.ptroff = pred

def StoreSpace (fuel : ℕ) (fs fs' : Fd → List Byte) (k d : CString) : Prop :=
  ∃ free, FreeList fuel fs free ∧
    (Missing fuel fs k ∧ Inserted fuel fs fs' free k d ∨
      ∃ pred r, Finds fuel fs k pred r ∧
        (r.datlen = d.1.length + 1 → Overwritten fs fs' r d ∧ FreeList fuel fs' free) ∧
        (r.datlen ≠ d.1.length + 1 →
          (∃ mid, Deleted fs mid pred r ∧ FreeList fuel mid (r :: free) ∧ Appended mid fs' k d) ∧
          FreeList fuel fs' (r :: free)))

/-! ## The free list of an image -/

def entryPlace (o : ℕ) (e : Entry) : Place := ⟨o, e.datoff, e.key.1.length, e.datlen⟩

def placeAt (I : Image) (o : ℕ) : Place := ((I.recs.lookup o).map (entryPlace o)).getD ⟨o, 0, 0, 0⟩

variable {I J : Image} {chain chain' : ℕ → List ℕ} {free free' : List ℕ} {m : KeyMap} {k d : CString}
  {fuel o : ℕ} {e : Entry}

theorem placeAt_entry (he : I.recs.lookup o = some e) : placeAt I o = entryPlace o e := by
  simp [placeAt, he]

theorem off_placeAt (I : Image) (o : ℕ) : (placeAt I o).off = o := by
  cases he : I.recs.lookup o with
  | none => simp [placeAt, he]
  | some e => rw [placeAt_entry he, entryPlace]

theorem placeOf_names {db : DB} (hn : Names db I o e) : placeOf db = entryPlace o e := by
  simp [placeOf, entryPlace, hn.idxoff, hn.datoff, hn.datlen, hn.idxbuf, cstr_parsed]

theorem places_congr (h : ∀ x ∈ free, J.recs.lookup x = I.recs.lookup x) :
    free.map (placeAt J) = free.map (placeAt I) := by
  apply List.map_congr_left
  intro x hx
  rw [placeAt, placeAt, h x hx]

/-- The walk has passed `l₁`. -/
theorem wp_walkFree (hfl : FreeOK I free) (l₁ l₂ : List ℕ) (hos : free = l₁ ++ l₂) (fuel : ℕ) (db : DB)
    (hf : l₂.length ≤ fuel) :
    wp (walkFree fuel db (I.ptr (l₁.getLastD freeOff)))
      (fun l fs => l = l₂.map (placeAt I) ∧ fs = I.files) (fun _ _ => False) I.files := by
  induction l₂ generalizing l₁ fuel db with
  | nil =>
    rw [List.append_nil] at hos
    rw [path_last (hos ▸ hfl.linked : Linked I.ptr freeOff l₁)]
    cases fuel with
    | zero => exact wp_if_pos rfl (wp_ret ⟨rfl, rfl⟩)
    | succ fuel => exact wp_if_pos rfl (wp_ret ⟨rfl, rfl⟩)
  | cons o l₂ ih =>
    obtain ⟨n, rfl⟩ : ∃ n, fuel = n + 1 := ⟨fuel - 1, by simp only [List.length_cons] at hf; omega⟩
    have hlink := hfl.linked
    rw [hos] at hlink
    obtain ⟨hpre, hne, -⟩ := path_append.mp hlink
    obtain ⟨e, -, he, hblank, -⟩ := hfl.entry o (by simp [hos])
    rw [path_last hpre]
    apply wp_if_neg (by omega)
    apply wp_bind
    refine wp_readidx he (fun _ => ?_) fun hs => absurd hs (sep_notMem_blank hblank)
    have hrest := ih (l₁ ++ [o]) (by simp [hos]) n (readBack { db with idxpos := o } (I.ptr o) e)
      (by simp only [List.length_cons] at hf; omega)
    rw [List.getLastD_concat] at hrest
    apply wp_bind
    refine wp_mono hrest ?_ fun _ _ h => h
    rintro l fs ⟨rfl, rfl⟩
    refine wp_ret ⟨?_, rfl⟩
    rw [List.map_cons, placeAt_entry he, ← placeOf_names (names_readBack { db with idxpos := o } I e)]

theorem freeList_places (hfl : FreeOK I free) (hf : ptrMax ≤ fuel) :
    FreeList fuel I.files (free.map (placeAt I)) := by
  have hlen := linked_length_le hfl.linked
  have hw : wp (readFreeList fuel) (fun l fs => l = free.map (placeAt I) ∧ fs = I.files)
      (fun _ _ => False) I.files := by
    apply wp_bind
    refine wp_readptr free_hasPtr ?_
    exact wp_walkFree hfl [] free rfl fuel _ (hlen.trans hf)
  obtain ⟨l, fs, hrun, rfl, rfl⟩ := wp_returns hw
  exact hrun

theorem fits_place (hfl : FreeOK I free) (ho : o ∈ free) :
    (placeAt I o).Fits k d ↔ Fits I k.1.length (d.1.length + 1) o := by
  obtain ⟨e, -, he, -⟩ := hfl.entry o ho
  rw [placeAt_entry he]
  constructor
  · exact fun h => ⟨e, he, h.1, h.2⟩
  · rintro ⟨a, ha, h⟩
    obtain rfl : a = e := Option.some.inj (ha.symm.trans he)
    exact h

/-! ## Finding the key -/

theorem missing_of_absent (s : Stores I chain free m) (hf : ptrMax ≤ fuel)
    (habs : Absent I (chain (dbHash k.1)) k) : Missing fuel I.files k := by
  intro db
  have hw : wp (dbFindAndLock fuel db k.1 true) (fun r fs => r.1 = -1 ∧ fs = I.files)
      (fun _ _ => False) I.files := by
    refine wp_findAndLock (s.chains _ (dbHash_lt _)) hf ?_ ?_ ?_
    · intro l₁ o l₂ e db' hos _ he hk _ _ _ _
      exact absurd hk (habs o (by simp [hos]) e he).1
    · exact fun db' _ _ => ⟨rfl, rfl⟩
    · exact found_not_poisoned (.absent habs)
  obtain ⟨⟨rc, db'⟩, fs, hrun, rfl, rfl⟩ := wp_returns hw
  exact ⟨db', hrun⟩

theorem finds_of_present (s : Stores I chain free m) (hf : ptrMax ≤ fuel) {l₁ l₂ : List ℕ}
    (hc : chain (dbHash k.1) = l₁ ++ o :: l₂) (habs : Absent I l₁ k) (he : I.recs.lookup o = some e)
    (hk : e.key = k) (hs : sep ∉ k.1) :
    Finds fuel I.files k (l₁.getLastD (slotOff (dbHash k.1))) (entryPlace o e) := by
  intro db
  have hch := s.chains _ (dbHash_lt k.1)
  have hmem : o ∈ chain (dbHash k.1) := by simp [hc]
  obtain ⟨d₀, hd₀, -⟩ := s.blocks.block o e he
  have hw : wp (dbFindAndLock fuel db k.1 true)
      (fun r fs => (r.1 = 0 ∧ placeOf r.2 = entryPlace o e ∧
        r.2.ptroff = l₁.getLastD (slotOff (dbHash k.1))) ∧ fs = I.files)
      (fun _ _ => False) I.files := by
    refine wp_findAndLock hch hf ?_ ?_ ?_
    · intro r₁ x r₂ a db' hos _ ha hka _ hn hp _
      -- the chain has one record of the key, at one position
      obtain rfl : x = o := hch.keys x (by simp [hos]) o hmem a e ha he (hka.trans hk.symm)
      obtain rfl : a = e := Option.some.inj (ha.symm.trans he)
      have hnodup := List.nodup_middle.mp (hc ▸ linked_nodup hch.linked)
      have hnot := fun h₁ => hnodup.notMem (List.mem_append_left l₂ h₁)
      have hnot' := fun h₂ => hnodup.notMem (List.mem_append_right l₁ h₂)
      obtain ⟨rfl, -, -⟩ := (List.append_cons_inj_of_notMem hnot hnot').mp (hc.symm.trans hos)
      exact ⟨⟨rfl, placeOf_names hn, hp⟩, rfl⟩
    · exact fun db' hno _ => absurd hk (hno o hmem e he).1
    · exact found_not_poisoned (.present hc habs he hk hs hd₀)
  obtain ⟨⟨rc, db'⟩, fs, hrun, ⟨rfl, hplace, hp⟩, rfl⟩ := wp_returns hw
  exact ⟨db', hrun, hplace, hp⟩

/-! ## Appending -/

theorem points_slot (I : Image) (k : CString) :
    Points I.files (chainOff k.1) (I.ptr (slotOff (dbHash k.1))) := pread_ptr (slot_hasPtr (dbHash_lt k.1))

theorem points_entry (he : I.recs.lookup o = some e) : Points I.files o (I.ptr o) :=
  pread_ptr (hasPtr_entry he)

section Append

variable {v : ℕ} {hv : v ≤ ptrMax} {x w : ℕ} {hw : w ≤ ptrMax}

theorem appended_lookup (he : I.recs.lookup o = some e) (a : Entry) :
    ((appended I d a v hv).setPtr x w hw).recs.lookup o = some e := by
  have hne : o ≠ I.idxEnd := by
    rintro rfl
    rw [lookup_idxEnd] at he
    cases he
  exact (addEntry_lookup (I.addBlock d) o v a hv).trans ((if_neg hne).trans he)

theorem appended_places (hfl : FreeOK I free) (a : Entry) :
    free.map (placeAt ((appended I d a v hv).setPtr x w hw)) = free.map (placeAt I) := by
  apply places_congr
  intro y hy
  obtain ⟨e, -, he, -⟩ := hfl.entry y hy
  exact (appended_lookup he a).trans he.symm

end Append

theorem appended_files (hd : d.1.length + 1 ≤ datlenMax) (hf : FitsIndex k I.datEnd d)
    (hmax : I.idxEnd ≤ ptrMax) :
    Appended I.files ((appended I d (newEntry k I.datEnd d hd hf) (I.ptr (slotOff (dbHash k.1)))
      (I.ptr_le _)).setPtr (slotOff (dbHash k.1)) I.idxEnd hmax).files k d := by
  have hv := I.ptr_le (slotOff (dbHash k.1))
  have hbytes : (newEntry k I.datEnd d hd hf).bytes (I.ptr (slotOff (dbHash k.1))) =
      indexRecord (I.ptr (slotOff (dbHash k.1))) k.1 (I.files .dat).length (d.1.length + 1) := by
    rw [show (I.files .dat).length = I.datEnd from length_dat I]
    rfl
  have hidx : (appended I d (newEntry k I.datEnd d hd hf) (I.ptr (slotOff (dbHash k.1))) hv).idx =
      I.idx ++ (newEntry k I.datEnd d hd hf).bytes (I.ptr (slotOff (dbHash k.1))) :=
    idx_addEntry (I := I.addBlock d) _ hv
  constructor
  · exact dat_addBlock d
  · refine ⟨_, points_slot I k, ?_, ?_⟩
    · rw [← hbytes, show (I.files .idx).length = I.idxEnd from length_idx I]
      refine (idx_setPtr (slot_hasPtr (dbHash_lt k.1)) hmax).trans ?_
      rw [hidx]
      rfl
    · -- the pointer is written inside the file
      rw [← hbytes, length_entryBytes hv]
      refine (length_idx _).trans ?_
      rw [show (I.files .idx).length = I.idxEnd from length_idx I]
      simp [Image.idxEnd, Image.setPtr, appended, Image.addEntry, Image.addBlock, Nat.add_assoc]

theorem not_sameLengths_of_appended {fs fs' : Fd → List Byte} (h : Appended fs fs' k d) :
    ¬ SameLengths fs fs' := by
  intro hsame
  have hdat := hsame.dat
  rw [h.dat, List.length_append, List.length_append, List.length_singleton] at hdat
  omega

/-! ## Using a free record -/

section Refilled

variable {hkl : k.1.length = e.key.1.length}
  {hs : ∀ c, (e.datoff, c) ∈ I.blocks → blockSize c = blockSize d}
  {hz : ∀ c, (o, c) ∈ I.recs → c.size = (withKey e k hkl).size} {ho : o ≤ ptrMax}

variable (hkl hs hz ho) in
theorem refilled_idx (he : I.recs.lookup o = some e) :
    (refilled I o e k d hkl hs hz ho).idx =
      pwrite (pwrite I.idx o (indexRecord (I.ptr (slotOff (dbHash k.1))) k.1 e.datoff e.datlen))
        (chainOff k.1) (pointerText o) := by
  have hentry := idx_setEntry (I := I.setBlock e.datoff d hs) he hz (I.ptr_le (slotOff (dbHash k.1)))
  refine (idx_setPtr (slot_hasPtr (dbHash_lt k.1)) ho).trans ?_
  exact congrArg (pwrite · (chainOff k.1) (pointerText o)) hentry

theorem refilled_dat {d₀ : CString} (hd₀ : I.blocks.lookup e.datoff = some d₀) :
    (refilled I o e k d hkl hs hz ho).dat = pwrite I.dat e.datoff (d.1 ++ [newline]) := dat_setBlock hd₀ hs

theorem refilled_sameLengths : SameLengths I.files (refilled I o e k d hkl hs hz ho).files := by
  constructor
  · have hend : (refilled I o e k d hkl hs hz ho).idxEnd = I.idxEnd :=
      congrArg (recordsOff + ·) (extent_put hz)
    exact (length_idx _).trans (hend.trans (length_idx I).symm)
  · have hend : (refilled I o e k d hkl hs hz ho).datEnd = I.datEnd := extent_put hs
    exact (length_dat _).trans (hend.trans (length_dat I).symm)

theorem refilled_places (hnot : o ∉ free) :
    free.map (placeAt (refilled I o e k d hkl hs hz ho)) = free.map (placeAt I) := by
  apply places_congr
  intro x hx
  have hne : x ≠ o := fun h => hnot (h ▸ hx)
  exact (setEntry_lookup (I.setBlock e.datoff d hs) o x (withKey e k hkl) hz).trans (if_neg hne)

end Refilled

theorem unlinked_sameLengths (I : Image) (x v : ℕ) (hv : v ≤ ptrMax) :
    SameLengths I.files (I.setPtr x v hv).files := by
  constructor
  · exact (length_idx (I.setPtr x v hv)).trans (length_idx I).symm
  · rfl

theorem SameLengths.trans {fs mid fs' : Fd → List Byte} (h : SameLengths fs mid)
    (h' : SameLengths mid fs') : SameLengths fs fs' :=
  ⟨h'.idx.trans h.idx, h'.dat.trans h.dat⟩

/-! ## Deleting and overwriting -/

theorem deleted_files {pred : ℕ} {d₀ : CString} (he : I.recs.lookup o = some e)
    (hl : e.datlen = d₀.1.length + 1) (hw : FreedFiles I J pred o e d₀) :
    Deleted I.files J.files pred (entryPlace o e) := by
  constructor
  · constructor
    · exact (length_idx J).trans (hw.idxEnd.trans (length_idx I).symm)
    · exact (length_dat J).trans (hw.datEnd.trans (length_dat I).symm)
  · refine hw.dat.trans ?_
    rw [entryPlace, hl, Nat.add_sub_cancel]
    rfl
  · exact ⟨_, _, pread_ptr free_hasPtr, points_entry he, hw.idx⟩

theorem freed_places {pred : ℕ} {d₀ : CString} (f : Freed I J pred o e d₀) (hnot : o ∉ free) :
    (o :: free).map (placeAt J) = entryPlace o e :: free.map (placeAt I) := by
  have hfirst : placeAt J o = entryPlace o e := by
    rw [placeAt_entry f.entry, entryPlace, entryPlace]
    exact congrArg (Place.mk o e.datoff · e.datlen) (length_blankString _)
  have hrest : free.map (placeAt J) = free.map (placeAt I) :=
    places_congr fun x hx => f.entry_rest x fun h => hnot (h ▸ hx)
  rw [List.map_cons, hfirst, hrest]

theorem overwritten_files {d₀ : CString} (hd₀ : I.blocks.lookup e.datoff = some d₀)
    (hz : ∀ c, (e.datoff, c) ∈ I.blocks → blockSize c = blockSize d) :
    Overwritten I.files (I.setBlock e.datoff d hz).files (entryPlace o e) d := by
  constructor
  · rfl
  · exact dat_setBlock hd₀ hz
  · have hend : (I.setBlock e.datoff d hz).datEnd = I.datEnd := extent_put hz
    exact (length_dat _).trans (hend.trans (length_dat I).symm)

/-! ## A store that returns 0 -/

theorem map_off_places (I : Image) (l : List ℕ) : (l.map (placeAt I)).map Place.off = l := by
  rw [List.map_map]
  exact (List.map_congr_left fun x _ => off_placeAt I x).trans (List.map_id l)

theorem reused_files {l₁ l₂ : List ℕ} (s : Stores I chain (l₁ ++ o :: l₂) m)
    (he : I.recs.lookup o = some e) {hkl : k.1.length = e.key.1.length}
    {hs : ∀ c, (e.datoff, c) ∈ I.blocks → blockSize c = blockSize d}
    {hz : ∀ c, (o, c) ∈ I.recs → c.size = (withKey e k hkl).size} {ho : o ≤ ptrMax} :
    Reused I.files
      (refilled (I.setPtr (l₁.getLastD freeOff) (I.ptr o) (I.ptr_le o)) o e k d hkl hs hz ho).files
      (l₁.getLastD freeOff) (entryPlace o e) k d := by
  obtain ⟨d₀, hd₀, -⟩ := s.blocks.block o e he
  have hunlink := idx_setPtr (free_pred_hasPtr s.freeList) (I.ptr_le o)
  have hslot : (I.setPtr (l₁.getLastD freeOff) (I.ptr o) (I.ptr_le o)).ptr (slotOff (dbHash k.1)) =
      I.ptr (slotOff (dbHash k.1)) :=
    setPtr_ptr_other _ (slot_ne_free_pred s.freeList (dbHash_lt k.1))
  constructor
  · exact refilled_dat hd₀
  · have hfill := refilled_idx (I := I.setPtr (l₁.getLastD freeOff) (I.ptr o) (I.ptr_le o))
      hkl hs hz ho he
    rw [hslot, hunlink] at hfill
    exact ⟨_, _, points_slot I k, points_entry he, hfill⟩

theorem reused_sameLengths {l₁ : List ℕ} {hkl : k.1.length = e.key.1.length}
    {hs : ∀ c, (e.datoff, c) ∈ I.blocks → blockSize c = blockSize d}
    {hz : ∀ c, (o, c) ∈ I.recs → c.size = (withKey e k hkl).size} {ho : o ≤ ptrMax} :
    SameLengths I.files
      (refilled (I.setPtr (l₁.getLastD freeOff) (I.ptr o) (I.ptr_le o)) o e k d hkl hs hz ho).files :=
  (unlinked_sameLengths I (l₁.getLastD freeOff) (I.ptr o) (I.ptr_le o)).trans refilled_sameLengths

theorem reused_places {l₁ l : List ℕ} {hkl : k.1.length = e.key.1.length}
    {hs : ∀ c, (e.datoff, c) ∈ I.blocks → blockSize c = blockSize d}
    {hz : ∀ c, (o, c) ∈ I.recs → c.size = (withKey e k hkl).size} {ho : o ≤ ptrMax} (hnot : o ∉ l) :
    l.map (placeAt (refilled (I.setPtr (l₁.getLastD freeOff) (I.ptr o) (I.ptr_le o)) o e k d
      hkl hs hz ho)) = l.map (placeAt I) :=
  refilled_places hnot

theorem Stored.space (h : Stored I chain free k d J chain' free') (s : Stores I chain free m)
    (hf : ptrMax ≤ fuel) : StoreSpace fuel I.files J.files k d := by
  have hafter := freeList_places (h.stores s).freeList hf
  refine ⟨free.map (placeAt I), freeList_places s.freeList hf, ?_⟩
  cases h with
  | @reused l₁ l₂ o e habs hfree hfirst he hkl hdl hs hz ho =>
    subst hfree
    obtain ⟨s', hloose⟩ := s.take
    have hmem : o ∈ l₁ ++ o :: l₂ := by simp
    have hfit : (placeAt I o).Fits k d := (fits_place s.freeList hmem).mpr ⟨e, he, hkl.symm, hdl⟩
    refine Or.inl ⟨missing_of_absent s hf habs, ?_⟩
    constructor
    · exact ⟨fun _ => ⟨_, List.mem_map_of_mem hmem, hfit⟩, fun _ => reused_sameLengths⟩
    · intro _
      refine ⟨l₁.map (placeAt I), placeAt I o, l₂.map (placeAt I), by simp, hfit, ?_, ?_, ?_⟩
      · intro r hr
        obtain ⟨x, hx, rfl⟩ := List.mem_map.mp hr
        rw [fits_place s.freeList (List.mem_append_left _ hx)]
        exact hfirst x hx
      · rw [map_off_places, placeAt_entry he]
        exact reused_files s he
      · rw [← List.map_append]
        exact reused_places hloose.1 ▸ hafter
    · exact fun hnone => absurd hfit (hnone _ (List.mem_map_of_mem hmem))
  | appended habs hnone hd hfit hmax =>
    have hgrown := appended_files hd hfit hmax
    have hnofit : ∀ r ∈ free.map (placeAt I), ¬ r.Fits k d := by
      intro r hr
      obtain ⟨x, hx, rfl⟩ := List.mem_map.mp hr
      rw [fits_place s.freeList hx]
      exact hnone x hx
    rw [appended_places s.freeList] at hafter
    refine Or.inl ⟨missing_of_absent s hf habs, ?_⟩
    constructor
    · constructor
      · exact fun hsame => absurd hsame (not_sameLengths_of_appended hgrown)
      · rintro ⟨r, hr, hrfit⟩
        exact absurd hrfit (hnofit r hr)
    · rintro ⟨r, hr, hrfit⟩
      exact absurd hrfit (hnofit r hr)
    · exact fun _ => ⟨hgrown, hafter⟩
  | @replaced l₁ l₂ o e d₀ J _ hc habs he hk hsep hd₀ hne f hw hc' hd hfit hmax =>
    have hmem : o ∈ chain (dbHash k.1) := by simp [hc]
    have hnot : o ∉ free := s.apart _ (dbHash_lt k.1) o hmem
    obtain ⟨c, hcd, hl⟩ := s.blocks.block o e he
    obtain rfl : d₀ = c := Option.some.inj (hd₀.symm.trans hcd)
    have st := s.delete (dbHash_lt k.1) hc he hd₀ f
    have hmid := freeList_places st.freeList hf
    rw [appended_places st.freeList, freed_places f hnot] at hafter
    rw [freed_places f hnot] at hmid
    refine Or.inr ⟨_, _, finds_of_present s hf hc habs he hk hsep, fun hlen => ?_, fun _ => ?_⟩
    · have hlen : e.datlen = d.1.length + 1 := hlen
      omega
    · exact ⟨⟨J.files, deleted_files he hl hw, hmid, appended_files hd hfit hmax⟩, hafter⟩
  | @overwritten l₁ l₂ o e d₀ hc habs he hk hsep hd₀ hlen hz =>
    obtain ⟨c, hcd, hl⟩ := s.blocks.block o e he
    obtain rfl : d₀ = c := Option.some.inj (hd₀.symm.trans hcd)
    refine Or.inr ⟨_, _, finds_of_present s hf hc habs he hk hsep, fun _ => ?_, fun hne => ?_⟩
    · exact ⟨overwritten_files hd₀ hz, hafter⟩
    · refine absurd ?_ hne
      rw [entryPlace, hl, hlen]

/-- Every store that returns 0, in every state that calls and aborts can leave: a new key takes the
first free record of its sizes, and otherwise both files grow by one record; new data of another length
frees the old record first, and of the same length changes the data bytes alone. -/
theorem store_space (fuel : ℕ) (hf : ptrMax ≤ fuel) {fs fs' : Fd → List Byte} (hv : Visited fuel fs)
    {k d : CString} {flag : ℤ} {db db' : DB}
    (hrun : (exec fuel (.store k d flag) db).run fs = .done (.status 0, db') fs') :
    StoreSpace fuel fs fs' k d := by
  obtain ⟨I, chain, free, m, rfl, s⟩ := visited_wellFormed hf hv
  have hw : wp (exec fuel (.store k d flag) db)
      (fun r fs' => r.1 = .status 0 → StoreSpace fuel I.files fs' k d) (fun _ _ => True) I.files := by
    apply wp_bind
    refine wp_storeCases s hf (fun hrc db' => ?_) (fun _ db' J chain' free' hst => ?_)
      fun _ _ _ => trivial
    · apply wp_ret
      intro h0
      exact absurd (Result.status.inj h0) hrc
    · apply wp_ret
      intro _
      exact Stored.space hst s hf
  exact wp_done hw hrun rfl

/-! ## A run -/

def filesAfter (fuel : ℕ) (c : Call) (fs : Fd → List Byte) : Fd → List Byte :=
  match (exec fuel c {}).run fs with
  | .done _ fs' => fs'
  | .aborted _ fs' => fs'
  | .hung fs' => fs'

theorem visited_filesAfter {fs : Fd → List Byte} (hf : ptrMax ≤ fuel) (hv : Visited fuel fs)
    (op : MapOp) : Visited fuel (filesAfter fuel op.call fs) := by
  obtain ⟨I, chain, free, m, rfl, s⟩ := visited_wellFormed hf hv
  have hw := wp_exec_wellFormed op {} hf s
  unfold wp at hw
  unfold filesAfter
  cases hrun : (exec fuel op.call {}).run I.files with
  | done r fs' => exact .returned hv hrun
  | aborted err fs' => exact .aborted hv hrun
  | hung fs' =>
    rw [hrun] at hw
    exact hw.elim

def afterDelete : Fd → List Byte :=
  filesAfter ptrMax (.delete ⟨[97, 98], by decide⟩)
    (filesAfter ptrMax (.store ⟨[97, 98], by decide⟩ ⟨[118, 49], by decide⟩ dbInsert) created.files)

/-- The call returned 0 and left files of the lengths of `fs`. -/
def sameLengths (fs : Fd → List Byte) : Outcome Fd Fatal (Result × DB) → Bool
  | .done r fs' => decide (r.1 = .status 0 ∧ (fs' .idx).length = (fs .idx).length ∧
      (fs' .dat).length = (fs .dat).length)
  | _ => false

theorem sameLengths_done {fs : Fd → List Byte} {out : Outcome Fd Fatal (Result × DB)}
    (h : sameLengths fs out = true) :
    ∃ db' fs', out = .done (.status 0, db') fs' ∧ SameLengths fs fs' := by
  cases out with
  | done r fs' =>
    obtain ⟨rc, db'⟩ := r
    obtain ⟨hrc, hidx, hdat⟩ := of_decide_eq_true h
    obtain rfl : rc = .status 0 := hrc
    exact ⟨db', fs', rfl, hidx, hdat⟩
  | aborted err fs' => cases h
  | hung fs' => cases h

/-- A key and data of the same lengths take the place of the deleted record. -/
theorem store_space_after_delete :
    ∃ db' fs', Visited ptrMax afterDelete ∧
      (exec ptrMax (.store ⟨[99, 100], by decide⟩ ⟨[118, 50], by decide⟩ dbInsert) {}).run afterDelete =
        .done (.status 0, db') fs' ∧
      SameLengths afterDelete fs' ∧
      StoreSpace ptrMax afterDelete fs' ⟨[99, 100], by decide⟩ ⟨[118, 50], by decide⟩ := by
  have hcreated : Visited ptrMax created.files := .created (open_run fun _ => [])
  have hstored := visited_filesAfter le_rfl hcreated
    (.store ⟨[97, 98], by decide⟩ ⟨[118, 49], by decide⟩ dbInsert)
  have hv : Visited ptrMax afterDelete :=
    visited_filesAfter le_rfl hstored (.delete ⟨[97, 98], by decide⟩)
  have hcheck : sameLengths afterDelete
      ((exec ptrMax (.store ⟨[99, 100], by decide⟩ ⟨[118, 50], by decide⟩ dbInsert) {}).run afterDelete) =
        true := by
    decide +kernel
  obtain ⟨db', fs', hrun, hlengths⟩ := sameLengths_done hcheck
  exact ⟨db', fs', hv, hrun, hlengths, store_space ptrMax le_rfl hv hrun⟩

end DbReuse
