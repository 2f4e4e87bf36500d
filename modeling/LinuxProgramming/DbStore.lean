import LinuxProgramming.DbOperations

/-! # db_store, one process alone

The four ways of storing and the points at which they abort. A store either does what a
finite map does, or it ends the process in one of the ways listed by `StoreAborts`. -/
namespace DbStore

open CStrings ByteFiles SyscallPrograms SoloRuns LinkedChains DbLibrary DbImage DbRecords
  DbLists DbInvariant DbOperations

/-! ## The finite map -/

def ValidFlag (flag : ℤ) : Prop := flag = dbInsert ∨ flag = dbReplace ∨ flag = dbStoreFlag

instance (flag : ℤ) : Decidable (ValidFlag flag) := inferInstanceAs (Decidable (_ ∨ _ ∨ _))

def storeRc (m : KeyMap) (k : CString) (flag : ℤ) : ℤ :=
  if ¬ ValidFlag flag then -1
  else match m k with
    | none => if flag = dbReplace then -1 else 0
    | some _ => if flag = dbInsert then 1 else 0

def storeMap (m : KeyMap) (k d : CString) (flag : ℤ) : KeyMap :=
  if storeRc m k flag = 0 then Function.update m k (some d) else m

/-! ## New records -/

def FitsIndex (k : CString) (b : ℕ) (d : CString) : Prop :=
  idxlenMin ≤ (entryText k.1 b (d.1.length + 1)).length ∧
    (entryText k.1 b (d.1.length + 1)).length ≤ idxlenMax

def newEntry (k : CString) (b : ℕ) (d : CString) (hd : d.1.length + 1 ≤ datlenMax)
    (hf : FitsIndex k b d) : Entry where
  key := k
  datoff := b
  datlen := d.1.length + 1
  datlen_pos := Nat.succ_pos _
  datlen_le := hd
  length_ge := hf.1
  length_le := hf.2

def longRecord : Fatal := ⟨.writeidx, "invalid length"⟩
def farRecord : Fatal := ⟨.writeptr, "invalid ptr"⟩
def badData : Fatal := ⟨.store, "invalid data length"⟩

variable {E : Fatal → (Fd → List Byte) → Prop} {I : Image} {chain : ℕ → List ℕ}
  {free : List ℕ} {m : KeyMap} {k d : CString} {fuel : ℕ} {db : DB} {flag : ℤ}

/-- The image with a block and an index record for it at the ends of the files. -/
def appended (I : Image) (d : CString) (e : Entry) (v : ℕ) (hv : v ≤ ptrMax) : Image :=
  (I.addBlock d).addEntry e v hv

theorem stores_appended (s : Stores I chain free m) {e : Entry} {v : ℕ} (hv : v ≤ ptrMax)
    (ho : e.datoff = I.datEnd) (hl : e.datlen = d.1.length + 1) :
    Stores (appended I d e v hv) chain free m := by
  have hd : (I.addBlock d).blocks.lookup e.datoff = some d := by
    rw [addBlock_lookup, if_pos ho]
  refine (s.addBlock d).addEntry hv hd hl fun x a ha => ?_
  rw [ho]
  exact datEnd_unnamed s.blocks ha

theorem stores_append_push (s : Stores I chain free m) (hm : m k = none)
    (hd : d.1.length + 1 ≤ datlenMax) (hf : FitsIndex k I.datEnd d) (hmax : I.idxEnd ≤ ptrMax) :
    Stores ((appended I d (newEntry k I.datEnd d hd hf) (I.ptr (slotOff (dbHash k.1)))
        (I.ptr_le _)).setPtr (slotOff (dbHash k.1)) I.idxEnd hmax)
      (Function.update chain (dbHash k.1) (I.idxEnd :: chain (dbHash k.1))) free
      (Function.update m k (some d)) := by
  have st := stores_appended s (e := newEntry k I.datEnd d hd hf) (I.ptr_le (slotOff (dbHash k.1)))
    rfl rfl
  have hslot : slotOff (dbHash k.1) ≠ I.idxEnd := by
    have := slotOff_lt (dbHash_lt k.1)
    have := recordsOff_le_idxEnd I
    omega
  refine st.push (e := newEntry k I.datEnd d hd hf) s.idxEnd_loose ?_ ?_ ?_ hm hmax
  · exact (addEntry_lookup (I.addBlock d) I.idxEnd _ _ _).trans (if_pos rfl)
  · exact (addBlock_lookup I I.datEnd d).trans (if_pos rfl)
  · have h₁ := (addEntry_ptr (I.addBlock d) I.idxEnd (I.ptr (slotOff (dbHash k.1)))
      (newEntry k I.datEnd d hd hf) (I.ptr_le _)).trans (if_pos rfl)
    have h₂ := (addEntry_ptr (I.addBlock d) (slotOff (dbHash k.1)) (I.ptr (slotOff (dbHash k.1)))
      (newEntry k I.datEnd d hd hf) (I.ptr_le _)).trans (if_neg hslot)
    exact h₁.trans h₂.symm

theorem tight_append_push (t : Tight I chain free [] []) (hd : d.1.length + 1 ≤ datlenMax)
    (hf : FitsIndex k I.datEnd d) (hmax : I.idxEnd ≤ ptrMax) {v : ℕ} (hv : v ≤ ptrMax) :
    Tight ((appended I d (newEntry k I.datEnd d hd hf) v hv).setPtr
        (slotOff (dbHash k.1)) I.idxEnd hmax)
      (Function.update chain (dbHash k.1) (I.idxEnd :: chain (dbHash k.1))) free [] [] := by
  have t₁ : Tight (I.addBlock d) chain free [] [I.datEnd] := t.addBlock d
  have t₂ : Tight (appended I d (newEntry k I.datEnd d hd hf) v hv) chain free [I.idxEnd] [] :=
    Tight.addEntry (e := newEntry k I.datEnd d hd hf) t₁ hv
  exact (t₂.push (dbHash_lt k.1)).setPtr hmax

theorem wp_storeAppend {Q : DB → (Fd → List Byte) → Prop} (hd : d.1.length + 1 ≤ datlenMax)
    (hcf : db.chainoff = chainOff k.1)
    (hQ : ∀ (hf : FitsIndex k I.datEnd d) (hmax : I.idxEnd ≤ ptrMax) (db' : DB), Q db'
      ((appended I d (newEntry k I.datEnd d hd hf) (I.ptr (slotOff (dbHash k.1)))
        (I.ptr_le _)).setPtr (slotOff (dbHash k.1)) I.idxEnd hmax).files)
    (hlong : ¬ FitsIndex k I.datEnd d → E longRecord (I.addBlock d).files)
    (hfar : ∀ hf : FitsIndex k I.datEnd d, ptrMax < I.idxEnd → E farRecord
      (appended I d (newEntry k I.datEnd d hd hf) (I.ptr (slotOff (dbHash k.1))) (I.ptr_le _)).files) :
    wp (storeAppend db k.1 d.1 (I.ptr (slotOff (dbHash k.1)))) Q E I.files := by
  have hv := I.ptr_le (slotOff (dbHash k.1))
  unfold storeAppend
  apply wp_bind
  refine wp_writedat_end ?_
  have htext : recordText (wroteDat db I.datEnd d.1) k.1 =
      entryText k.1 I.datEnd (d.1.length + 1) := rfl
  apply wp_bind
  by_cases hf : FitsIndex k I.datEnd d
  · refine wp_writeidx_end (I := I.addBlock d) (e := newEntry k I.datEnd d hd hf) rfl rfl hv ?_
    change wp (dbWriteptr _ db.chainoff (I.idxEnd : ℕ)) _ _ _
    rw [hcf]
    by_cases hmax : I.idxEnd ≤ ptrMax
    · exact wp_writeptr (slot_hasPtr (dbHash_lt k.1)) hmax (hQ hf hmax _)
    · rw [writeptr_long _ _ (by omega)]
      exact wp_abort (hfar hf (by omega))
  · rw [writeidx_long _ _ _ _ hv]
    · exact wp_abort (hlong hf)
    · rw [htext]
      unfold FitsIndex at hf
      omega

/-! ## Records used again -/

/-- The image with the record at `o` filled and linked in front of its chain. -/
def refilled (I : Image) (o : ℕ) (e : Entry) (k d : CString) (hkl : k.1.length = e.key.1.length)
    (hs : ∀ c, (e.datoff, c) ∈ I.blocks → blockSize c = blockSize d)
    (hz : ∀ c, (o, c) ∈ I.recs → c.size = (withKey e k hkl).size) (ho : o ≤ ptrMax) : Image :=
  (((I.setBlock e.datoff d hs).setEntry o (withKey e k hkl) hz).setPtr o
    (I.ptr (slotOff (dbHash k.1))) (I.ptr_le _)).setPtr (slotOff (dbHash k.1)) o ho

section Refilled

variable {o : ℕ} {e : Entry} {d₀ : CString} {hkl : k.1.length = e.key.1.length}
  {hs : ∀ c, (e.datoff, c) ∈ I.blocks → blockSize c = blockSize d}
  {hz : ∀ c, (o, c) ∈ I.recs → c.size = (withKey e k hkl).size} {ho : o ≤ ptrMax}

theorem stores_refilled (s : Stores I chain free m) (hl : Loose chain free o)
    (he : I.recs.lookup o = some e) (hm : m k = none) :
    Stores (refilled I o e k d hkl hs hz ho)
      (Function.update chain (dbHash k.1) (o :: chain (dbHash k.1))) free
      (Function.update m k (some d)) := by
  obtain ⟨d₀, hd₀, -⟩ := s.blocks.block o e he
  have hv := I.ptr_le (slotOff (dbHash k.1))
  have hslot := entry_ne_head he (slotOff_lt (dbHash_lt k.1))
  have hentry : ((I.setBlock e.datoff d hs).setEntry o (withKey e k hkl) hz).recs.lookup o =
      some (withKey e k hkl) := setEntry_lookup_self (I := I.setBlock e.datoff d hs) he hz
  have hblock : (I.setBlock e.datoff d hs).blocks.lookup e.datoff = some d :=
    setBlock_lookup_self hd₀ hs
  have st := s.fill hl he hd₀ hs (withKey e k hkl) rfl rfl hz hv
  refine st.push (e := withKey e k hkl) hl hentry hblock ?_ hm ho
  rw [setPtr_ptr, if_pos rfl, setPtr_ptr]
  exact (if_neg hslot.symm).symm

theorem tight_refilled (t : Tight I chain free [o] []) (he : I.recs.lookup o = some e) :
    Tight (refilled I o e k d hkl hs hz ho)
      (Function.update chain (dbHash k.1) (o :: chain (dbHash k.1))) free [] [] := by
  have t₁ := ((t.setBlock hs).setEntry (withKey e k hkl) he rfl hz).setPtr (x := o)
    (I.ptr_le (slotOff (dbHash k.1)))
  exact (t₁.push (dbHash_lt k.1)).setPtr ho

variable (hkl hs hz ho) in
theorem wp_storeReuse {Q : DB → (Fd → List Byte) → Prop} (he : I.recs.lookup o = some e)
    (hd₀ : I.blocks.lookup e.datoff = some d₀) (hdl : e.datlen = d.1.length + 1)
    (hio : db.idxoff = o) (hdo : db.datoff = e.datoff) (hcf : db.chainoff = chainOff k.1)
    (hQ : ∀ db' : DB, Q db' (refilled I o e k d hkl hs hz ho).files) :
    wp (storeReuse db k.1 d.1 (I.ptr (slotOff (dbHash k.1)))) Q E I.files := by
  have hv := I.ptr_le (slotOff (dbHash k.1))
  unfold storeReuse
  apply wp_bind
  rw [hdo]
  refine wp_writedat_set hd₀ hs ?_
  change wp (dbWriteidx _ _ db.idxoff _ _ >>= _) _ _ _
  rw [hio]
  apply wp_bind
  refine wp_writeidx_set (I := I.setBlock e.datoff d hs) (withKey e k hkl) he rfl hdl.symm
    hz hv ?_
  change wp (dbWriteptr _ db.chainoff (o : ℕ)) _ _ _
  rw [hcf]
  exact wp_writeptr (slot_hasPtr (dbHash_lt k.1)) ho (hQ _)

end Refilled

/-! ## The four ways -/

/-- What a store that returns 0 makes of the image, its chains and its free list. -/
inductive Stored (I : Image) (chain : ℕ → List ℕ) (free : List ℕ) (k d : CString) :
    Image → (ℕ → List ℕ) → List ℕ → Prop where
  | reused {l₁ l₂ : List ℕ} {o : ℕ} {e : Entry} (habs : Absent I (chain (dbHash k.1)) k)
      (hfree : free = l₁ ++ o :: l₂) (hfirst : ∀ x ∈ l₁, ¬ Fits I k.1.length (d.1.length + 1) x)
      (he : I.recs.lookup o = some e) (hkl : k.1.length = e.key.1.length)
      (hdl : e.datlen = d.1.length + 1)
      (hs : ∀ c, (e.datoff, c) ∈ I.blocks → blockSize c = blockSize d)
      (hz : ∀ c, (o, c) ∈ I.recs → c.size = (withKey e k hkl).size) (ho : o ≤ ptrMax) :
      Stored I chain free k d
        (refilled (I.setPtr (l₁.getLastD freeOff) (I.ptr o) (I.ptr_le o)) o e k d hkl hs hz ho)
        (Function.update chain (dbHash k.1) (o :: chain (dbHash k.1))) (l₁ ++ l₂)
  | appended (habs : Absent I (chain (dbHash k.1)) k)
      (hnone : ∀ x ∈ free, ¬ Fits I k.1.length (d.1.length + 1) x)
      (hd : d.1.length + 1 ≤ datlenMax) (hf : FitsIndex k I.datEnd d) (hmax : I.idxEnd ≤ ptrMax) :
      Stored I chain free k d
        ((appended I d (newEntry k I.datEnd d hd hf) (I.ptr (slotOff (dbHash k.1)))
          (I.ptr_le _)).setPtr (slotOff (dbHash k.1)) I.idxEnd hmax)
        (Function.update chain (dbHash k.1) (I.idxEnd :: chain (dbHash k.1))) free
  | replaced {l₁ l₂ : List ℕ} {o : ℕ} {e : Entry} {d₀ : CString} {J : Image} {chain' : ℕ → List ℕ}
      (hc : chain (dbHash k.1) = l₁ ++ o :: l₂) (habs : Absent I l₁ k)
      (he : I.recs.lookup o = some e) (hk : e.key = k) (hs : sep ∉ k.1)
      (hd₀ : I.blocks.lookup e.datoff = some d₀) (hne : d.1.length ≠ d₀.1.length)
      (f : Freed I J (l₁.getLastD (slotOff (dbHash k.1))) o e d₀)
      (hw : FreedFiles I J (l₁.getLastD (slotOff (dbHash k.1))) o e d₀)
      (hc' : chain' = Function.update chain (dbHash k.1) (l₁ ++ l₂))
      (hd : d.1.length + 1 ≤ datlenMax) (hf : FitsIndex k J.datEnd d) (hmax : J.idxEnd ≤ ptrMax) :
      Stored I chain free k d
        ((appended J d (newEntry k J.datEnd d hd hf) (J.ptr (slotOff (dbHash k.1)))
          (J.ptr_le _)).setPtr (slotOff (dbHash k.1)) J.idxEnd hmax)
        (Function.update chain' (dbHash k.1) (J.idxEnd :: chain' (dbHash k.1))) (o :: free)
  | overwritten {l₁ l₂ : List ℕ} {o : ℕ} {e : Entry} {d₀ : CString}
      (hc : chain (dbHash k.1) = l₁ ++ o :: l₂) (habs : Absent I l₁ k)
      (he : I.recs.lookup o = some e) (hk : e.key = k) (hs : sep ∉ k.1)
      (hd₀ : I.blocks.lookup e.datoff = some d₀) (hlen : d.1.length = d₀.1.length)
      (hz : ∀ c, (e.datoff, c) ∈ I.blocks → blockSize c = blockSize d) :
      Stored I chain free k d (I.setBlock e.datoff d hz) chain free

theorem Stored.stores {J : Image} {chain' : ℕ → List ℕ} {free' : List ℕ}
    (h : Stored I chain free k d J chain' free') (s : Stores I chain free m) :
    Stores J chain' free' (Function.update m k (some d)) := by
  cases h with
  | reused habs hfree _ he _ _ _ _ _ =>
    subst hfree
    obtain ⟨s', hl⟩ := s.take
    exact stores_refilled s' hl he (stores_get_absent s habs)
  | appended habs _ hd hf hmax => exact stores_append_push s (stores_get_absent s habs) hd hf hmax
  | replaced hc _ he hk _ hd₀ _ f _ hc' hd hf hmax =>
    have st := s.delete (dbHash_lt _) hc he hd₀ f
    rw [hk] at st
    subst hc'
    have st' := stores_append_push st (Function.update_self _ _ _) hd hf hmax
    have hset : Function.update (Function.update m k none) k (some d) =
        Function.update m k (some d) := Function.update_idem _ _ _
    rwa [hset] at st'
  | @overwritten l₁ l₂ o e d₀ hc _ he hk _ hd₀ _ hz =>
    have hmem : o ∈ chain (dbHash k.1) := by simp [hc]
    have st := s.overwrite (dbHash_lt _) hmem he hd₀ hz
    rwa [hk] at st

theorem Stored.tight {J : Image} {chain' : ℕ → List ℕ} {free' : List ℕ}
    (h : Stored I chain free k d J chain' free') (t : Tight I chain free [] []) :
    Tight J chain' free' [] [] := by
  cases h with
  | reused _ hfree _ he _ _ _ _ _ =>
    subst hfree
    exact tight_refilled (t.take.setPtr _) he
  | appended _ _ hd hf hmax => exact tight_append_push t hd hf hmax (I.ptr_le _)
  | replaced hc _ he _ _ hd₀ _ f _ hc' hd hf hmax =>
    subst hc'
    exact tight_append_push (t.delete hc he hd₀ f) hd hf hmax (Image.ptr_le _ _)
  | overwritten _ _ _ _ _ _ _ hz => exact t.setBlock hz

/-! ## The whole call -/

/-- How db_store aborts, and the image it leaves. In the last two cases the old record of
the key is already blank and on the free list. -/
inductive StoreAborts (I : Image) (chain : ℕ → List ℕ) (k d : CString) (flag : ℤ) :
    Fatal → Image → Prop where
  | data (hd : d.1.length + 1 < datlenMin ∨ d.1.length + 1 > datlenMax) :
      StoreAborts I chain k d flag badData I
  | poisoned (hp : Poisoned I (chain (dbHash k.1)) k) : StoreAborts I chain k d flag tooMany I
  | absentLong (hfound : Found I (chain (dbHash k.1)) k none) (hl : ¬ FitsIndex k I.datEnd d) :
      StoreAborts I chain k d flag longRecord (I.addBlock d)
  | absentFar (hfound : Found I (chain (dbHash k.1)) k none) (hd : d.1.length + 1 ≤ datlenMax)
      (hf : FitsIndex k I.datEnd d) (hmax : ptrMax < I.idxEnd) {v : ℕ} (hv : v ≤ ptrMax) :
      StoreAborts I chain k d flag farRecord (appended I d (newEntry k I.datEnd d hd hf) v hv)
  | presentLong {l₁ l₂ : List ℕ} {o : ℕ} {e : Entry} {d₀ : CString} {J : Image}
      (hc : chain (dbHash k.1) = l₁ ++ o :: l₂) (he : I.recs.lookup o = some e) (hk : e.key = k)
      (hd₀ : I.blocks.lookup e.datoff = some d₀)
      (hfound : Found I (chain (dbHash k.1)) k (some d₀)) (hflag : flag ≠ dbInsert)
      (hne : d.1.length ≠ d₀.1.length)
      (f : Freed I J (l₁.getLastD (slotOff (dbHash k.1))) o e d₀)
      (hl : ¬ FitsIndex k J.datEnd d) : StoreAborts I chain k d flag longRecord (J.addBlock d)
  | presentFar {l₁ l₂ : List ℕ} {o : ℕ} {e : Entry} {d₀ : CString} {J : Image}
      (hc : chain (dbHash k.1) = l₁ ++ o :: l₂) (he : I.recs.lookup o = some e) (hk : e.key = k)
      (hd₀ : I.blocks.lookup e.datoff = some d₀)
      (hfound : Found I (chain (dbHash k.1)) k (some d₀)) (hflag : flag ≠ dbInsert)
      (hne : d.1.length ≠ d₀.1.length)
      (f : Freed I J (l₁.getLastD (slotOff (dbHash k.1))) o e d₀)
      (hd : d.1.length + 1 ≤ datlenMax) (hf : FitsIndex k J.datEnd d) (hmax : ptrMax < J.idxEnd)
      {v : ℕ} (hv : v ≤ ptrMax) :
      StoreAborts I chain k d flag farRecord (appended J d (newEntry k J.datEnd d hd hf) v hv)

/-- The map and the tightness that a store which returns leaves behind. -/
def StoreDone (I : Image) (chain : ℕ → List ℕ) (free : List ℕ) (m' : KeyMap)
    (fs : Fd → List Byte) : Prop :=
  ∃ J chain' free', fs = J.files ∧ Stores J chain' free' m' ∧
    (Tight I chain free [] [] → Tight J chain' free' [] [])

theorem storeDone_same (s : Stores I chain free m) : StoreDone I chain free m I.files :=
  ⟨I, chain, free, rfl, s, id⟩

theorem Stored.done {J : Image} {chain' : ℕ → List ℕ} {free' : List ℕ}
    (h : Stored I chain free k d J chain' free') (s : Stores I chain free m) :
    StoreDone I chain free (Function.update m k (some d)) J.files :=
  ⟨J, chain', free', rfl, h.stores s, h.tight⟩

theorem wp_storeAbsent {Q : ℤ × DB → (Fd → List Byte) → Prop} (s : Stores I chain free m)
    (hf : ptrMax ≤ fuel) (habs : Absent I (chain (dbHash k.1)) k)
    (hd : d.1.length + 1 ≤ datlenMax) (hcf : db.chainoff = chainOff k.1)
    (hrefused : flag = dbReplace → ∀ db' : DB, Q (-1, db') I.files)
    (hstored : flag ≠ dbReplace → ∀ (db' : DB) J chain' free', Stored I chain free k d J chain' free' →
      Q (0, db') J.files)
    (hE : ∀ err J, StoreAborts I chain k d flag err J → E err J.files) :
    wp (storeAbsent fuel db k.1 d.1 flag) Q E I.files := by
  unfold storeAbsent
  apply wp_ite
  · exact fun hflag => wp_ret (hrefused hflag _)
  intro hflag
  apply wp_bind
  rw [hcf]
  refine wp_readptr (slot_hasPtr (dbHash_lt k.1)) ?_
  apply wp_bind
  refine wp_findfree s.freeList hf ?_ ?_
  · intro l₁ o l₂ e db' hfree hfirst he hkl hdl hio hdo hcf'
    obtain ⟨d₀, hd₀, hl₀⟩ := s.blocks.block o e he
    have hs : ∀ c, (e.datoff, c) ∈ I.blocks → blockSize c = blockSize d := by
      intro c hc
      obtain rfl : d₀ = c := Option.some.inj (hd₀.symm.trans (lookup_block.mpr hc))
      rw [blockSize, blockSize, ← hl₀, hdl]
    have hz : ∀ c, (o, c) ∈ I.recs → c.size = (withKey e k hkl.symm).size := by
      intro c hc
      obtain rfl : e = c := Option.some.inj (he.symm.trans (lookup_entry.mpr hc))
      exact (size_withKey e k hkl.symm).symm
    have hmem : o ∈ free := by simp [hfree]
    have ho : o ≤ ptrMax := linked_le_ptrMax s.freeList.linked hmem
    have hslot : (I.setPtr (l₁.getLastD freeOff) (I.ptr o) (I.ptr_le o)).ptr
        (slotOff (dbHash k.1)) = I.ptr (slotOff (dbHash k.1)) :=
      setPtr_ptr_other _ (slot_ne_free_pred (hfree ▸ s.freeList) (dbHash_lt k.1))
    apply wp_if_neg (by decide)
    apply wp_bind
    change wp (storeReuse db' k.1 d.1 (I.ptr (slotOff (dbHash k.1)))) _ _ _
    rw [← hslot]
    refine wp_storeReuse (I := I.setPtr (l₁.getLastD freeOff) (I.ptr o) (I.ptr_le o)) hkl.symm hs hz ho
      he hd₀ hdl hio hdo (hcf'.trans hcf) fun db₂ => ?_
    apply wp_ret
    exact hstored hflag _ _ _ _ (.reused habs hfree hfirst he hkl.symm hdl hs hz ho)
  · intro db' hnone hcf'
    apply wp_if_pos (by decide)
    apply wp_bind
    refine wp_storeAppend hd (hcf'.trans hcf) (fun hfit hmax db₂ => ?_) (fun hl => ?_)
      fun hfit hmax => ?_
    · exact wp_ret (hstored hflag _ _ _ _ (.appended habs hnone hd hfit hmax))
    · exact hE _ _ (.absentLong (.absent habs) hl)
    · exact hE _ _ (.absentFar (.absent habs) hd hfit hmax _)

theorem wp_storePresent {Q : ℤ × DB → (Fd → List Byte) → Prop} {l₁ l₂ : List ℕ} {o : ℕ}
    {e : Entry} (s : Stores I chain free m) (hd : d.1.length + 1 ≤ datlenMax)
    (hc : chain (dbHash k.1) = l₁ ++ o :: l₂) (habs : Absent I l₁ k)
    (he : I.recs.lookup o = some e) (hk : e.key = k) (hs : sep ∉ k.1) (hn : Names db I o e)
    (hp : db.ptroff = l₁.getLastD (slotOff (dbHash k.1)))
    (hcf : db.chainoff = chainOff k.1)
    (hrefused : flag = dbInsert → ∀ db' : DB, Q (1, db') I.files)
    (hstored : flag ≠ dbInsert → ∀ (db' : DB) J chain' free', Stored I chain free k d J chain' free' →
      Q (0, db') J.files)
    (hE : ∀ err J, StoreAborts I chain k d flag err J → E err J.files) :
    wp (storePresent db k.1 d.1 flag) Q E I.files := by
  obtain ⟨d₀, hd₀, hl₀, -⟩ := stores_get_found s (by simp [hc]) he hk
  have hfound : Found I (chain (dbHash k.1)) k (some d₀) := .present hc habs he hk hs hd₀
  unfold storePresent
  apply wp_ite
  · exact fun hflag => wp_ret (hrefused hflag _)
  intro hflag
  apply wp_ite
  · intro hne
    have hne : d.1.length ≠ d₀.1.length := by
      rw [hn.datlen, hl₀] at hne
      omega
    apply wp_bind
    refine wp_remove s (dbHash_lt k.1) hc he hn hp fun J db₁ d₁ hd₁ f hw _ hcf₁ => ?_
    obtain rfl : d₀ = d₁ := Option.some.inj (hd₀.symm.trans hd₁)
    apply wp_bind
    rw [hcf₁, hcf]
    refine wp_readptr (slot_hasPtr (dbHash_lt k.1)) ?_
    apply wp_bind
    refine wp_storeAppend hd (hcf₁.trans hcf) (fun hfit hmax db₂ => ?_) (fun hl => ?_)
      fun hfit hmax => ?_
    · apply wp_ret
      exact hstored hflag _ _ _ _ (.replaced hc habs he hk hs hd₀ hne f hw rfl hd hfit hmax)
    · exact hE _ _ (.presentLong hc he hk hd₀ hfound hflag hne f hl)
    · exact hE _ _ (.presentFar hc he hk hd₀ hfound hflag hne f hd hfit hmax _)
  · intro hlen
    have hlen : d.1.length = d₀.1.length := by
      rw [hn.datlen, hl₀] at hlen
      omega
    have hz : ∀ c, (e.datoff, c) ∈ I.blocks → blockSize c = blockSize d := by
      intro c hc'
      obtain rfl : d₀ = c := Option.some.inj (hd₀.symm.trans (lookup_block.mpr hc'))
      rw [blockSize, blockSize, hlen]
    apply wp_bind
    rw [hn.datoff]
    refine wp_writedat_set hd₀ hz ?_
    exact wp_ret (hstored hflag _ _ _ _ (.overwritten hc habs he hk hs hd₀ hlen hz))

/-- db_store on a well-formed database: refused, stored in one of the four ways, or an abort. -/
theorem wp_storeCases {Q : ℤ × DB → (Fd → List Byte) → Prop} (s : Stores I chain free m)
    (hf : ptrMax ≤ fuel)
    (hrefused : storeRc m k flag ≠ 0 → ∀ db' : DB, Q (storeRc m k flag, db') I.files)
    (hstored : storeRc m k flag = 0 → ∀ (db' : DB) J chain' free',
      Stored I chain free k d J chain' free' → Q (0, db') J.files)
    (hE : ∀ err J, StoreAborts I chain k d flag err J → E err J.files) :
    wp (dbStore fuel db k.1 d.1 flag) Q E I.files := by
  unfold dbStore
  apply wp_ite
  · rintro ⟨h₁, h₂, h₃⟩
    have hrc : storeRc m k flag = -1 := by simp [storeRc, ValidFlag, h₁, h₂, h₃]
    rw [hrc] at hrefused
    exact wp_ret (hrefused (by decide) _)
  intro hvalid
  have hvalid : ValidFlag flag := by
    unfold ValidFlag
    tauto
  apply wp_ite
  · exact fun hdat => wp_abort (hE _ _ (.data hdat))
  intro hdat
  have hd : d.1.length + 1 ≤ datlenMax := by omega
  apply wp_bind
  refine wp_findAndLock (s.chains _ (dbHash_lt _)) hf ?_ ?_ fun hp => hE _ _ (.poisoned hp)
  · intro l₁ o l₂ e db' hc habs he hk hs hn hp hcf
    obtain ⟨d₀, -, -, hm⟩ := stores_get_found s (by simp [hc]) he hk
    apply wp_bind
    apply wp_if_neg (by decide)
    refine wp_storePresent s hd hc habs he hk hs hn hp hcf (fun hflag db₂ => ?_)
      (fun hflag db₂ J chain' free' hst => ?_) hE
    · have hrc : storeRc m k flag = 1 := by
        rw [storeRc, if_neg (not_not_intro hvalid), hm]
        exact if_pos hflag
      rw [hrc] at hrefused
      exact wp_bind (wp_unLock (wp_ret (hrefused (by decide) _)))
    · have hrc : storeRc m k flag = 0 := by simp [storeRc, hvalid, hm, hflag]
      exact wp_bind (wp_unLock (wp_ret (hstored hrc _ J chain' free' hst)))
  · intro db' habs hcf
    have hm : m k = none := stores_get_absent s habs
    apply wp_bind
    apply wp_if_pos (by decide)
    refine wp_storeAbsent s hf habs hd hcf (fun hflag db₂ => ?_)
      (fun hflag db₂ J chain' free' hst => ?_) hE
    · have hrc : storeRc m k flag = -1 := by simp [storeRc, hm, hflag]
      rw [hrc] at hrefused
      exact wp_bind (wp_unLock (wp_ret (hrefused (by decide) _)))
    · have hrc : storeRc m k flag = 0 := by simp [storeRc, hvalid, hm, hflag]
      exact wp_bind (wp_unLock (wp_ret (hstored hrc _ J chain' free' hst)))

/-- db_store on a well-formed database: a plain map's answer and effect, or an abort. -/
theorem wp_store {Q : ℤ × DB → (Fd → List Byte) → Prop} (s : Stores I chain free m)
    (hf : ptrMax ≤ fuel)
    (hQ : ∀ db' fs, StoreDone I chain free (storeMap m k d flag) fs → Q (storeRc m k flag, db') fs)
    (hE : ∀ err J, StoreAborts I chain k d flag err J → E err J.files) :
    wp (dbStore fuel db k.1 d.1 flag) Q E I.files := by
  unfold storeMap at hQ
  refine wp_storeCases s hf (fun hrc db' => ?_) (fun hrc db' J chain' free' hst => ?_) hE
  · rw [if_neg hrc] at hQ
    exact hQ db' _ (storeDone_same s)
  · rw [if_pos hrc, hrc] at hQ
    exact hQ db' _ (hst.done s)

end DbStore
