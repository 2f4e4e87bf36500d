import LinuxProgramming.DbLists

/-! # What a database at rest satisfies

`Stores I chain free m` says that the image keeps the finite map `m`: every hash chain and
the free list are well formed and the chains hold exactly the pairs of `m`. Records on no
list and blocks that no record names are tolerated; `Tight` excludes them. -/
namespace DbInvariant

open CStrings ByteFiles SyscallPrograms LinkedChains DbLibrary DbImage DbLists Function

abbrev KeyMap := CString → Option CString

structure Stores (I : Image) (chain : ℕ → List ℕ) (free : List ℕ) (m : KeyMap) : Prop where
  chains : ∀ h, h < nhash → ChainOK I h (chain h)
  freeList : FreeOK I free
  blocks : BlocksOK I
  apart : ∀ h, h < nhash → ∀ o ∈ chain h, o ∉ free
  maps : ∀ k d, m k = some d ↔ Holds I (chain (dbHash k.1)) k d

def Loose (chain : ℕ → List ℕ) (free : List ℕ) (o : ℕ) : Prop :=
  o ∉ free ∧ ∀ h, h < nhash → o ∉ chain h

/-- Every record but those in `xs` is on a list, every block but those in `bs` is named. -/
structure Tight (I : Image) (chain : ℕ → List ℕ) (free xs bs : List ℕ) : Prop where
  listed : ∀ o e, I.recs.lookup o = some e → o ∉ xs → ¬ Loose chain free o
  named : ∀ b d, I.blocks.lookup b = some d → b ∉ bs →
    ∃ o e, I.recs.lookup o = some e ∧ e.datoff = b

variable {I J : Image} {chain : ℕ → List ℕ} {free : List ℕ} {m : KeyMap} {h o : ℕ}
  {k d : CString} {e : Entry}

theorem listed_of_chain (hh : h < nhash) (ho : o ∈ chain h) : ¬ Loose chain free o :=
  fun hl => hl.2 h hh ho

theorem listed_of_free (ho : o ∈ free) : ¬ Loose chain free o := fun hl => hl.1 ho

theorem Stores.entry (s : Stores I chain free m) (ho : ¬ Loose chain free o) :
    ∃ e, I.recs.lookup o = some e := by
  by_contra hn
  refine ho ⟨fun hf => ?_, fun h hh hc => ?_⟩
  · obtain ⟨e, -, he, -⟩ := s.freeList.entry o hf
    exact hn ⟨e, he⟩
  · obtain ⟨e, he, -⟩ := (s.chains h hh).entry o hc
    exact hn ⟨e, he⟩

theorem Stores.chain_disjoint (s : Stores I chain free m) {h' : ℕ} (hh : h < nhash)
    (hh' : h' < nhash) (ho : o ∈ chain h) (ho' : o ∈ chain h') : h = h' := by
  obtain ⟨e, he, rfl⟩ := (s.chains h hh).entry o ho
  obtain ⟨e', he', rfl⟩ := (s.chains h' hh').entry o ho'
  obtain rfl : e = e' := Option.some.inj (he.symm.trans he')
  rfl

theorem Stores.congr (s : Stores I chain free m) (hb : BlocksOK J)
    (hs : ∀ h, h < nhash → J.ptr (slotOff h) = I.ptr (slotOff h))
    (hf : J.ptr freeOff = I.ptr freeOff) (hm : ∀ o, ¬ Loose chain free o → SameRec I J o) :
    Stores J chain free m := by
  have hc : ∀ h, h < nhash → ∀ o ∈ chain h, SameRec I J o :=
    fun h hh o ho => hm o (listed_of_chain hh ho)
  refine ⟨fun h hh => ?_, ?_, hb, s.apart, fun k d => ?_⟩
  · exact chainOK_congr (s.chains h hh) (hs h hh) (fun o ho => (hc h hh o ho).ptr)
      fun o ho => (hc h hh o ho).entry
  · exact freeOK_congr s.freeList hf fun o ho => hm o (listed_of_free ho)
  · rw [s.maps]
    exact (holds_congr (fun o ho => (hc _ (dbHash_lt _) o ho).entry)
      fun o ho => (hc _ (dbHash_lt _) o ho).block).symm

theorem Stores.addBlock (s : Stores I chain free m) (d : CString) :
    Stores (I.addBlock d) chain free m := by
  refine s.congr (blocksOK_addBlock s.blocks d) (fun _ _ => rfl) rfl fun o ho => ⟨rfl, rfl, ?_⟩
  intro e he
  obtain ⟨c, hc, -⟩ := s.blocks.block o e he
  rw [addBlock_lookup, if_neg]
  intro hx
  rw [hx, lookup_datEnd] at hc
  cases hc

theorem Stores.idxEnd_loose (s : Stores I chain free m) : Loose chain free I.idxEnd := by
  by_contra hn
  obtain ⟨e, he⟩ := s.entry hn
  rw [lookup_idxEnd] at he
  cases he

theorem slotOff_lt (hh : h < nhash) : slotOff h < recordsOff := by
  simp only [slotOff, hashOff, ptrSz, recordsOff]
  omega

theorem recordsOff_le_idxEnd (I : Image) : recordsOff ≤ I.idxEnd := Nat.le_add_right _ _

/-- Appending an index record for a block nobody names disturbs no list. -/
theorem Stores.addEntry (s : Stores I chain free m) {v : ℕ} (hv : v ≤ ptrMax)
    (hd : I.blocks.lookup e.datoff = some d) (hl : e.datlen = d.1.length + 1)
    (hn : ∀ x a, I.recs.lookup x = some a → a.datoff ≠ e.datoff) :
    Stores (I.addEntry e v hv) chain free m := by
  have hend := recordsOff_le_idxEnd I
  refine s.congr (blocksOK_addEntry s.blocks hv hd hl hn) (fun h hh => ?_) ?_ fun o ho => ?_
  · have := slotOff_lt hh
    rw [addEntry_ptr, if_neg (by omega)]
  · have : freeOff < recordsOff := by decide
    rw [addEntry_ptr, if_neg (by omega)]
  · have hne : o ≠ I.idxEnd := by
      rintro rfl
      exact ho s.idxEnd_loose
    refine ⟨?_, ?_, fun _ _ => rfl⟩
    · rw [addEntry_ptr, if_neg hne]
    · rw [addEntry_lookup, if_neg hne]

theorem Stores.block_frame (s : Stores I chain free m) {x : ℕ} {a : Entry}
    (he : I.recs.lookup o = some e) (ha : I.recs.lookup x = some a) (hx : x ≠ o) :
    a.datoff ≠ e.datoff := fun h => hx (s.blocks.own x o a e ha he h)

theorem entry_ne_head {x : ℕ} (he : I.recs.lookup o = some e) (hx : x < recordsOff) : o ≠ x := by
  have := (entry_bounds he).1
  omega

theorem freeOff_lt : freeOff < recordsOff := by decide

theorem Stores.overwrite (s : Stores I chain free m) (hh : h < nhash) (ho : o ∈ chain h)
    (he : I.recs.lookup o = some e) (hd : I.blocks.lookup e.datoff = some d) {d' : CString}
    (hs : ∀ c, (e.datoff, c) ∈ I.blocks → blockSize c = blockSize d') :
    Stores (I.setBlock e.datoff d' hs) chain free (Function.update m e.key (some d')) := by
  have hnew : (I.setBlock e.datoff d' hs).blocks.lookup e.datoff = some d' := by
    rw [setBlock_lookup, if_pos rfl, hd]
    rfl
  have hold : ∀ x a, I.recs.lookup x = some a → x ≠ o →
      (I.setBlock e.datoff d' hs).blocks.lookup a.datoff = I.blocks.lookup a.datoff := by
    intro x a ha hx
    rw [setBlock_lookup, if_neg (s.block_frame he ha hx)]
  have hhash : dbHash e.key.1 = h := by
    obtain ⟨e', he', hh'⟩ := (s.chains h hh).entry o ho
    obtain rfl : e = e' := Option.some.inj (he.symm.trans he')
    exact hh'
  refine ⟨fun h' hh' => ?_, ?_, blocksOK_setBlock s.blocks hd hs, s.apart, fun k c => ?_⟩
  · exact chainOK_congr (s.chains h' hh') rfl (fun _ _ => rfl) fun _ _ => rfl
  · refine freeOK_congr s.freeList rfl fun x hx => ⟨rfl, rfl, fun a ha => hold x a ha ?_⟩
    rintro rfl
    exact s.apart h hh x ho hx
  · by_cases hk : k = e.key
    · subst hk
      rw [update_self]
      constructor
      · intro hc
        cases hc
        exact ⟨o, hhash ▸ ho, e, he, rfl, hnew⟩
      · rintro ⟨x, hx, a, ha, hka, hc⟩
        rw [hhash] at hx
        obtain rfl : x = o := (s.chains h hh).keys x hx o ho a e ha he hka
        obtain rfl : a = e := Option.some.inj (ha.symm.trans he)
        exact hnew.symm.trans hc
    · rw [update_of_ne hk, s.maps]
      have hne : ∀ x a, I.recs.lookup x = some a → a.key = k → x ≠ o := by
        rintro x a ha rfl rfl
        exact hk (congrArg Entry.key (Option.some.inj (ha.symm.trans he)))
      constructor
      · rintro ⟨x, hx, a, ha, hka, hc⟩
        exact ⟨x, hx, a, ha, hka, (hold x a ha (hne x a ha hka)).trans hc⟩
      · rintro ⟨x, hx, a, ha, hka, hc⟩
        exact ⟨x, hx, a, ha, hka, (hold x a ha (hne x a ha hka)).symm.trans hc⟩

/-- The pointer in front of a record on the free list is no chain's head. -/
theorem slot_ne_free_pred {l₁ l₂ : List ℕ} (hfl : FreeOK I (l₁ ++ l₂)) (hh : h < nhash) :
    slotOff h ≠ l₁.getLastD freeOff := by
  refine ne_getLastD (slotOff_ne_free h) fun hx => ?_
  obtain ⟨a, -, ha, -⟩ := hfl.entry _ (List.mem_append_left _ hx)
  exact entry_ne_head ha (slotOff_lt hh) rfl

theorem free_pred_hasPtr {l₁ l₂ : List ℕ} (hfl : FreeOK I (l₁ ++ l₂)) :
    I.HasPtr (l₁.getLastD freeOff) := by
  rcases List.mem_cons.mp (getLastD_mem l₁ freeOff) with hx | hx
  · rw [hx]
    exact free_hasPtr
  · obtain ⟨a, -, ha, -⟩ := hfl.entry _ (List.mem_append_left _ hx)
    exact hasPtr_entry ha

theorem Stores.take {l₁ l₂ : List ℕ} (s : Stores I chain (l₁ ++ o :: l₂) m) :
    Stores (I.setPtr (l₁.getLastD freeOff) (I.ptr o) (I.ptr_le o)) chain (l₁ ++ l₂) m ∧
      Loose chain (l₁ ++ l₂) o := by
  have hnd := linked_nodup s.freeList.linked
  have hmem : o ∈ l₁ ++ o :: l₂ := by simp
  have hchain : ∀ h', h' < nhash → ∀ x ∈ chain h', x ≠ l₁.getLastD freeOff := by
    intro h' hh' x hx
    obtain ⟨a, ha, -⟩ := (s.chains h' hh').entry x hx
    exact ne_getLastD (entry_ne_zero ha) fun hx' => s.apart h' hh' x hx (List.mem_append_left _ hx')
  refine ⟨⟨fun h' hh' => ?_, ?_, blocksOK_setPtr s.blocks _, ?_, ?_⟩, ?_, ?_⟩
  · refine chainOK_congr (s.chains h' hh') ?_ (fun x hx => ?_) fun _ _ => rfl
    · rw [setPtr_ptr, if_neg (slot_ne_free_pred s.freeList hh')]
    · rw [setPtr_ptr, if_neg (hchain h' hh' x hx)]
  · refine freeOK_remove s.freeList ?_ (fun x _ hx => ?_) (fun _ _ => rfl) fun _ _ _ _ => rfl
    · rw [setPtr_ptr, if_pos rfl]
    · rw [setPtr_ptr, if_neg hx]
  · exact fun h' hh' x hx hf => s.apart h' hh' x hx (mem_remove hnd hf).1
  · exact s.maps
  · exact fun hx => (mem_remove hnd hx).2 rfl
  · exact fun h' hh' hx => s.apart h' hh' o hx hmem

theorem Stores.fill (s : Stores I chain free m) (hl : Loose chain free o)
    (he : I.recs.lookup o = some e) (hd : I.blocks.lookup e.datoff = some d) {d' : CString}
    (hs : ∀ c, (e.datoff, c) ∈ I.blocks → blockSize c = blockSize d') (e' : Entry)
    (hoff : e'.datoff = e.datoff) (hlen : e'.datlen = e.datlen)
    (hz : ∀ c, (o, c) ∈ (I.setBlock e.datoff d' hs).recs → c.size = e'.size) {v : ℕ}
    (hv : v ≤ ptrMax) :
    Stores (((I.setBlock e.datoff d' hs).setEntry o e' hz).setPtr o v hv) chain free m := by
  have hb := blocksOK_setPtr (o := o)
    (blocksOK_setEntry (blocksOK_setBlock s.blocks hd hs) he hoff hlen hz) hv
  refine s.congr hb (fun h hh => ?_) ?_ fun x hx => ?_
  · rw [setPtr_ptr, if_neg (entry_ne_head he (slotOff_lt hh)).symm]
    rfl
  · rw [setPtr_ptr, if_neg (entry_ne_head he freeOff_lt).symm]
    rfl
  · have hxo : x ≠ o := by
      rintro rfl
      exact hx hl
    refine ⟨?_, ?_, fun a ha => ?_⟩
    · rw [setPtr_ptr, if_neg hxo]
      rfl
    · exact (setEntry_lookup _ o x e' hz).trans (if_neg hxo)
    · exact (setBlock_lookup I e.datoff a.datoff d' hs).trans (if_neg (s.block_frame he ha hxo))

theorem Stores.push (s : Stores I chain free m) (hl : Loose chain free o)
    (he : I.recs.lookup o = some e) (hd : I.blocks.lookup e.datoff = some d)
    (hn : I.ptr o = I.ptr (slotOff (dbHash e.key.1))) (hm : m e.key = none) (hv : o ≤ ptrMax) :
    Stores (I.setPtr (slotOff (dbHash e.key.1)) o hv)
      (Function.update chain (dbHash e.key.1) (o :: chain (dbHash e.key.1))) free
      (Function.update m e.key (some d)) := by
  have hlt := dbHash_lt e.key.1
  generalize hh : dbHash e.key.1 = h at *
  have habs : ∀ x ∈ chain h, ∀ a, I.recs.lookup x = some a → a.key ≠ e.key := by
    intro x hx a ha hk
    obtain ⟨c, hc, -⟩ := s.blocks.block x a ha
    have hsome := (s.maps e.key c).mpr ⟨x, by rwa [hh], a, ha, hk, hc⟩
    rw [hm] at hsome
    cases hsome
  have hptr : ∀ x, x ≠ slotOff h → (I.setPtr (slotOff h) o hv).ptr x = I.ptr x := by
    intro x hx
    rw [setPtr_ptr, if_neg hx]
  have hrec : ∀ h', h' < nhash → ∀ x ∈ chain h', x ≠ slotOff h := by
    intro h' hh' x hx
    obtain ⟨a, ha, -⟩ := (s.chains h' hh').entry x hx
    exact entry_ne_head ha (slotOff_lt hlt)
  refine ⟨fun h' hh' => ?_, ?_, blocksOK_setPtr s.blocks hv, fun h' hh' x hx => ?_, fun k c => ?_⟩
  · by_cases hne : h' = h
    · subst h'
      rw [update_self]
      refine chainOK_push (s.chains h hlt) ?_ ?_ (fun x hx => hptr x (hrec h hlt x hx))
        (fun _ _ => rfl) he hh habs
      · rw [setPtr_ptr, if_pos rfl]
      · rw [hptr o (entry_ne_head he (slotOff_lt hlt)), hn]
    · rw [update_of_ne hne]
      refine chainOK_congr (s.chains h' hh') (hptr _ ?_) (fun x hx => hptr x (hrec h' hh' x hx))
        fun _ _ => rfl
      exact fun heq => hne (slotOff_inj heq)
  · refine freeOK_congr s.freeList (hptr _ (slotOff_ne_free h).symm) fun x hx => ?_
    obtain ⟨a, -, ha, -⟩ := s.freeList.entry x hx
    exact ⟨hptr x (entry_ne_head ha (slotOff_lt hlt)), rfl, fun _ _ => rfl⟩
  · by_cases hne : h' = h
    · subst h'
      rw [update_self] at hx
      rcases List.mem_cons.mp hx with rfl | hx'
      · exact hl.1
      · exact s.apart h hlt x hx'
    · rw [update_of_ne hne] at hx
      exact s.apart h' hh' x hx
  · by_cases hk : k = e.key
    · subst hk
      rw [update_self, hh, update_self]
      constructor
      · intro hc
        cases hc
        exact ⟨o, List.mem_cons_self, e, he, rfl, hd⟩
      · rintro ⟨x, hx, a, ha, hka, hc⟩
        rcases List.mem_cons.mp hx with rfl | hx'
        · obtain rfl : a = e := Option.some.inj (ha.symm.trans he)
          exact hd.symm.trans hc
        · exact absurd hka (habs x hx' a ha)
    · rw [update_of_ne hk, s.maps]
      by_cases hkh : dbHash k.1 = h
      · rw [hkh, update_self]
        refine Iff.trans ?_ (holds_cons (I := I.setPtr (slotOff h) o hv) he).symm
        constructor
        · exact Or.inr
        · rintro (⟨hek, -⟩ | hx)
          · exact absurd hek.symm hk
          · exact hx
      · rw [update_of_ne hkh]
        exact Iff.rfl

/-- What _db_dodelete makes of the image: the record at `o`, behind `pred` on its chain, is
blank and first on the free list. -/
structure Freed (I J : Image) (pred o : ℕ) (e : Entry) (d : CString) : Prop where
  ptr_pred : J.ptr pred = I.ptr o
  ptr_rec : J.ptr o = I.ptr freeOff
  ptr_free : J.ptr freeOff = o
  ptr_rest : ∀ x, x ≠ pred → x ≠ o → x ≠ freeOff → J.ptr x = I.ptr x
  entry : J.recs.lookup o = some (blanked e)
  entry_rest : ∀ x, x ≠ o → J.recs.lookup x = I.recs.lookup x
  block : J.blocks.lookup e.datoff = some (blankString d.1.length)
  block_rest : ∀ b, b ≠ e.datoff → J.blocks.lookup b = I.blocks.lookup b

theorem freed_writes {pred : ℕ} (he : I.recs.lookup o = some e)
    (hd : I.blocks.lookup e.datoff = some d) (hpo : pred ≠ o) (hpf : pred ≠ freeOff)
    (ho : o ≤ ptrMax)
    (hs : ∀ c, (e.datoff, c) ∈ I.blocks → blockSize c = blockSize (blankString d.1.length))
    (hz : ∀ c, (o, c) ∈ I.recs → c.size = (blanked e).size) :
    Freed I ((((((I.setBlock e.datoff (blankString d.1.length) hs).setEntry o (blanked e) hz).setPtr
      o (I.ptr freeOff) (I.ptr_le _)).setPtr freeOff o ho).setPtr pred (I.ptr o) (I.ptr_le _)))
      pred o e d := by
  have hof := entry_ne_head he freeOff_lt
  constructor
  · rw [setPtr_ptr, if_pos rfl]
  · rw [setPtr_ptr, if_neg hpo.symm, setPtr_ptr, if_neg hof, setPtr_ptr, if_pos rfl]
  · rw [setPtr_ptr, if_neg hpf.symm, setPtr_ptr, if_pos rfl]
  · intro x h₁ h₂ h₃
    rw [setPtr_ptr, if_neg h₁, setPtr_ptr, if_neg h₃, setPtr_ptr, if_neg h₂]
    rfl
  · refine (setEntry_lookup _ o o (blanked e) hz).trans ?_
    rw [if_pos rfl]
    exact congrArg (Option.map _) he
  · exact fun x hx => (setEntry_lookup _ o x (blanked e) hz).trans (if_neg hx)
  · refine (setBlock_lookup I e.datoff e.datoff (blankString d.1.length) hs).trans ?_
    rw [if_pos rfl, hd]
    rfl
  · exact fun b hb => (setBlock_lookup I e.datoff b (blankString d.1.length) hs).trans (if_neg hb)

/-- The bytes that _db_dodelete writes. -/
structure FreedFiles (I J : Image) (pred o : ℕ) (e : Entry) (d : CString) : Prop where
  idx : J.idx = pwrite (pwrite (pwrite I.idx o ((blanked e).bytes (I.ptr freeOff)))
    freeOff (pointerText o)) pred (pointerText (I.ptr o))
  dat : J.dat = pwrite I.dat e.datoff ((blankString d.1.length).1 ++ [newline])
  idxEnd : J.idxEnd = I.idxEnd
  datEnd : J.datEnd = I.datEnd

theorem freed_files {pred : ℕ} (he : I.recs.lookup o = some e)
    (hd : I.blocks.lookup e.datoff = some d) (hpred : I.HasPtr pred) (ho : o ≤ ptrMax)
    (hs : ∀ c, (e.datoff, c) ∈ I.blocks → blockSize c = blockSize (blankString d.1.length))
    (hz : ∀ c, (o, c) ∈ I.recs → c.size = (blanked e).size) :
    FreedFiles I ((((((I.setBlock e.datoff (blankString d.1.length) hs).setEntry o (blanked e) hz).setPtr
      o (I.ptr freeOff) (I.ptr_le _)).setPtr freeOff o ho).setPtr pred (I.ptr o) (I.ptr_le _)))
      pred o e d := by
  constructor
  · have hentry := idx_setEntry (I := I.setBlock e.datoff (blankString d.1.length) hs) he hz
      (I.ptr_le freeOff)
    have hfree := (idx_setPtr free_hasPtr ho).trans (congrArg (pwrite · freeOff (pointerText o)) hentry)
    refine (idx_setPtr ?_ (I.ptr_le o)).trans (congrArg (pwrite · pred (pointerText (I.ptr o))) hfree)
    exact hasPtr_setEntry hz hpred
  · exact dat_setBlock hd hs
  · exact congrArg (recordsOff + ·) (extent_put hz)
  · exact extent_put hs

theorem Freed.blocksOK {pred : ℕ} (f : Freed I J pred o e d) (hb : BlocksOK I)
    (he : I.recs.lookup o = some e) (hd : I.blocks.lookup e.datoff = some d) : BlocksOK J := by
  have key : ∀ x a, J.recs.lookup x = some a →
      ∃ b, I.recs.lookup x = some b ∧ a.datoff = b.datoff ∧ a.datlen = b.datlen := by
    intro x a ha
    by_cases hx : x = o
    · subst x
      rw [f.entry] at ha
      cases ha
      exact ⟨e, he, rfl, rfl⟩
    · rw [f.entry_rest x hx] at ha
      exact ⟨a, ha, rfl, rfl⟩
  constructor
  · intro x a ha
    obtain ⟨b, hb', ho, hl⟩ := key x a ha
    obtain ⟨c, hc, hcl⟩ := hb.block x b hb'
    rw [ho, hl]
    by_cases hbe : b.datoff = e.datoff
    · rw [hbe, hd] at hc
      cases hc
      exact ⟨_, hbe ▸ f.block, by rw [length_blankString, hcl]⟩
    · exact ⟨c, (f.block_rest _ hbe).trans hc, hcl⟩
  · intro x y a b ha hb' hab
    obtain ⟨a', ha', hoa, -⟩ := key x a ha
    obtain ⟨b', hb', hob, -⟩ := key y b hb'
    exact hb.own x y a' b' ha' hb' (hoa.symm.trans (hab.trans hob))

section Delete

variable {l₁ l₂ : List ℕ}

/-- A record of another list keeps its pointer, its entry and its block. -/
theorem Freed.sameRec (f : Freed I J (l₁.getLastD (slotOff h)) o e d) (s : Stores I chain free m)
    (hh : h < nhash) (hc : chain h = l₁ ++ o :: l₂) (he : I.recs.lookup o = some e) {x : ℕ} {a : Entry}
    (ha : I.recs.lookup x = some a) (hx : x ∉ chain h) : SameRec I J x := by
  rw [hc] at hx
  have hxo : x ≠ o := by
    rintro rfl
    exact hx (by simp)
  have hpred : x ≠ l₁.getLastD (slotOff h) :=
    ne_getLastD (entry_ne_head ha (slotOff_lt hh)) fun hx' => hx (List.mem_append_left _ hx')
  exact ⟨f.ptr_rest x hpred hxo (entry_ne_zero ha), f.entry_rest x hxo,
    fun b hb => f.block_rest _ (s.block_frame he hb hxo)⟩

theorem Freed.chain_self (f : Freed I J (l₁.getLastD (slotOff h)) o e d) (hh : h < nhash)
    (hch : ChainOK I h (l₁ ++ o :: l₂)) (he : I.recs.lookup o = some e) : ChainOK J h (l₁ ++ l₂) := by
  have hnd := linked_nodup hch.linked
  refine chainOK_remove hch f.ptr_pred (fun x hx hxp => f.ptr_rest x hxp ?_ ?_) fun x hx => ?_
  · rintro rfl
    rcases List.mem_cons.mp hx with hx | hx
    · exact entry_ne_head he (slotOff_lt hh) hx
    · exact (mem_remove hnd hx).2 rfl
  · rcases List.mem_cons.mp hx with rfl | hx
    · exact slotOff_ne_free h
    · obtain ⟨a, ha, -⟩ := hch.entry x (mem_remove hnd hx).1
      exact entry_ne_zero ha
  · exact f.entry_rest x (mem_remove hnd hx).2

theorem Freed.chain_other (f : Freed I J (l₁.getLastD (slotOff h)) o e d) (s : Stores I chain free m)
    (hh : h < nhash) (hc : chain h = l₁ ++ o :: l₂) (he : I.recs.lookup o = some e) {h' : ℕ}
    (hh' : h' < nhash) (hne : h' ≠ h) : ChainOK J h' (chain h') := by
  have hrec : ∀ x ∈ chain h', SameRec I J x := by
    intro x hx
    obtain ⟨a, ha, -⟩ := (s.chains h' hh').entry x hx
    exact f.sameRec s hh hc he ha fun hx' => hne (s.chain_disjoint hh' hh hx hx')
  have hslot : slotOff h' ∉ l₁ := by
    intro hin
    obtain ⟨a, ha, -⟩ := (s.chains h hh).entry _ (hc ▸ List.mem_append_left _ hin)
    exact entry_ne_head ha (slotOff_lt hh') rfl
  have hptr : J.ptr (slotOff h') = I.ptr (slotOff h') :=
    f.ptr_rest _ (ne_getLastD (fun heq => hne (slotOff_inj heq)) hslot)
      (entry_ne_head he (slotOff_lt hh')).symm (slotOff_ne_free h')
  exact chainOK_congr (s.chains h' hh') hptr (fun x hx => (hrec x hx).ptr) fun x hx => (hrec x hx).entry

/-- The chains without the record hold the pairs but that of its key. -/
theorem Freed.maps (f : Freed I J (l₁.getLastD (slotOff h)) o e d) (s : Stores I chain free m)
    (hh : h < nhash) (hc : chain h = l₁ ++ o :: l₂) (he : I.recs.lookup o = some e) (c : CString) :
    Function.update m e.key none k = some c ↔
      Holds J (Function.update chain h (l₁ ++ l₂) (dbHash k.1)) k c := by
  have hch := s.chains h hh
  rw [hc] at hch
  have hnd := linked_nodup hch.linked
  have hblock : ∀ x a, I.recs.lookup x = some a → x ≠ o →
      J.blocks.lookup a.datoff = I.blocks.lookup a.datoff :=
    fun x a ha hx => f.block_rest _ (s.block_frame he ha hx)
  have hset : Function.update m e.key none k = some c ↔ m k = some c ∧ k ≠ e.key := by
    by_cases hk : k = e.key
    · simp [hk]
    · simp [hk]
  rw [hset, s.maps]
  by_cases hkh : dbHash k.1 = h
  · rw [hkh, update_self, hc, ← holds_remove hch he]
    exact (holds_congr (fun x hx => f.entry_rest x (mem_remove hnd hx).2)
      fun x hx a ha => hblock x a ha (mem_remove hnd hx).2).symm
  · have hhash : dbHash e.key.1 = h := by
      obtain ⟨e', he', hh'⟩ := hch.entry o (by simp)
      obtain rfl : e = e' := Option.some.inj (he.symm.trans he')
      exact hh'
    have hne : ∀ x ∈ chain (dbHash k.1), x ≠ o := by
      rintro x hx rfl
      exact hkh (s.chain_disjoint (dbHash_lt _) hh hx (by simp [hc]))
    rw [update_of_ne hkh, holds_congr (fun x hx => f.entry_rest x (hne x hx))
      fun x hx a ha => hblock x a ha (hne x hx)]
    refine and_iff_left fun hk => hkh ?_
    rw [hk, hhash]

theorem Stores.delete (s : Stores I chain free m) (hh : h < nhash)
    (hc : chain h = l₁ ++ o :: l₂) (he : I.recs.lookup o = some e)
    (hd : I.blocks.lookup e.datoff = some d) (f : Freed I J (l₁.getLastD (slotOff h)) o e d) :
    Stores J (Function.update chain h (l₁ ++ l₂)) (o :: free) (Function.update m e.key none) := by
  have hch := s.chains h hh
  rw [hc] at hch
  have hmem : o ∈ chain h := by simp [hc]
  refine ⟨fun h' hh' => ?_, ?_, f.blocksOK s.blocks he hd, fun h' hh' x hx => ?_,
    fun k c => f.maps s hh hc he c⟩
  · by_cases hne : h' = h
    · subst h'
      rw [update_self]
      exact f.chain_self hh hch he
    · rw [update_of_ne hne]
      exact f.chain_other s hh hc he hh' hne
  · refine freeOK_push s.freeList f.ptr_free f.ptr_rec (fun x hx => ?_) f.entry
      (isBlank_blankString _) f.block (isBlank_blankString _)
    obtain ⟨a, -, ha, -⟩ := s.freeList.entry x hx
    exact f.sameRec s hh hc he ha fun hx' => s.apart h hh x hx' hx
  · have hx' : x ∈ chain h' ∧ x ≠ o := by
      by_cases hne : h' = h
      · subst h'
        rw [update_self] at hx
        rw [hc]
        exact mem_remove (linked_nodup hch.linked) hx
      · rw [update_of_ne hne] at hx
        exact ⟨hx, fun hxo => hne (s.chain_disjoint hh' hh hx (hxo ▸ hmem))⟩
    intro hf
    rcases List.mem_cons.mp hf with rfl | hf
    · exact hx'.2 rfl
    · exact s.apart h' hh' x hx'.1 hf

end Delete

/-! ## Nothing is lost

Each change keeps every old record at its block, and adds at most the record or the block
that becomes an exception. -/

section Tight

variable {chain' : ℕ → List ℕ} {free' xs xs' bs bs' : List ℕ}

theorem Tight.change (t : Tight I chain free xs bs)
    (hrec : ∀ x a, J.recs.lookup x = some a → x ∉ xs' → ∃ b, I.recs.lookup x = some b)
    (hloose : ∀ x, x ∉ xs' → Loose chain' free' x → Loose chain free x ∧ x ∉ xs)
    (hblock : ∀ b c, J.blocks.lookup b = some c → b ∉ bs' → b ∉ bs ∧ ∃ c', I.blocks.lookup b = some c')
    (hkeep : ∀ x a, I.recs.lookup x = some a → ∃ a', J.recs.lookup x = some a' ∧ a'.datoff = a.datoff) :
    Tight J chain' free' xs' bs' := by
  constructor
  · intro x a ha hx hl
    obtain ⟨b, hb⟩ := hrec x a ha hx
    obtain ⟨hl', hx'⟩ := hloose x hx hl
    exact t.listed x b hb hx' hl'
  · intro b c hc hb
    obtain ⟨hb', c', hc'⟩ := hblock b c hc hb
    obtain ⟨x, a, ha, hab⟩ := t.named b c' hc' hb'
    obtain ⟨a', ha', hoff⟩ := hkeep x a ha
    exact ⟨x, a', ha', hoff.trans hab⟩

theorem Tight.setBlock (t : Tight I chain free xs bs) {b : ℕ} {d' : CString}
    (hs : ∀ c, (b, c) ∈ I.blocks → blockSize c = blockSize d') :
    Tight (I.setBlock b d' hs) chain free xs bs := by
  refine t.change (fun x a ha _ => ⟨a, ha⟩) (fun x hx hl => ⟨hl, hx⟩) (fun y c hc hy => ⟨hy, ?_⟩)
    fun x a ha => ⟨a, ha, rfl⟩
  rw [setBlock_lookup] at hc
  split at hc
  · rename_i hyb
    subst hyb
    cases hl : I.blocks.lookup y with
    | none =>
      rw [hl] at hc
      cases hc
    | some c' => exact ⟨c', rfl⟩
  · exact ⟨c, hc⟩

theorem Tight.setEntry (t : Tight I chain free xs bs) (e' : Entry) (he : I.recs.lookup o = some e)
    (hoff : e'.datoff = e.datoff) (hs : ∀ c, (o, c) ∈ I.recs → c.size = e'.size) :
    Tight (I.setEntry o e' hs) chain free xs bs := by
  refine t.change (fun x a ha _ => ?_) (fun x hx hl => ⟨hl, hx⟩) (fun y c hc hy => ⟨hy, c, hc⟩)
    fun x a ha => ?_
  · rw [setEntry_lookup] at ha
    split at ha
    · rename_i hx
      exact ⟨e, hx ▸ he⟩
    · exact ⟨a, ha⟩
  · by_cases hx : x = o
    · subst x
      obtain rfl : e = a := Option.some.inj (he.symm.trans ha)
      exact ⟨e', by rw [setEntry_lookup, if_pos rfl, he]; rfl, hoff⟩
    · exact ⟨a, by rw [setEntry_lookup, if_neg hx, ha], rfl⟩

theorem Tight.setPtr (t : Tight I chain free xs bs) {x v : ℕ} (hv : v ≤ ptrMax) :
    Tight (I.setPtr x v hv) chain free xs bs := ⟨t.listed, t.named⟩

theorem Tight.take {l₁ l₂ : List ℕ} (t : Tight I chain (l₁ ++ o :: l₂) xs bs) :
    Tight I chain (l₁ ++ l₂) (o :: xs) bs := by
  refine t.change (fun x a ha _ => ⟨a, ha⟩) (fun x hx hl => ?_) (fun b c hc hb => ⟨hb, c, hc⟩)
    fun x a ha => ⟨a, ha, rfl⟩
  simp only [List.mem_cons, not_or] at hx
  refine ⟨⟨fun hf => hl.1 ?_, hl.2⟩, hx.2⟩
  simpa [hx.1] using hf

theorem Tight.push (t : Tight I chain free (o :: xs) bs) (hh : h < nhash) :
    Tight I (Function.update chain h (o :: chain h)) free xs bs := by
  refine t.change (fun x a ha _ => ⟨a, ha⟩) (fun x hx hl => ?_) (fun b c hc hb => ⟨hb, c, hc⟩)
    fun x a ha => ⟨a, ha, rfl⟩
  have hself := hl.2 h hh
  rw [update_self] at hself
  have hxo : x ≠ o := by
    rintro rfl
    exact hself List.mem_cons_self
  refine ⟨⟨hl.1, fun h' hh' hc => ?_⟩, by simp [hxo, hx]⟩
  by_cases hne : h' = h
  · subst h'
    exact hself (List.mem_cons_of_mem o hc)
  · refine hl.2 h' hh' ?_
    rwa [update_of_ne hne]

theorem Tight.addBlock (t : Tight I chain free xs bs) (d : CString) :
    Tight (I.addBlock d) chain free xs (I.datEnd :: bs) := by
  refine t.change (fun x a ha _ => ⟨a, ha⟩) (fun x hx hl => ⟨hl, hx⟩) (fun b c hc hb => ?_)
    fun x a ha => ⟨a, ha, rfl⟩
  simp only [List.mem_cons, not_or] at hb
  rw [addBlock_lookup, if_neg hb.1] at hc
  exact ⟨hb.2, c, hc⟩

theorem Tight.addEntry (t : Tight I chain free xs (e.datoff :: bs)) {v : ℕ} (hv : v ≤ ptrMax) :
    Tight (I.addEntry e v hv) chain free (I.idxEnd :: xs) bs := by
  have hnew : (I.addEntry e v hv).recs.lookup I.idxEnd = some e := by
    rw [addEntry_lookup, if_pos rfl]
  have hold : ∀ x a, I.recs.lookup x = some a → (I.addEntry e v hv).recs.lookup x = some a := by
    intro x a ha
    rw [addEntry_lookup, if_neg, ha]
    rintro rfl
    rw [lookup_idxEnd] at ha
    cases ha
  constructor
  · intro x a ha hx hl
    simp only [List.mem_cons, not_or] at hx
    rw [addEntry_lookup, if_neg hx.1] at ha
    exact t.listed x a ha hx.2 hl
  · intro b c hc hb
    by_cases hbe : b = e.datoff
    · exact ⟨I.idxEnd, e, hnew, hbe.symm⟩
    · obtain ⟨x, a, ha, hab⟩ := t.named b c hc (by simp [hbe, hb])
      exact ⟨x, a, hold x a ha, hab⟩

theorem Tight.delete {l₁ l₂ : List ℕ} (t : Tight I chain free xs bs)
    (hc : chain h = l₁ ++ o :: l₂) (he : I.recs.lookup o = some e)
    (hd : I.blocks.lookup e.datoff = some d) {pred : ℕ} (f : Freed I J pred o e d) :
    Tight J (Function.update chain h (l₁ ++ l₂)) (o :: free) xs bs := by
  refine t.change (fun x a ha _ => ?_) (fun x hx hl => ⟨⟨?_, fun h' hh' hin => ?_⟩, hx⟩)
    (fun b c hc hb => ⟨hb, ?_⟩) fun x a ha => ?_
  · by_cases hx : x = o
    · exact ⟨e, hx ▸ he⟩
    · exact ⟨a, (f.entry_rest x hx).symm.trans ha⟩
  · exact fun hf => hl.1 (List.mem_cons_of_mem o hf)
  · have hxo : x ≠ o := by
      rintro rfl
      exact hl.1 List.mem_cons_self
    refine hl.2 h' hh' ?_
    by_cases hne : h' = h
    · subst h'
      rw [update_self]
      rw [hc] at hin
      simpa [hxo] using hin
    · rwa [update_of_ne hne]
  · by_cases hbe : b = e.datoff
    · exact ⟨d, hbe ▸ hd⟩
    · exact ⟨c, (f.block_rest b hbe).symm.trans hc⟩
  · by_cases hx : x = o
    · subst x
      obtain rfl : e = a := Option.some.inj (he.symm.trans ha)
      exact ⟨blanked e, f.entry, rfl⟩
    · exact ⟨a, (f.entry_rest x hx).trans ha, rfl⟩

end Tight

end DbInvariant
