import LinuxProgramming.DbImage
import LinuxProgramming.LinkedChains
import Mathlib.Data.List.Perm.Subperm

/-! # Hash chains, the free list and the blocks of an image

Every fact about a list depends only on the cells of its own members, so it survives any
change of other cells. The lemmas that link and unlink a record ask about those cells
alone. -/
namespace DbLists

open CStrings ByteFiles SyscallPrograms LinkedChains DbLibrary DbImage

def slotOff (h : ℕ) : ℕ := h * ptrSz + hashOff

theorem slotOff_eq (h : ℕ) : slotOff h = (h + 1) * ptrSz := by
  simp only [slotOff, hashOff, Nat.succ_mul]

theorem slotOff_inj {h h' : ℕ} (he : slotOff h = slotOff h') : h = h' := by
  simp only [slotOff, hashOff, ptrSz] at he
  omega

theorem slotOff_ne_free (h : ℕ) : slotOff h ≠ freeOff := by
  simp only [slotOff, hashOff, ptrSz, freeOff]
  omega

theorem dbHash_lt (key : List Byte) : dbHash key < nhash := Nat.mod_lt _ (by decide)

/-! ## What each operation on an image leaves alone -/

section Effects

variable (I : Image) (o x v : ℕ)

theorem setPtr_ptr (hv : v ≤ ptrMax) :
    (I.setPtr o v hv).ptr x = if x = o then v else I.ptr x := by
  simp only [Image.setPtr, Function.update_apply]

theorem addEntry_ptr (e : Entry) (hv : v ≤ ptrMax) :
    (I.addEntry e v hv).ptr x = if x = I.idxEnd then v else I.ptr x := by
  simp only [Image.addEntry, Function.update_apply]

theorem setEntry_lookup (e : Entry) (he : ∀ c, (o, c) ∈ I.recs → c.size = e.size) :
    (I.setEntry o e he).recs.lookup x =
      if x = o then (I.recs.lookup o).map fun _ => e else I.recs.lookup x :=
  lookup_put o x e I.recs

theorem addEntry_lookup (e : Entry) (hv : v ≤ ptrMax) :
    (I.addEntry e v hv).recs.lookup x = if x = I.idxEnd then some e else I.recs.lookup x := by
  have h := lookup_snoc I.recs I.idxEnd x e
  by_cases hx : x = I.idxEnd
  · subst x
    rw [lookup_idxEnd] at h
    simpa [Image.addEntry] using h
  · simpa [Image.addEntry, hx] using h

theorem setBlock_lookup (d : CString)
    (hd : ∀ c, (o, c) ∈ I.blocks → blockSize c = blockSize d) :
    (I.setBlock o d hd).blocks.lookup x =
      if x = o then (I.blocks.lookup o).map fun _ => d else I.blocks.lookup x :=
  lookup_put o x d I.blocks

theorem addBlock_lookup (d : CString) :
    (I.addBlock d).blocks.lookup x = if x = I.datEnd then some d else I.blocks.lookup x := by
  have h := lookup_snoc I.blocks I.datEnd x d
  by_cases hx : x = I.datEnd
  · subst x
    rw [lookup_datEnd] at h
    simpa [Image.addBlock] using h
  · simpa [Image.addBlock, hx] using h

variable {I o v} in
theorem setPtr_ptr_self (hv : v ≤ ptrMax) : (I.setPtr o v hv).ptr o = v := by
  rw [setPtr_ptr, if_pos rfl]

variable {I o x v} in
theorem setPtr_ptr_other (hv : v ≤ ptrMax) (hx : x ≠ o) : (I.setPtr o v hv).ptr x = I.ptr x := by
  rw [setPtr_ptr, if_neg hx]

variable {I o} in
theorem setEntry_lookup_self {e e' : Entry} (h : I.recs.lookup o = some e)
    (he : ∀ c, (o, c) ∈ I.recs → c.size = e'.size) :
    (I.setEntry o e' he).recs.lookup o = some e' := by
  rw [setEntry_lookup, if_pos rfl, h]
  rfl

variable {I o} in
theorem setBlock_lookup_self {d d' : CString} (h : I.blocks.lookup o = some d)
    (hd : ∀ c, (o, c) ∈ I.blocks → blockSize c = blockSize d') :
    (I.setBlock o d' hd).blocks.lookup o = some d' := by
  rw [setBlock_lookup, if_pos rfl, h]
  rfl

variable {I o x} in
theorem hasPtr_setEntry {e : Entry} (he : ∀ c, (o, c) ∈ I.recs → c.size = e.size)
    (h : I.HasPtr x) : (I.setEntry o e he).HasPtr x := by
  rcases h with h | ⟨a, ha⟩
  · exact Or.inl h
  · by_cases hx : x = o
    · subst x
      exact Or.inr ⟨e, by rw [setEntry_lookup, if_pos rfl, ha]; rfl⟩
    · exact Or.inr ⟨a, by rw [setEntry_lookup, if_neg hx, ha]⟩

end Effects

/-! ## Lists -/

/-- The hash chain `h`, as the offsets of its records. -/
structure ChainOK (I : Image) (h : ℕ) (os : List ℕ) : Prop where
  linked : Linked I.ptr (slotOff h) os
  entry : ∀ o ∈ os, ∃ e, I.recs.lookup o = some e ∧ dbHash e.key.1 = h
  keys : ∀ o ∈ os, ∀ o' ∈ os, ∀ e e', I.recs.lookup o = some e → I.recs.lookup o' = some e' →
    e.key = e'.key → o = o'

/-- The free list: every key and every data record on it is all blanks. -/
structure FreeOK (I : Image) (os : List ℕ) : Prop where
  linked : Linked I.ptr freeOff os
  entry : ∀ o ∈ os, ∃ e d, I.recs.lookup o = some e ∧ isBlank e.key.1 = true ∧
    I.blocks.lookup e.datoff = some d ∧ isBlank d.1 = true

/-- Every index record names a block of its own. -/
structure BlocksOK (I : Image) : Prop where
  block : ∀ o e, I.recs.lookup o = some e →
    ∃ d, I.blocks.lookup e.datoff = some d ∧ e.datlen = d.1.length + 1
  own : ∀ o o' e e', I.recs.lookup o = some e → I.recs.lookup o' = some e' →
    e.datoff = e'.datoff → o = o'

/-- A record of the list holds the key `k` with the data `d`. -/
def Holds (I : Image) (os : List ℕ) (k d : CString) : Prop :=
  ∃ o ∈ os, ∃ e, I.recs.lookup o = some e ∧ e.key = k ∧ I.blocks.lookup e.datoff = some d

structure SameRec (I J : Image) (o : ℕ) : Prop where
  ptr : J.ptr o = I.ptr o
  entry : J.recs.lookup o = I.recs.lookup o
  block : ∀ e, I.recs.lookup o = some e → J.blocks.lookup e.datoff = I.blocks.lookup e.datoff

variable {I J : Image} {h o : ℕ} {os l₁ l₂ : List ℕ} {k d : CString}

theorem SameRec.refl (I : Image) (o : ℕ) : SameRec I I o := ⟨rfl, rfl, fun _ _ => rfl⟩

theorem SameRec.trans {K : Image} (h₁ : SameRec I J o) (h₂ : SameRec J K o) : SameRec I K o := by
  refine ⟨h₂.ptr.trans h₁.ptr, h₂.entry.trans h₁.entry, fun e he => ?_⟩
  exact (h₂.block e (h₁.entry.trans he)).trans (h₁.block e he)

theorem chainOK_congr (hc : ChainOK I h os) (hs : J.ptr (slotOff h) = I.ptr (slotOff h))
    (hp : ∀ o ∈ os, J.ptr o = I.ptr o) (he : ∀ o ∈ os, J.recs.lookup o = I.recs.lookup o) :
    ChainOK J h os := by
  refine ⟨linked_congr (fun x hx => ?_) hc.linked, fun o ho => ?_, fun o ho o' ho' => ?_⟩
  · rcases List.mem_cons.mp hx with rfl | hx
    · exact hs
    · exact hp x hx
  · rw [he o ho]
    exact hc.entry o ho
  · rw [he o ho, he o' ho']
    exact hc.keys o ho o' ho'

theorem freeOK_congr (hf : FreeOK I os) (hs : J.ptr freeOff = I.ptr freeOff)
    (hr : ∀ o ∈ os, SameRec I J o) : FreeOK J os := by
  refine ⟨linked_congr (fun x hx => ?_) hf.linked, fun o ho => ?_⟩
  · rcases List.mem_cons.mp hx with rfl | hx
    · exact hs
    · exact (hr x hx).ptr
  · obtain ⟨e, d, he, hb, hd, hdb⟩ := hf.entry o ho
    exact ⟨e, d, (hr o ho).entry.trans he, hb, ((hr o ho).block e he).trans hd, hdb⟩

theorem holds_congr (he : ∀ o ∈ os, J.recs.lookup o = I.recs.lookup o)
    (hb : ∀ o ∈ os, ∀ e, I.recs.lookup o = some e →
      J.blocks.lookup e.datoff = I.blocks.lookup e.datoff) :
    Holds J os k d ↔ Holds I os k d := by
  constructor
  · rintro ⟨o, ho, e, hl, hk, hd⟩
    rw [he o ho] at hl
    exact ⟨o, ho, e, hl, hk, (hb o ho e hl).symm.trans hd⟩
  · rintro ⟨o, ho, e, hl, hk, hd⟩
    exact ⟨o, ho, e, (he o ho).trans hl, hk, (hb o ho e hl).trans hd⟩

theorem chain_hasPtr (hc : ChainOK I h os) (ho : o ∈ os) : I.HasPtr o := by
  obtain ⟨e, he, -⟩ := hc.entry o ho
  exact hasPtr_entry he

theorem slot_hasPtr (hh : h < nhash) : I.HasPtr (slotOff h) := by
  rw [slotOff_eq]
  exact hasPtr_slot hh

theorem free_hasPtr : I.HasPtr freeOff := by
  have := hasPtr_slot (I := I) (Nat.zero_le nhash)
  rwa [Nat.zero_mul] at this

theorem linked_le_ptrMax {s : ℕ} (hl : Linked I.ptr s os) (ho : o ∈ os) : o ≤ ptrMax := by
  induction os generalizing s with
  | nil => cases ho
  | cons a os ih =>
    rcases List.mem_cons.mp ho with rfl | ho
    · rw [← hl.1]
      exact I.ptr_le s
    · exact ih hl.2.2 ho

theorem length_le_of_nodup {l : List ℕ} {n : ℕ} (hl : l.Nodup) (hn : ∀ x ∈ l, x ≠ 0 ∧ x ≤ n) :
    l.length ≤ n := by
  have hsub : l ⊆ (List.range n).map (· + 1) := by
    intro x hx
    obtain ⟨h₁, h₂⟩ := hn x hx
    refine List.mem_map.mpr ⟨x - 1, List.mem_range.mpr ?_, ?_⟩
    · omega
    · omega
  have := (List.subperm_of_subset hl hsub).length_le
  rwa [List.length_map, List.length_range] at this

theorem linked_length_le {s : ℕ} (hl : Linked I.ptr s os) : os.length ≤ ptrMax :=
  length_le_of_nodup (linked_nodup hl) fun _ hx => ⟨linked_ne_zero hl hx, linked_le_ptrMax hl hx⟩

/-! ## Linking and unlinking -/

theorem chainOK_remove (hc : ChainOK I h (l₁ ++ o :: l₂))
    (hp : J.ptr (l₁.getLastD (slotOff h)) = I.ptr o)
    (hrest : ∀ x ∈ slotOff h :: (l₁ ++ l₂), x ≠ l₁.getLastD (slotOff h) → J.ptr x = I.ptr x)
    (he : ∀ x ∈ l₁ ++ l₂, J.recs.lookup x = I.recs.lookup x) : ChainOK J h (l₁ ++ l₂) := by
  have hsub : ∀ x ∈ l₁ ++ l₂, x ∈ l₁ ++ o :: l₂ := by
    intro x hx
    rcases List.mem_append.mp hx with hx | hx
    · exact List.mem_append_left _ hx
    · exact List.mem_append_right _ (List.mem_cons_of_mem o hx)
  refine ⟨linked_remove hc.linked hp hrest, fun x hx => ?_, fun x hx y hy => ?_⟩
  · rw [he x hx]
    exact hc.entry x (hsub x hx)
  · rw [he x hx, he y hy]
    exact hc.keys x (hsub x hx) y (hsub y hy)

theorem chainOK_push {e : Entry} (hc : ChainOK I h os) (hs : J.ptr (slotOff h) = o)
    (hn : J.ptr o = I.ptr (slotOff h)) (hp : ∀ x ∈ os, J.ptr x = I.ptr x)
    (he : ∀ x ∈ os, J.recs.lookup x = I.recs.lookup x) (ho : J.recs.lookup o = some e)
    (hh : dbHash e.key.1 = h)
    (hk : ∀ x ∈ os, ∀ e', I.recs.lookup x = some e' → e'.key ≠ e.key) : ChainOK J h (o :: os) := by
  refine ⟨linked_push hc.linked (entry_ne_zero ho) hs hn hp, fun x hx => ?_, ?_⟩
  · rcases List.mem_cons.mp hx with rfl | hx
    · exact ⟨e, ho, hh⟩
    · rw [he x hx]
      exact hc.entry x hx
  · intro x hx y hy a b ha hb hab
    rcases List.mem_cons.mp hx with hxo | hxs
    · rcases List.mem_cons.mp hy with hyo | hys
      · exact hxo.trans hyo.symm
      · rw [he y hys] at hb
        obtain rfl : e = a := Option.some.inj (ho.symm.trans (hxo ▸ ha))
        exact absurd hab.symm (hk y hys b hb)
    · rw [he x hxs] at ha
      rcases List.mem_cons.mp hy with hyo | hys
      · obtain rfl : e = b := Option.some.inj (ho.symm.trans (hyo ▸ hb))
        exact absurd hab (hk x hxs a ha)
      · rw [he y hys] at hb
        exact hc.keys x hxs y hys a b ha hb hab

theorem freeOK_remove (hf : FreeOK I (l₁ ++ o :: l₂)) (hp : J.ptr (l₁.getLastD freeOff) = I.ptr o)
    (hrest : ∀ x ∈ freeOff :: (l₁ ++ l₂), x ≠ l₁.getLastD freeOff → J.ptr x = I.ptr x)
    (he : ∀ x ∈ l₁ ++ l₂, J.recs.lookup x = I.recs.lookup x)
    (hb : ∀ x ∈ l₁ ++ l₂, ∀ e, I.recs.lookup x = some e →
      J.blocks.lookup e.datoff = I.blocks.lookup e.datoff) : FreeOK J (l₁ ++ l₂) := by
  refine ⟨linked_remove hf.linked hp hrest, fun x hx => ?_⟩
  have hx' : x ∈ l₁ ++ o :: l₂ := by
    rcases List.mem_append.mp hx with hx | hx
    · exact List.mem_append_left _ hx
    · exact List.mem_append_right _ (List.mem_cons_of_mem o hx)
  obtain ⟨e, d, h₁, h₂, h₃, h₄⟩ := hf.entry x hx'
  exact ⟨e, d, (he x hx).trans h₁, h₂, (hb x hx e h₁).trans h₃, h₄⟩

theorem freeOK_push {e : Entry} (hf : FreeOK I os) (hs : J.ptr freeOff = o)
    (hn : J.ptr o = I.ptr freeOff) (hr : ∀ x ∈ os, SameRec I J x)
    (ho : J.recs.lookup o = some e) (hk : isBlank e.key.1 = true)
    (hd : J.blocks.lookup e.datoff = some d) (hb : isBlank d.1 = true) : FreeOK J (o :: os) := by
  refine ⟨linked_push hf.linked (entry_ne_zero ho) hs hn fun x hx => (hr x hx).ptr, fun x hx => ?_⟩
  rcases List.mem_cons.mp hx with rfl | hx
  · exact ⟨e, d, ho, hk, hd, hb⟩
  · obtain ⟨e', d', h₁, h₂, h₃, h₄⟩ := hf.entry x hx
    exact ⟨e', d', (hr x hx).entry.trans h₁, h₂, ((hr x hx).block e' h₁).trans h₃, h₄⟩

/-- Taking the record of `e` off its chain takes the key of `e` away. -/
theorem holds_remove {e : Entry} (hc : ChainOK I h (l₁ ++ o :: l₂)) (ho : I.recs.lookup o = some e) :
    Holds I (l₁ ++ l₂) k d ↔ Holds I (l₁ ++ o :: l₂) k d ∧ k ≠ e.key := by
  have hnd := linked_nodup hc.linked
  constructor
  · rintro ⟨x, hx, a, ha, rfl, hd⟩
    obtain ⟨hx, hne⟩ := mem_remove hnd hx
    exact ⟨⟨x, hx, a, ha, rfl, hd⟩, fun he => hne (hc.keys x hx o (by simp) a e ha ho he)⟩
  · rintro ⟨⟨x, hx, a, ha, rfl, hd⟩, hne⟩
    refine ⟨x, ?_, a, ha, rfl, hd⟩
    have hxo : x ≠ o := by
      rintro rfl
      exact hne (congrArg Entry.key (Option.some.inj (ha.symm.trans ho)))
    simpa [hxo] using hx

theorem holds_cons {e : Entry} (ho : I.recs.lookup o = some e) :
    Holds I (o :: os) k d ↔ (e.key = k ∧ I.blocks.lookup e.datoff = some d) ∨ Holds I os k d := by
  constructor
  · rintro ⟨x, hx, a, ha, hk, hd⟩
    rcases List.mem_cons.mp hx with rfl | hx
    · obtain rfl : e = a := Option.some.inj (ho.symm.trans ha)
      exact Or.inl ⟨hk, hd⟩
    · exact Or.inr ⟨x, hx, a, ha, hk, hd⟩
  · rintro (⟨hk, hd⟩ | ⟨x, hx, a, ha, hk, hd⟩)
    · exact ⟨o, List.mem_cons_self, e, ho, hk, hd⟩
    · exact ⟨x, List.mem_cons_of_mem o hx, a, ha, hk, hd⟩

/-- A record with a new key in front of a list whose records stay as they are. -/
theorem holds_push {e : Entry} {d' : CString} (ho : J.recs.lookup o = some e)
    (hd : J.blocks.lookup e.datoff = some d') (hr : ∀ x ∈ os, SameRec I J x)
    (hk : ∀ x ∈ os, ∀ a, I.recs.lookup x = some a → a.key ≠ e.key) :
    Holds J (o :: os) k d ↔ (k = e.key ∧ d = d') ∨ (k ≠ e.key ∧ Holds I os k d) := by
  rw [holds_cons ho, holds_congr (fun x hx => (hr x hx).entry) fun x hx => (hr x hx).block, hd]
  constructor
  · rintro (⟨rfl, hdd⟩ | hh)
    · exact Or.inl ⟨rfl, (Option.some.inj hdd).symm⟩
    · refine Or.inr ⟨?_, hh⟩
      rintro rfl
      obtain ⟨x, hx, a, ha, hka, -⟩ := hh
      exact hk x hx a ha hka
  · rintro (⟨rfl, rfl⟩ | ⟨-, hh⟩)
    · exact Or.inl ⟨rfl, rfl⟩
    · exact Or.inr hh

theorem holds_overwrite {e : Entry} {d' : CString} (hc : ChainOK I h os) (ho : o ∈ os)
    (he : I.recs.lookup o = some e) (hrec : ∀ x ∈ os, J.recs.lookup x = I.recs.lookup x)
    (hnew : J.blocks.lookup e.datoff = some d')
    (hold : ∀ x ∈ os, x ≠ o → ∀ a, I.recs.lookup x = some a →
      J.blocks.lookup a.datoff = I.blocks.lookup a.datoff) :
    Holds J os k d ↔ (k = e.key ∧ d = d') ∨ (k ≠ e.key ∧ Holds I os k d) := by
  have other : ∀ x a, I.recs.lookup x = some a → a.key ≠ e.key → x ≠ o := by
    rintro x a ha hka rfl
    exact hka (congrArg Entry.key (Option.some.inj (ha.symm.trans he)))
  constructor
  · rintro ⟨x, hx, a, ha, rfl, hd⟩
    rw [hrec x hx] at ha
    by_cases hka : a.key = e.key
    · obtain rfl : x = o := hc.keys x hx o ho a e ha he hka
      obtain rfl : a = e := Option.some.inj (ha.symm.trans he)
      exact Or.inl ⟨rfl, Option.some.inj (hd.symm.trans hnew)⟩
    · rw [hold x hx (other x a ha hka) a ha] at hd
      exact Or.inr ⟨hka, x, hx, a, ha, rfl, hd⟩
  · rintro (⟨rfl, rfl⟩ | ⟨hne, x, hx, a, ha, rfl, hd⟩)
    · exact ⟨o, ho, e, (hrec o ho).trans he, rfl, hnew⟩
    · exact ⟨x, hx, a, (hrec x hx).trans ha, rfl, (hold x hx (other x a ha hne) a ha).trans hd⟩

theorem holds_unique {d' : CString} (hc : ChainOK I h os) (h₁ : Holds I os k d)
    (h₂ : Holds I os k d') : d = d' := by
  obtain ⟨x, hx, a, ha, hka, hd⟩ := h₁
  obtain ⟨y, hy, b, hb, hkb, hd'⟩ := h₂
  obtain rfl : x = y := hc.keys x hx y hy a b ha hb (hka.trans hkb.symm)
  obtain rfl : a = b := Option.some.inj (ha.symm.trans hb)
  exact Option.some.inj (hd.symm.trans hd')

/-! ## Blocks -/

section Blocks

variable (hb : BlocksOK I)
include hb

theorem blocksOK_setPtr {v : ℕ} (hv : v ≤ ptrMax) : BlocksOK (I.setPtr o v hv) :=
  ⟨hb.block, hb.own⟩

theorem blocksOK_setBlock {d' : CString} (hd : I.blocks.lookup o = some d)
    (hs : ∀ c, (o, c) ∈ I.blocks → blockSize c = blockSize d') : BlocksOK (I.setBlock o d' hs) := by
  refine ⟨fun x e he => ?_, hb.own⟩
  obtain ⟨c, hc, hl⟩ := hb.block x e he
  rw [setBlock_lookup]
  split
  · rename_i hx
    rw [hx] at hc
    have := hs c (lookup_block.mp hc)
    simp only [blockSize] at this
    exact ⟨d', by rw [hd]; rfl, by omega⟩
  · exact ⟨c, hc, hl⟩

theorem blocksOK_setEntry {e e' : Entry} (he : I.recs.lookup o = some e)
    (hoff : e'.datoff = e.datoff) (hlen : e'.datlen = e.datlen)
    (hs : ∀ c, (o, c) ∈ I.recs → c.size = e'.size) : BlocksOK (I.setEntry o e' hs) := by
  have key : ∀ x a, (I.setEntry o e' hs).recs.lookup x = some a →
      ∃ b, I.recs.lookup x = some b ∧ a.datoff = b.datoff ∧ a.datlen = b.datlen := by
    intro x a ha
    rw [setEntry_lookup] at ha
    split at ha
    · rename_i hx
      rw [he] at ha
      obtain rfl : e' = a := Option.some.inj ha
      exact ⟨e, by rw [hx, he], hoff, hlen⟩
    · exact ⟨a, ha, rfl, rfl⟩
  constructor
  · intro x a ha
    obtain ⟨b, hb', ho, hl⟩ := key x a ha
    rw [ho, hl]
    exact hb.block x b hb'
  · intro x y a b ha hb' hab
    obtain ⟨a', ha', hoa, -⟩ := key x a ha
    obtain ⟨b', hb', hob, -⟩ := key y b hb'
    exact hb.own x y a' b' ha' hb' (hoa.symm.trans (hab.trans hob))

theorem blocksOK_addBlock (d : CString) : BlocksOK (I.addBlock d) := by
  refine ⟨fun x e he => ?_, hb.own⟩
  obtain ⟨c, hc, hl⟩ := hb.block x e he
  rw [addBlock_lookup]
  split
  · rename_i hx
    rw [hx, lookup_datEnd] at hc
    cases hc
  · exact ⟨c, hc, hl⟩

theorem blocksOK_addEntry {e : Entry} {v : ℕ} (hv : v ≤ ptrMax)
    (hd : I.blocks.lookup e.datoff = some d) (hl : e.datlen = d.1.length + 1)
    (hn : ∀ x a, I.recs.lookup x = some a → a.datoff ≠ e.datoff) :
    BlocksOK (I.addEntry e v hv) := by
  have key : ∀ x a, (I.addEntry e v hv).recs.lookup x = some a →
      (x = I.idxEnd ∧ a = e) ∨ I.recs.lookup x = some a := by
    intro x a ha
    rw [addEntry_lookup] at ha
    split at ha
    · exact Or.inl ⟨‹_›, (Option.some.inj ha).symm⟩
    · exact Or.inr ha
  constructor
  · intro x a ha
    rcases key x a ha with ⟨-, rfl⟩ | ha
    · exact ⟨d, hd, hl⟩
    · exact hb.block x a ha
  · intro x y a b ha hb' hab
    rcases key x a ha with ⟨hx, hae⟩ | ha
    · rcases key y b hb' with ⟨hy, -⟩ | hb'
      · exact hx.trans hy.symm
      · exact absurd (hab.symm.trans (congrArg Entry.datoff hae)) (hn y b hb')
    · rcases key y b hb' with ⟨-, hbe⟩ | hb'
      · exact absurd (hab.trans (congrArg Entry.datoff hbe)) (hn x a ha)
      · exact hb.own x y a b ha hb' hab

theorem datEnd_unnamed {x : ℕ} {a : Entry} (ha : I.recs.lookup x = some a) :
    a.datoff ≠ I.datEnd := by
  intro h
  obtain ⟨c, hc, -⟩ := hb.block x a ha
  rw [h, lookup_datEnd] at hc
  cases hc

end Blocks

/-! ## Blanks -/

def blankString (n : ℕ) : CString :=
  ⟨List.replicate n space, fun h => absurd (List.eq_of_mem_replicate h) (by decide)⟩

theorem isBlank_blankString (n : ℕ) : isBlank (blankString n).1 = true := by
  rw [isBlank, List.all_eq_true]
  intro b hb
  simpa using List.eq_of_mem_replicate hb

theorem length_blankString (n : ℕ) : (blankString n).1.length = n := List.length_replicate

theorem length_entryText (key : List Byte) (o n : ℕ) :
    (entryText key o n).length = key.length + (decimal o).length + (decimal n).length + 3 := by
  simp only [entryText, List.length_append, List.length_singleton]
  omega

def withKey (e : Entry) (key : CString) (hk : key.1.length = e.key.1.length) : Entry where
  key := key
  datoff := e.datoff
  datlen := e.datlen
  datlen_pos := e.datlen_pos
  datlen_le := e.datlen_le
  length_ge := by
    have := e.length_ge
    rw [length_entryText] at this ⊢
    rwa [hk]
  length_le := by
    have := e.length_le
    rw [length_entryText] at this ⊢
    rwa [hk]

theorem size_withKey (e : Entry) (key : CString) (hk : key.1.length = e.key.1.length) :
    (withKey e key hk).size = e.size := by
  simp only [Entry.size, Entry.text, length_entryText, withKey, hk]

def blanked (e : Entry) : Entry :=
  withKey e (blankString e.key.1.length) (length_blankString _)

end DbLists
