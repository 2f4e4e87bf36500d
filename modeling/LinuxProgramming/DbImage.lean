import LinuxProgramming.DbLibrary

/-! # The two database files as cells

An image holds what the bytes of a well-formed database mean: the pointers, by the offset
of their field, the index records and the data blocks. `Image.files` writes it out. Reads
and writes of the library inside one cell become reads and updates of the image. -/
namespace DbImage

open CStrings ByteFiles SyscallPrograms DbLibrary Function

def entryText (key : List Byte) (datoff datlen : ℕ) : List Byte :=
  key ++ [sep] ++ decimal datoff ++ [sep] ++ decimal datlen ++ [newline]

/-- An index record within the limits that _db_readidx and _db_writeidx check. -/
@[ext] structure Entry where
  key : CString
  datoff : ℕ
  datlen : ℕ
  datlen_pos : 0 < datlen
  datlen_le : datlen ≤ datlenMax
  length_ge : idxlenMin ≤ (entryText key.1 datoff datlen).length
  length_le : (entryText key.1 datoff datlen).length ≤ idxlenMax
  deriving DecidableEq

def Entry.text (e : Entry) : List Byte := entryText e.key.1 e.datoff e.datlen

def Entry.size (e : Entry) : ℕ := ptrSz + idxlenSz + e.text.length

def blockSize (d : CString) : ℕ := d.1.length + 1

def blockBytes (_ : ℕ) (d : CString) : List Byte := d.1 ++ [newline]

def pointerText (v : ℕ) : List Byte := padLeft ptrSz (decimal v)

def Entry.bytes (v : ℕ) (e : Entry) : List Byte :=
  pointerText v ++ padLeft idxlenSz (decimal e.text.length) ++ e.text

structure Image where
  ptr : ℕ → ℕ
  recs : List (ℕ × Entry)
  blocks : List (ℕ × CString)
  ptr_le : ∀ o, ptr o ≤ ptrMax
  recs_placed : Placed Entry.size recordsOff recs
  blocks_placed : Placed blockSize 0 blocks

inductive Cell where
  | slot
  | mark
  | entry (e : Entry)

def Cell.size : Cell → ℕ
  | .slot => ptrSz
  | .mark => 1
  | .entry e => e.size

def Cell.bytes (ptr : ℕ → ℕ) (o : ℕ) : Cell → List Byte
  | .slot => pointerText (ptr o)
  | .mark => [newline]
  | .entry e => e.bytes (ptr o)

def slots (n : ℕ) : List (ℕ × Cell) := (List.range n).map fun i => (i * ptrSz, .slot)

def header : List (ℕ × Cell) := slots (nhash + 1) ++ [((nhash + 1) * ptrSz, .mark)]

namespace Image

def cells (I : Image) : List (ℕ × Cell) := header ++ I.recs.map fun r => (r.1, .entry r.2)

def idx (I : Image) : List Byte := render (Cell.bytes I.ptr) I.cells

def dat (I : Image) : List Byte := render blockBytes I.blocks

def files (I : Image) : Fd → List Byte
  | .idx => I.idx
  | .dat => I.dat

def idxEnd (I : Image) : ℕ := recordsOff + extent Entry.size I.recs

def datEnd (I : Image) : ℕ := extent blockSize I.blocks

/-- A pointer field stands at `o`. -/
def HasPtr (I : Image) (o : ℕ) : Prop :=
  (∃ i, i ≤ nhash ∧ o = i * ptrSz) ∨ ∃ e, I.recs.lookup o = some e

def setPtr (I : Image) (o v : ℕ) (hv : v ≤ ptrMax) : Image where
  ptr := Function.update I.ptr o v
  recs := I.recs
  blocks := I.blocks
  ptr_le x := by
    by_cases hx : x = o
    · simpa [hx] using hv
    · simpa [hx] using I.ptr_le x
  recs_placed := I.recs_placed
  blocks_placed := I.blocks_placed

def setEntry (I : Image) (o : ℕ) (e : Entry) (he : ∀ c, (o, c) ∈ I.recs → c.size = e.size) :
    Image where
  ptr := I.ptr
  recs := put o e I.recs
  blocks := I.blocks
  ptr_le := I.ptr_le
  recs_placed := I.recs_placed.put he
  blocks_placed := I.blocks_placed

def addEntry (I : Image) (e : Entry) (v : ℕ) (hv : v ≤ ptrMax) : Image where
  ptr := Function.update I.ptr I.idxEnd v
  recs := I.recs ++ [(I.idxEnd, e)]
  blocks := I.blocks
  ptr_le := (I.setPtr I.idxEnd v hv).ptr_le
  recs_placed := placed_append.mpr ⟨I.recs_placed, rfl, trivial⟩
  blocks_placed := I.blocks_placed

def setBlock (I : Image) (o : ℕ) (d : CString)
    (hd : ∀ c, (o, c) ∈ I.blocks → blockSize c = blockSize d) : Image where
  ptr := I.ptr
  recs := I.recs
  blocks := put o d I.blocks
  ptr_le := I.ptr_le
  recs_placed := I.recs_placed
  blocks_placed := I.blocks_placed.put hd

def addBlock (I : Image) (d : CString) : Image where
  ptr := I.ptr
  recs := I.recs
  blocks := I.blocks ++ [(I.datEnd, d)]
  ptr_le := I.ptr_le
  recs_placed := I.recs_placed
  blocks_placed := placed_append.mpr ⟨I.blocks_placed, (Nat.zero_add _).symm, trivial⟩

end Image

/-! ## Sizes -/

theorem length_pointerText {v : ℕ} (h : v ≤ ptrMax) : (pointerText v).length = ptrSz := by
  apply length_padLeft
  exact (length_decimal_le (by decide)).mpr (Nat.lt_of_le_of_lt h (by decide))

theorem length_lenText (e : Entry) : (padLeft idxlenSz (decimal e.text.length)).length = idxlenSz := by
  apply length_padLeft
  exact (length_decimal_le (by decide)).mpr (Nat.lt_of_le_of_lt e.length_le (by decide))

theorem length_entryBytes {v : ℕ} (h : v ≤ ptrMax) (e : Entry) : (e.bytes v).length = e.size := by
  simp only [Entry.bytes, List.length_append, length_pointerText h, length_lenText, Entry.size]

theorem Entry.size_pos (e : Entry) : 0 < e.size := by
  simp only [Entry.size, ptrSz]
  omega

theorem blockSize_pos (d : CString) : 0 < blockSize d := Nat.succ_pos _

theorem Cell.size_pos (c : Cell) : 0 < c.size := by
  cases c with
  | slot => exact (by decide : 0 < ptrSz)
  | mark => exact Nat.one_pos
  | entry e => exact e.size_pos

theorem extent_slots (n : ℕ) : extent Cell.size (slots n) = n * ptrSz := by
  induction n with
  | zero => rfl
  | succ n ih =>
    have hs : slots (n + 1) = slots n ++ [(n * ptrSz, .slot)] := by
      simp [slots, List.range_succ]
    rw [hs, extent_append, ih, Nat.succ_mul]
    rfl

theorem placed_slots (n : ℕ) : Placed Cell.size 0 (slots n) := by
  induction n with
  | zero => trivial
  | succ n ih =>
    have hs : slots (n + 1) = slots n ++ [(n * ptrSz, .slot)] := by
      simp [slots, List.range_succ]
    rw [hs]
    refine placed_append.mpr ⟨ih, ?_, trivial⟩
    rw [extent_slots, Nat.zero_add]

theorem extent_header : extent Cell.size header = recordsOff := by
  rw [header, extent_append, extent_slots]
  rfl

theorem placed_header : Placed Cell.size 0 header := by
  refine placed_append.mpr ⟨placed_slots _, ?_, trivial⟩
  rw [extent_slots, Nat.zero_add]

theorem extent_entries (l : List (ℕ × Entry)) :
    extent Cell.size (l.map fun r => (r.1, .entry r.2)) = extent Entry.size l := by
  simp only [extent, List.map_map]
  rfl

theorem placed_entries {s : ℕ} {l : List (ℕ × Entry)} (h : Placed Entry.size s l) :
    Placed Cell.size s (l.map fun r => (r.1, .entry r.2)) := by
  induction l generalizing s with
  | nil => trivial
  | cons r l ih => exact ⟨h.1, ih h.2⟩

variable (I : Image)

theorem placed_cells : Placed Cell.size 0 I.cells := by
  refine placed_append.mpr ⟨placed_header, ?_⟩
  rw [extent_header, Nat.zero_add]
  exact placed_entries I.recs_placed

theorem extent_cells : extent Cell.size I.cells = I.idxEnd := by
  rw [Image.cells, extent_append, extent_header, extent_entries]
  rfl

theorem length_cellBytes {ptr : ℕ → ℕ} (h : ∀ o, ptr o ≤ ptrMax) (r : ℕ × Cell) :
    (r.2.bytes ptr r.1).length = r.2.size := by
  obtain ⟨o, c⟩ := r
  cases c with
  | slot => exact length_pointerText (h o)
  | mark => rfl
  | entry e => exact length_entryBytes (h o) e

theorem length_idx : I.idx.length = I.idxEnd := by
  rw [← extent_cells]
  exact length_render fun r _ => length_cellBytes I.ptr_le r

theorem length_blockBytes (r : ℕ × CString) : (blockBytes r.1 r.2).length = blockSize r.2 :=
  List.length_append

theorem length_dat : I.dat.length = I.datEnd := length_render fun r _ => length_blockBytes r

/-! ## Membership -/

variable {I : Image} {o : ℕ}

theorem lookup_entry {e : Entry} : I.recs.lookup o = some e ↔ (o, e) ∈ I.recs :=
  I.recs_placed.lookup_iff fun r _ => r.2.size_pos

theorem lookup_block {d : CString} : I.blocks.lookup o = some d ↔ (o, d) ∈ I.blocks :=
  I.blocks_placed.lookup_iff fun r _ => blockSize_pos r.2

theorem mem_cells_entry {e : Entry} (h : I.recs.lookup o = some e) : (o, .entry e) ∈ I.cells := by
  refine List.mem_append_right _ (List.mem_map.mpr ⟨(o, e), lookup_entry.mp h, rfl⟩)

theorem mem_header_slot {i : ℕ} (hi : i ≤ nhash) : (i * ptrSz, .slot) ∈ header := by
  refine List.mem_append_left _ (List.mem_map.mpr ⟨i, List.mem_range.mpr ?_, rfl⟩)
  omega

theorem entry_bounds {e : Entry} (h : I.recs.lookup o = some e) :
    recordsOff ≤ o ∧ o + e.size ≤ I.idxEnd :=
  I.recs_placed.bounds (lookup_entry.mp h)

theorem entry_ne_slot {e : Entry} (h : I.recs.lookup o = some e) {i : ℕ} (hi : i ≤ nhash) :
    o ≠ i * ptrSz := by
  have hb := (entry_bounds h).1
  simp only [recordsOff, ptrSz] at hb ⊢
  omega

theorem entry_ne_zero {e : Entry} (h : I.recs.lookup o = some e) : o ≠ 0 := by
  have := entry_ne_slot h (Nat.zero_le nhash)
  rwa [Nat.zero_mul] at this

theorem lookup_idxEnd : I.recs.lookup I.idxEnd = none :=
  I.recs_placed.lookup_end fun r _ => r.2.size_pos

theorem lookup_datEnd : I.blocks.lookup I.datEnd = none := by
  have := I.blocks_placed.lookup_end fun r _ => blockSize_pos r.2
  rwa [Nat.zero_add] at this

theorem hasPtr_slot {i : ℕ} (hi : i ≤ nhash) : I.HasPtr (i * ptrSz) := Or.inl ⟨i, hi, rfl⟩

theorem hasPtr_entry {e : Entry} (h : I.recs.lookup o = some e) : I.HasPtr o := Or.inr ⟨e, h⟩

theorem hasPtr_cell (h : I.HasPtr o) : ∃ c, (o, c) ∈ I.cells ∧ ptrSz ≤ c.size ∧
    ∀ ptr, ∃ rest, c.bytes ptr o = pointerText (ptr o) ++ rest ∧
      ∀ ptr', c.bytes ptr' o = pointerText (ptr' o) ++ rest := by
  rcases h with ⟨i, hi, rfl⟩ | ⟨e, he⟩
  · refine ⟨.slot, List.mem_append_left _ (mem_header_slot hi), le_rfl, fun ptr => ⟨[], ?_, ?_⟩⟩
    · exact (List.append_nil _).symm
    · exact fun _ => (List.append_nil _).symm
  · refine ⟨.entry e, mem_cells_entry he, ?_, fun ptr => ⟨_, List.append_assoc _ _ _, ?_⟩⟩
    · simp only [Cell.size, Entry.size]
      omega
    · exact fun _ => List.append_assoc _ _ _

/-! ## Reading cells -/

theorem cell_size_pos : ∀ r ∈ I.cells, 0 < Cell.size r.2 := fun r _ => r.2.size_pos

theorem cell_length : ∀ r ∈ I.cells, (r.2.bytes I.ptr r.1).length = r.2.size :=
  fun r _ => length_cellBytes I.ptr_le r

theorem pread_ptr (h : I.HasPtr o) : pread I.idx o ptrSz = pointerText (I.ptr o) := by
  obtain ⟨c, hm, hc, hb⟩ := hasPtr_cell h
  obtain ⟨rest, hb, -⟩ := hb I.ptr
  have hr := pread_cell (placed_cells I) cell_size_pos cell_length hm (i := 0) (n := ptrSz) (by omega)
  rw [Nat.add_zero, hb] at hr
  have hlen := length_pointerText (I.ptr_le o)
  rw [Image.idx, hr, pread, List.drop_zero, ← hlen, List.take_left]

theorem pread_entry_front {e : Entry} (h : I.recs.lookup o = some e) :
    pread I.idx o (ptrSz + idxlenSz) =
      pointerText (I.ptr o) ++ padLeft idxlenSz (decimal e.text.length) := by
  have hr := pread_cell (placed_cells I) cell_size_pos cell_length (mem_cells_entry h)
    (i := 0) (n := ptrSz + idxlenSz) (by simp only [Cell.size, Entry.size]; omega)
  have hlen : (pointerText (I.ptr o) ++ padLeft idxlenSz (decimal e.text.length)).length =
      ptrSz + idxlenSz := by
    rw [List.length_append, length_pointerText (I.ptr_le o), length_lenText]
  rw [Nat.add_zero] at hr
  rw [Image.idx, hr, pread, List.drop_zero, ← hlen]
  exact List.take_left

theorem pread_entry_text {e : Entry} (h : I.recs.lookup o = some e) :
    pread I.idx (o + (ptrSz + idxlenSz)) e.text.length = e.text := by
  have hr := pread_cell (placed_cells I) cell_size_pos cell_length (mem_cells_entry h)
    (i := ptrSz + idxlenSz) (n := e.text.length) (by simp only [Cell.size, Entry.size]; omega)
  have hlen : (pointerText (I.ptr o) ++ padLeft idxlenSz (decimal e.text.length)).length =
      ptrSz + idxlenSz := by
    rw [List.length_append, length_pointerText (I.ptr_le o), length_lenText]
  rw [Image.idx, hr, pread, ← hlen]
  simp only [Cell.bytes, Entry.bytes, List.drop_left, List.take_length]

theorem pread_block {d : CString} (h : I.blocks.lookup o = some d) :
    pread I.dat o (d.1.length + 1) = d.1 ++ [newline] := by
  have hr := pread_cell I.blocks_placed (fun r _ => blockSize_pos r.2)
    (fun r _ => length_blockBytes r) (lookup_block.mp h) (i := 0) (n := d.1.length + 1)
    (by simp only [blockSize]; omega)
  rw [Nat.add_zero] at hr
  rw [Image.dat, hr, pread, List.drop_zero]
  exact List.take_of_length_le (le_of_eq (length_blockBytes (o, d)))

/-! ## Writing cells -/

theorem files_update_idx {f : List Byte} {J : Image} (hi : f = J.idx) (hd : J.dat = I.dat) :
    Function.update I.files .idx f = J.files := by
  funext fd
  cases fd with
  | idx => exact (update_self _ _ _).trans hi
  | dat => simpa [Image.files] using hd.symm

theorem files_update_dat {f : List Byte} {J : Image} (hi : J.idx = I.idx) (hd : f = J.dat) :
    Function.update I.files .dat f = J.files := by
  funext fd
  cases fd with
  | idx => simpa [Image.files] using hi.symm
  | dat => exact (update_self _ _ _).trans hd

theorem cellBytes_update {ptr : ℕ → ℕ} {v : ℕ} (r : ℕ × Cell) (h : r.1 ≠ o) :
    r.2.bytes (Function.update ptr o v) r.1 = r.2.bytes ptr r.1 := by
  cases hr : r.2 <;> simp [Cell.bytes, h]

theorem files_setPtr (h : I.HasPtr o) {v : ℕ} (hv : v ≤ ptrMax) :
    Function.update I.files .idx (pwrite I.idx o (pointerText v)) = (I.setPtr o v hv).files := by
  refine files_update_idx ?_ rfl
  obtain ⟨c, hm, hc, hb⟩ := hasPtr_cell h
  obtain ⟨rest, hb, hb'⟩ := hb I.ptr
  have hlen := length_pointerText (I.ptr_le o)
  have hlenv := length_pointerText hv
  have hcell : c.bytes (Function.update I.ptr o v) o = pwrite (c.bytes I.ptr o) 0 (pointerText v) := by
    rw [hb, hb', update_self]
    exact (pwrite_front (hlenv.trans hlen.symm)).symm
  have hw := pwrite_cell (Cell.bytes (Function.update I.ptr o v)) (placed_cells I) cell_size_pos
    cell_length c hm (by omega) hcell fun r _ hr => cellBytes_update r hr
  rw [Nat.add_zero, put_self (placed_cells I) cell_size_pos hm] at hw
  exact hw

theorem header_lt {r : ℕ × Cell} (h : r ∈ header) : r.1 < recordsOff := by
  have hb := placed_header.bounds h
  have := r.2.size_pos
  rw [extent_header] at hb
  omega

theorem put_cells {e : Entry} (ho : recordsOff ≤ o) :
    put o (.entry e) I.cells = header ++ (put o e I.recs).map fun r => (r.1, .entry r.2) := by
  rw [Image.cells, put_append, put_of_notMem fun r hr => ?_]
  · congr 1
    simp only [put, List.map_map]
    apply List.map_congr_left
    intro r _
    by_cases hr : r.1 = o <;> simp [hr]
  · have := header_lt hr
    omega

theorem files_setEntry {e e' : Entry} (h : I.recs.lookup o = some e)
    (he : ∀ c, (o, c) ∈ I.recs → c.size = e'.size) {v : ℕ} (hv : v ≤ ptrMax) :
    Function.update I.files .idx (pwrite I.idx o (e'.bytes v)) =
      ((I.setEntry o e' he).setPtr o v hv).files := by
  refine files_update_idx ?_ rfl
  have hsize := he e (lookup_entry.mp h)
  have hlen := length_entryBytes hv e'
  have hlen₀ := length_entryBytes (I.ptr_le o) e
  have hcell : (Cell.entry e').bytes (Function.update I.ptr o v) o =
      pwrite ((Cell.entry e).bytes I.ptr o) 0 (e'.bytes v) := by
    simp only [Cell.bytes, update_self]
    exact (pwrite_all (hlen.trans (hsize.symm.trans hlen₀.symm))).symm
  have hw := pwrite_cell (Cell.bytes (Function.update I.ptr o v)) (placed_cells I) cell_size_pos
    cell_length (.entry e') (mem_cells_entry h) (by simp only [Cell.size]; omega) hcell
    fun r _ hr => cellBytes_update r hr
  rw [Nat.add_zero, put_cells (entry_bounds h).1] at hw
  exact hw

theorem files_addEntry (e : Entry) {v : ℕ} (hv : v ≤ ptrMax) :
    Function.update I.files .idx (pwrite I.idx I.idxEnd (e.bytes v)) =
      (I.addEntry e v hv).files := by
  refine files_update_idx ?_ rfl
  have hrest : ∀ r ∈ I.cells,
      r.2.bytes (Function.update I.ptr I.idxEnd v) r.1 = r.2.bytes I.ptr r.1 := by
    intro r hr
    refine cellBytes_update r ?_
    have hb := (placed_cells I).bounds hr
    have := r.2.size_pos
    rw [extent_cells] at hb
    omega
  have hw := pwrite_new_cell (Cell.bytes (Function.update I.ptr I.idxEnd v)) cell_length
    (.entry e) hrest
  rw [extent_cells] at hw
  simp only [Cell.bytes, update_self] at hw
  rw [Image.idx, hw]
  simp only [Image.idx, Image.cells, Image.addEntry, List.map_append, List.append_assoc]
  rfl

theorem files_setBlock {d d' : CString} (h : I.blocks.lookup o = some d)
    (hd : ∀ c, (o, c) ∈ I.blocks → blockSize c = blockSize d') :
    Function.update I.files .dat (pwrite I.dat o (d'.1 ++ [newline])) =
      (I.setBlock o d' hd).files := by
  refine files_update_dat rfl ?_
  have hsize := hd d (lookup_block.mp h)
  have hlen : (blockBytes o d').length = (blockBytes o d).length :=
    (length_blockBytes (o, d')).trans (hsize.symm.trans (length_blockBytes (o, d)).symm)
  have hw := pwrite_cell blockBytes I.blocks_placed (fun r _ => blockSize_pos r.2)
    (fun r _ => length_blockBytes r) d' (lookup_block.mp h) (i := 0)
    (by rw [hlen, length_blockBytes (o, d), Nat.zero_add]) (pwrite_all hlen).symm fun _ _ _ => rfl
  rwa [Nat.add_zero] at hw

theorem files_addBlock (d : CString) :
    Function.update I.files .dat (pwrite I.dat I.datEnd (d.1 ++ [newline])) =
      (I.addBlock d).files := by
  refine files_update_dat rfl ?_
  exact pwrite_new_cell blockBytes (fun r _ => length_blockBytes r) d fun _ _ => rfl

theorem idx_setPtr (h : I.HasPtr o) {v : ℕ} (hv : v ≤ ptrMax) :
    (I.setPtr o v hv).idx = pwrite I.idx o (pointerText v) :=
  (congrFun (files_setPtr h hv) .idx).symm.trans (update_self _ _ _)

theorem idx_setEntry {e e' : Entry} (h : I.recs.lookup o = some e)
    (he : ∀ c, (o, c) ∈ I.recs → c.size = e'.size) {v : ℕ} (hv : v ≤ ptrMax) :
    ((I.setEntry o e' he).setPtr o v hv).idx = pwrite I.idx o (e'.bytes v) :=
  (congrFun (files_setEntry h he hv) .idx).symm.trans (update_self _ _ _)

theorem idx_addEntry (e : Entry) {v : ℕ} (hv : v ≤ ptrMax) :
    (I.addEntry e v hv).idx = I.idx ++ e.bytes v := by
  have h := (congrFun (files_addEntry (I := I) e hv) .idx).symm.trans (update_self _ _ _)
  rwa [← length_idx, pwrite_end] at h

theorem dat_setBlock {d d' : CString} (h : I.blocks.lookup o = some d)
    (hd : ∀ c, (o, c) ∈ I.blocks → blockSize c = blockSize d') :
    (I.setBlock o d' hd).dat = pwrite I.dat o (d'.1 ++ [newline]) :=
  (congrFun (files_setBlock h hd) .dat).symm.trans (update_self _ _ _)

theorem dat_addBlock (d : CString) : (I.addBlock d).dat = I.dat ++ (d.1 ++ [newline]) := by
  have h := (congrFun (files_addBlock (I := I) d) .dat).symm.trans (update_self _ _ _)
  rwa [← length_dat, pwrite_end] at h

end DbImage
