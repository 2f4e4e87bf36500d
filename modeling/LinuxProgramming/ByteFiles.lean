import LinuxProgramming.CStrings
import Mathlib.Data.List.Lookmap
import Mathlib.Algebra.BigOperators.Group.List.Basic
import Mathlib.Algebra.Ring.Nat

/-! # Byte files and files made of adjacent cells

A file is the list of its bytes. Many file formats are a sequence of cells written back
to back, each known by the offset of its first byte; `Placed` says that the offsets are
the right ones, and the lemmas below turn positioned reads and writes of the file into
lookups and updates of one cell. -/
namespace ByteFiles

open CStrings

def pread (f : List Byte) (off n : ℕ) : List Byte := (f.drop off).take n

/-- A positioned write; a gap behind the end of the file reads as NUL bytes. -/
def pwrite (f : List Byte) (off : ℕ) (bs : List Byte) : List Byte :=
  f.take off ++ List.replicate (off - f.length) 0 ++ bs ++ f.drop (off + bs.length)

theorem pread_append_mid (a x b : List Byte) {i n : ℕ} (h : i + n ≤ x.length) :
    pread (a ++ x ++ b) (a.length + i) n = pread x i n := by
  simp only [pread, List.append_assoc, List.drop_append, List.drop_eq_nil_of_le
    (show a.length ≤ a.length + i by omega), List.nil_append, Nat.add_sub_cancel_left]
  rw [List.take_append_of_le_length (by simp only [List.length_drop]; omega)]

theorem pwrite_append_mid (a x b bs : List Byte) {i : ℕ} (h : i + bs.length ≤ x.length) :
    pwrite (a ++ x ++ b) (a.length + i) bs = a ++ pwrite x i bs ++ b := by
  have e1 : a.length + i - (a.length + (x.length + b.length)) = 0 := by omega
  have e2 : i - x.length = 0 := by omega
  have e3 : a.length + i + bs.length - a.length = i + bs.length := by omega
  have e4 : i + bs.length - x.length = 0 := by omega
  have ht : List.take (a.length + i) a = a := List.take_of_length_le (by omega)
  have hd : List.drop (a.length + i + bs.length) a = [] := List.drop_eq_nil_of_le (by omega)
  simp only [pwrite, List.length_append, List.append_assoc, List.take_append, List.drop_append,
    Nat.add_sub_cancel_left, e1, e2, e3, e4, ht, hd, List.replicate_zero, List.take_zero,
    List.drop_zero, List.append_nil, List.nil_append]

theorem pread_at_end (f : List Byte) (n : ℕ) : pread f f.length n = [] := by simp [pread]

theorem pwrite_all {x y : List Byte} (h : y.length = x.length) : pwrite x 0 y = y := by
  simp [pwrite, h]

theorem pwrite_front {x rest bs : List Byte} (h : bs.length = x.length) :
    pwrite (x ++ rest) 0 bs = bs ++ rest := by
  simp [pwrite, h]

theorem pwrite_end (f bs : List Byte) : pwrite f f.length bs = f ++ bs := by
  simp [pwrite]

theorem take_pwrite {f bs : List Byte} {off n : ℕ} (h : off ≤ f.length) (hn : n ≤ bs.length) :
    (pwrite f off bs).take (off + n) = f.take off ++ bs.take n := by
  have hgap : off - f.length = 0 := by omega
  have hlen : (f.take off).length = off := by simp [h]
  rw [pwrite, hgap, List.replicate_zero, List.append_nil, List.append_assoc, List.take_append,
    List.take_of_length_le (by omega), hlen, Nat.add_sub_cancel_left,
    List.take_append_of_le_length hn]

theorem le_length_pwrite {f bs : List Byte} {off : ℕ} (h : off ≤ f.length) :
    off + bs.length ≤ (pwrite f off bs).length := by
  simp only [pwrite, List.length_append, List.length_take, List.length_replicate, List.length_drop]
  omega

theorem length_pwrite {f bs : List Byte} {off : ℕ} (h : off + bs.length ≤ f.length) :
    (pwrite f off bs).length = f.length := by
  simp only [pwrite, List.length_append, List.length_take, List.length_replicate, List.length_drop]
  omega

theorem drop_pwrite_self {f bs : List Byte} {off : ℕ} (h : off ≤ f.length) :
    (pwrite f off bs).drop off = bs ++ f.drop (off + bs.length) := by
  have hgap : off - f.length = 0 := by omega
  have hlen : (f.take off).length = off := by simp [h]
  rw [pwrite, hgap, List.replicate_zero, List.append_nil, List.append_assoc, List.drop_append, hlen,
    Nat.sub_self, List.drop_zero, List.drop_eq_nil_of_le hlen.le, List.nil_append]

theorem drop_pwrite_behind {f bs : List Byte} {off k : ℕ} (h : off ≤ f.length)
    (hk : off + bs.length ≤ k) : (pwrite f off bs).drop k = f.drop k := by
  obtain ⟨i, rfl⟩ := Nat.exists_eq_add_of_le hk
  rw [Nat.add_assoc, ← List.drop_drop, drop_pwrite_self h, ← List.drop_drop, List.drop_left,
    List.drop_drop, Nat.add_assoc]

theorem take_pwrite_before {f bs : List Byte} {off k : ℕ} (h : off ≤ f.length) (hk : k ≤ off) :
    (pwrite f off bs).take k = f.take k := by
  have hoff : (pwrite f off bs).take (off + 0) = f.take off ++ bs.take 0 :=
    take_pwrite h (Nat.zero_le _)
  rw [Nat.add_zero, List.take_zero, List.append_nil] at hoff
  have hk' := congrArg (List.take k) hoff
  rwa [List.take_take, List.take_take, min_eq_left hk] at hk'

section Cells

variable {β : Type*} (size : β → ℕ)

/-- The cells stand back to back, the first one at `s`. -/
def Placed : ℕ → List (ℕ × β) → Prop
  | _, [] => True
  | s, e :: l => e.1 = s ∧ Placed (s + size e.2) l

def extent (l : List (ℕ × β)) : ℕ := (l.map fun e => size e.2).sum

def render (enc : ℕ → β → List Byte) (l : List (ℕ × β)) : List Byte :=
  l.flatMap fun e => enc e.1 e.2

def put (o : ℕ) (b : β) (l : List (ℕ × β)) : List (ℕ × β) :=
  l.map fun e => if e.1 = o then (o, b) else e

@[simp] theorem extent_nil : extent size ([] : List (ℕ × β)) = 0 := rfl

@[simp] theorem extent_cons (e : ℕ × β) (l : List (ℕ × β)) :
    extent size (e :: l) = size e.2 + extent size l := by simp [extent]

@[simp] theorem extent_append (l m : List (ℕ × β)) :
    extent size (l ++ m) = extent size l + extent size m := by simp [extent]

@[simp] theorem render_append (enc : ℕ → β → List Byte) (l m : List (ℕ × β)) :
    render enc (l ++ m) = render enc l ++ render enc m := by simp [render]

@[simp] theorem render_cons (enc : ℕ → β → List Byte) (e : ℕ × β) (l : List (ℕ × β)) :
    render enc (e :: l) = enc e.1 e.2 ++ render enc l := by simp [render]

@[simp] theorem render_nil (enc : ℕ → β → List Byte) :
    render enc ([] : List (ℕ × β)) = [] := rfl

@[simp] theorem put_cons (o : ℕ) (b : β) (e : ℕ × β) (l : List (ℕ × β)) :
    put o b (e :: l) = (if e.1 = o then (o, b) else e) :: put o b l := rfl

theorem put_append (o : ℕ) (b : β) (l m : List (ℕ × β)) :
    put o b (l ++ m) = put o b l ++ put o b m := by simp [put]

theorem put_of_notMem {o : ℕ} {b : β} {l : List (ℕ × β)} (h : ∀ e ∈ l, e.1 ≠ o) :
    put o b l = l := by
  rw [put, List.map_congr_left (g := id), List.map_id]
  intro e he
  simp [h e he]

theorem lookup_put (o o' : ℕ) (b : β) (l : List (ℕ × β)) :
    (put o b l).lookup o' = if o' = o then (l.lookup o).map (fun _ => b) else l.lookup o' := by
  induction l with
  | nil => simp [put]
  | cons e l ih =>
    obtain ⟨k, c⟩ := e
    rw [put_cons]
    by_cases hk : k = o
    · subst k
      by_cases ho : o' = o
      · simp [ho]
      · have hb : (o' == o) = false := by simpa using ho
        simp only [if_true, List.lookup_cons, hb, ih, ho, if_false]
    · by_cases ho : o' = k
      · subst o'
        simp [hk]
      · have hb : (o' == k) = false := by simpa using ho
        have hc : (o == k) = false := by simpa using fun h => hk h.symm
        simp only [hk, if_false, List.lookup_cons, hb, hc, ih]

theorem lookup_snoc (l : List (ℕ × β)) (o o' : ℕ) (b : β) :
    (l ++ [(o, b)]).lookup o' = (l.lookup o').or (if o' = o then some b else none) := by
  induction l with
  | nil =>
    by_cases h : o' = o
    · simp [h]
    · have hb : (o' == o) = false := by simpa using h
      simp [List.lookup_cons, hb, h]
  | cons e l ih =>
    obtain ⟨k, c⟩ := e
    by_cases hk : o' = k
    · simp [hk]
    · have hb : (o' == k) = false := by simpa using hk
      simp only [List.cons_append, List.lookup_cons, hb, ih]

theorem mem_of_lookup {l : List (ℕ × β)} {o : ℕ} {b : β} (h : l.lookup o = some b) :
    (o, b) ∈ l := by
  induction l with
  | nil => simp at h
  | cons e l ih =>
    obtain ⟨k, c⟩ := e
    by_cases hk : o = k
    · subst k
      simp only [List.lookup_cons, beq_self_eq_true, Option.some.injEq] at h
      simp [h]
    · have hb : (o == k) = false := by simpa using hk
      simp only [List.lookup_cons, hb] at h
      exact List.mem_cons_of_mem _ (ih h)

variable {size}

theorem placed_append {s : ℕ} {l m : List (ℕ × β)} :
    Placed size s (l ++ m) ↔ Placed size s l ∧ Placed size (s + extent size l) m := by
  induction l generalizing s with
  | nil => simp [Placed]
  | cons e l ih => simp only [List.cons_append, Placed, ih, extent_cons, and_assoc, Nat.add_assoc]

theorem Placed.bounds {s : ℕ} {l : List (ℕ × β)} (h : Placed size s l) {e : ℕ × β}
    (he : e ∈ l) : s ≤ e.1 ∧ e.1 + size e.2 ≤ s + extent size l := by
  induction l generalizing s with
  | nil => simp at he
  | cons d l ih =>
    obtain ⟨hd, hl⟩ := h
    simp only [extent_cons]
    rcases List.mem_cons.mp he with rfl | he
    · omega
    · have := ih hl he
      omega

/-- The cells before and behind a given one are at smaller and at larger offsets. -/
theorem Placed.split {s : ℕ} {l : List (ℕ × β)} (h : Placed size s l)
    (hpos : ∀ e ∈ l, 0 < size e.2) {o : ℕ} {b : β} (hm : (o, b) ∈ l) :
    ∃ l₁ l₂, l = l₁ ++ (o, b) :: l₂ ∧ o = s + extent size l₁ ∧
      (∀ e ∈ l₁, e.1 ≠ o) ∧ (∀ e ∈ l₂, e.1 ≠ o) := by
  obtain ⟨l₁, l₂, rfl⟩ := List.mem_iff_append.mp hm
  obtain ⟨h₁, h₂⟩ := placed_append.mp h
  obtain ⟨ho, h₂⟩ := h₂
  have ho' : o = s + extent size l₁ := ho
  have hb : 0 < size b := hpos (o, b) (by simp)
  refine ⟨l₁, l₂, rfl, ho, ?_, ?_⟩
  · intro e he
    have := h₁.bounds he
    have := hpos e (by simp [he])
    omega
  · intro e he
    have := h₂.bounds he
    dsimp only at this
    omega

theorem Placed.lookup_iff {s : ℕ} {l : List (ℕ × β)} (h : Placed size s l)
    (hpos : ∀ e ∈ l, 0 < size e.2) {o : ℕ} {b : β} : l.lookup o = some b ↔ (o, b) ∈ l := by
  constructor
  · exact mem_of_lookup
  · intro hm
    obtain ⟨l₁, l₂, rfl, -, h₁, -⟩ := h.split hpos hm
    clear h hpos hm
    induction l₁ with
    | nil => simp
    | cons e l₁ ih =>
      obtain ⟨k, c⟩ := e
      have hb : (o == k) = false := by
        simpa using fun he => h₁ (k, c) (by simp) he.symm
      simp only [List.cons_append, List.lookup_cons, hb]
      exact ih (fun d hd => h₁ d (by simp [hd]))

theorem Placed.lookup_end {s : ℕ} {l : List (ℕ × β)} (h : Placed size s l)
    (hpos : ∀ e ∈ l, 0 < size e.2) : l.lookup (s + extent size l) = none := by
  cases hl : l.lookup (s + extent size l) with
  | none => rfl
  | some b =>
    have hm := mem_of_lookup hl
    have := h.bounds hm
    have := hpos _ hm
    dsimp only at *
    omega

theorem Placed.increasing {s : ℕ} {l : List (ℕ × β)} (h : Placed size s l)
    (hpos : ∀ e ∈ l, 0 < size e.2) : l.Pairwise fun a b => a.1 < b.1 := by
  induction l generalizing s with
  | nil => exact List.Pairwise.nil
  | cons e l ih =>
    obtain ⟨he, hl⟩ := h
    refine List.pairwise_cons.mpr ⟨fun c hc => ?_, ih hl fun c hc => hpos c (by simp [hc])⟩
    have := (hl.bounds hc).1
    have := hpos e List.mem_cons_self
    omega

theorem Placed.disjoint {s : ℕ} {l : List (ℕ × β)} (h : Placed size s l)
    {a b : ℕ × β} (ha : a ∈ l) (hb : b ∈ l) (hne : a.1 ≠ b.1) :
    a.1 + size a.2 ≤ b.1 ∨ b.1 + size b.2 ≤ a.1 := by
  induction l generalizing s with
  | nil => cases ha
  | cons e l ih =>
    obtain ⟨he, hl⟩ := h
    rcases List.mem_cons.mp ha with rfl | ha'
    · rcases List.mem_cons.mp hb with rfl | hb'
      · exact absurd rfl hne
      · have := hl.bounds hb'
        omega
    · rcases List.mem_cons.mp hb with rfl | hb'
      · have := hl.bounds ha'
        omega
      · exact ih hl ha' hb'

theorem Placed.cover {s : ℕ} {l : List (ℕ × β)} (h : Placed size s l) {i : ℕ} (hs : s ≤ i)
    (hi : i < s + extent size l) : ∃ e ∈ l, e.1 ≤ i ∧ i < e.1 + size e.2 := by
  induction l generalizing s with
  | nil =>
    rw [extent_nil] at hi
    omega
  | cons e l ih =>
    obtain ⟨he, hl⟩ := h
    rw [extent_cons] at hi
    by_cases hie : i < s + size e.2
    · exact ⟨e, List.mem_cons_self, by omega, by omega⟩
    · obtain ⟨c, hc, h₁, h₂⟩ := ih hl (by omega) (by omega)
      exact ⟨c, List.mem_cons_of_mem e hc, h₁, h₂⟩

theorem Placed.put {s : ℕ} {l : List (ℕ × β)} (h : Placed size s l) {o : ℕ} {b : β}
    (hb : ∀ c, (o, c) ∈ l → size c = size b) : Placed size s (put o b l) := by
  induction l generalizing s with
  | nil => trivial
  | cons e l ih =>
    obtain ⟨he, hl⟩ := h
    have hl' := fun c hc => hb c (List.mem_cons_of_mem e hc)
    by_cases ho : e.1 = o
    · have hs : size e.2 = size b := hb e.2 (by simp [← ho])
      rw [put_cons, if_pos ho]
      exact ⟨ho ▸ he, ih (hs ▸ hl) hl'⟩
    · rw [put_cons, if_neg ho]
      exact ⟨he, ih hl hl'⟩

theorem put_self {s : ℕ} {l : List (ℕ × β)} (h : Placed size s l)
    (hpos : ∀ e ∈ l, 0 < size e.2) {o : ℕ} {b : β} (hm : (o, b) ∈ l) : put o b l = l := by
  obtain ⟨l₁, l₂, rfl, -, h₁, h₂⟩ := h.split hpos hm
  rw [put_append, put_of_notMem h₁, put_cons, if_pos rfl, put_of_notMem h₂]

theorem length_le_extent (hs : ∀ b, 0 < size b) (l : List (ℕ × β)) : l.length ≤ extent size l := by
  induction l with
  | nil => exact Nat.zero_le _
  | cons r l ih =>
    have := hs r.2
    rw [List.length_cons, extent_cons]
    omega

theorem extent_put {l : List (ℕ × β)} {o : ℕ} {b : β}
    (hb : ∀ c, (o, c) ∈ l → size c = size b) : extent size (put o b l) = extent size l := by
  simp only [extent, ByteFiles.put, List.map_map]
  congr 1
  apply List.map_congr_left
  intro e he
  by_cases ho : e.1 = o
  · simp [ho, hb e.2 (by simpa [← ho] using he)]
  · simp [ho]

variable {enc enc' : ℕ → β → List Byte}

theorem length_render {l : List (ℕ × β)} (henc : ∀ e ∈ l, (enc e.1 e.2).length = size e.2) :
    (render enc l).length = extent size l := by
  induction l with
  | nil => rfl
  | cons e l ih =>
    simp only [render_cons, List.length_append, extent_cons, henc e (by simp),
      ih fun d hd => henc d (by simp [hd])]

theorem render_congr {l : List (ℕ × β)} (h : ∀ e ∈ l, enc e.1 e.2 = enc' e.1 e.2) :
    render enc l = render enc' l := by
  induction l with
  | nil => rfl
  | cons e l ih =>
    simp only [render_cons, h e (by simp), ih fun d hd => h d (by simp [hd])]

theorem pread_cell {l : List (ℕ × β)} (hl : Placed size 0 l) (hpos : ∀ e ∈ l, 0 < size e.2)
    (henc : ∀ e ∈ l, (enc e.1 e.2).length = size e.2) {o : ℕ} {b : β} (hm : (o, b) ∈ l)
    {i n : ℕ} (h : i + n ≤ size b) :
    pread (render enc l) (o + i) n = pread (enc o b) i n := by
  obtain ⟨l₁, l₂, rfl, ho, -, -⟩ := hl.split hpos hm
  have hb := henc (o, b) (by simp)
  dsimp only at hb
  have hlen := length_render (l := l₁) fun e he => henc e (by simp [he])
  have := pread_append_mid (render enc l₁) (enc o b) (render enc l₂) (i := i) (n := n) (by omega)
  rw [hlen] at this
  rw [ho, Nat.zero_add]
  rw [ho, Nat.zero_add] at this
  simpa using this

theorem pwrite_cell (enc' : ℕ → β → List Byte) {l : List (ℕ × β)} (hl : Placed size 0 l)
    (hpos : ∀ e ∈ l, 0 < size e.2) (henc : ∀ e ∈ l, (enc e.1 e.2).length = size e.2) {o : ℕ}
    {b : β} (b' : β) (hm : (o, b) ∈ l) {i : ℕ} {bs : List Byte} (h : i + bs.length ≤ size b)
    (hcell : enc' o b' = pwrite (enc o b) i bs)
    (hrest : ∀ e ∈ l, e.1 ≠ o → enc' e.1 e.2 = enc e.1 e.2) :
    pwrite (render enc l) (o + i) bs = render enc' (put o b' l) := by
  obtain ⟨l₁, l₂, rfl, ho, h₁, h₂⟩ := hl.split hpos hm
  have hb := henc (o, b) (by simp)
  dsimp only at hb
  have hlen := length_render (l := l₁) fun e he => henc e (by simp [he])
  have e₁ : render enc' l₁ = render enc l₁ :=
    render_congr fun e he => hrest e (by simp [he]) (h₁ e he)
  have e₂ : render enc' l₂ = render enc l₂ :=
    render_congr fun e he => hrest e (by simp [he]) (h₂ e he)
  have hw := pwrite_append_mid (render enc l₁) (enc o b) (render enc l₂) bs (i := i) (by omega)
  rw [hlen] at hw
  have hput : put o b' (l₁ ++ (o, b) :: l₂) = l₁ ++ (o, b') :: l₂ := by
    rw [put_append, put_of_notMem h₁]
    simpa [put] using put_of_notMem h₂
  rw [hput]
  simp only [render_append, render_cons, e₁, e₂, hcell]
  rw [ho, Nat.zero_add]
  rw [ho, Nat.zero_add] at hw
  simpa using hw

theorem pwrite_new_cell (enc' : ℕ → β → List Byte) {l : List (ℕ × β)}
    (henc : ∀ e ∈ l, (enc e.1 e.2).length = size e.2) (b : β)
    (hrest : ∀ e ∈ l, enc' e.1 e.2 = enc e.1 e.2) :
    pwrite (render enc l) (extent size l) (enc' (extent size l) b) =
      render enc' (l ++ [(extent size l, b)]) := by
  have hlen := length_render henc
  rw [← hlen, pwrite_end]
  simp [render_congr hrest]

end Cells

end ByteFiles
