import Mathlib.Data.List.Nodup
import Mathlib.Tactic.Common

/-! # Singly linked chains in a store of pointers

`ptr` gives the pointer kept at each address and 0 ends a chain. A chain is described by
the list of the addresses it visits behind its head `s`. -/
namespace LinkedChains

/-- From `s` the pointers lead through `l` and then to `t`. -/
def Path (ptr : ℕ → ℕ) : ℕ → List ℕ → ℕ → Prop
  | s, [], t => ptr s = t
  | s, o :: os, t => ptr s = o ∧ o ≠ 0 ∧ Path ptr o os t

def Linked (ptr : ℕ → ℕ) (s : ℕ) (l : List ℕ) : Prop := Path ptr s l 0

variable {ptr ptr' : ℕ → ℕ} {s t o : ℕ} {l l₁ l₂ : List ℕ}

theorem path_append : Path ptr s (l₁ ++ o :: l₂) t ↔ Path ptr s l₁ o ∧ o ≠ 0 ∧ Path ptr o l₂ t := by
  induction l₁ generalizing s with
  | nil => exact Iff.rfl
  | cons a l₁ ih => simp only [List.cons_append, Path, ih, and_assoc]

theorem path_congr (h : ∀ x ∈ s :: l, ptr' x = ptr x) (hp : Path ptr s l t) :
    Path ptr' s l t := by
  induction l generalizing s with
  | nil => exact (h s (by simp)).trans hp
  | cons a l ih =>
    obtain ⟨h₁, h₂, h₃⟩ := hp
    refine ⟨(h s (by simp)).trans h₁, h₂, ih (fun x hx => h x ?_) h₃⟩
    exact List.mem_cons_of_mem s hx

theorem path_last (hp : Path ptr s l t) : ptr (l.getLastD s) = t := by
  induction l generalizing s with
  | nil => exact hp
  | cons a l ih =>
    rw [List.getLastD_cons]
    exact ih hp.2.2

theorem linked_congr (h : ∀ x ∈ s :: l, ptr' x = ptr x) (hl : Linked ptr s l) :
    Linked ptr' s l := path_congr h hl

theorem linked_ne_zero (hl : Linked ptr s l) {x : ℕ} (hx : x ∈ l) : x ≠ 0 := by
  induction l generalizing s with
  | nil => cases hx
  | cons a l ih =>
    rcases List.mem_cons.mp hx with rfl | hx
    · exact hl.2.1
    · exact ih hl.2.2 hx

theorem linked_unique (h₁ : Linked ptr s l₁) (h₂ : Linked ptr s l₂) : l₁ = l₂ := by
  induction l₁ generalizing s l₂ with
  | nil =>
    cases l₂ with
    | nil => rfl
    | cons b l₂ => exact absurd (h₂.1.symm.trans h₁) h₂.2.1
  | cons a l₁ ih =>
    cases l₂ with
    | nil => exact absurd (h₁.1.symm.trans h₂) h₁.2.1
    | cons b l₂ =>
      obtain rfl : a = b := h₁.1.symm.trans h₂.1
      rw [ih h₁.2.2 h₂.2.2]

theorem linked_suffix (h : Linked ptr s (l₁ ++ o :: l₂)) : Linked ptr o l₂ :=
  (path_append.mp h).2.2

theorem linked_head_notMem (h : Linked ptr s l) : s ∉ l := by
  intro hs
  obtain ⟨l₁, l₂, rfl⟩ := List.mem_iff_append.mp hs
  have he := congrArg List.length (linked_unique h (linked_suffix h))
  simp only [List.length_append, List.length_cons] at he
  omega

theorem linked_nodup (h : Linked ptr s l) : l.Nodup := by
  induction l generalizing s with
  | nil => exact List.nodup_nil
  | cons a l ih => exact List.nodup_cons.mpr ⟨linked_head_notMem h.2.2, ih h.2.2⟩

theorem getLastD_mem (l : List ℕ) (s : ℕ) : l.getLastD s ∈ s :: l := by
  rw [List.getLastD_eq_getLast?]
  cases hl : l.getLast? with
  | none => exact List.mem_cons_self
  | some b => exact List.mem_cons_of_mem s (List.mem_of_getLast? hl)

theorem ne_getLastD {x : ℕ} (hs : x ≠ s) (hx : x ∉ l₁) : x ≠ l₁.getLastD s := by
  rintro rfl
  rcases List.mem_cons.mp (getLastD_mem l₁ s) with hp | hp
  · exact hs hp
  · exact hx hp

theorem mem_remove (hnd : (l₁ ++ o :: l₂).Nodup) {x : ℕ} (hx : x ∈ l₁ ++ l₂) :
    x ∈ l₁ ++ o :: l₂ ∧ x ≠ o := by
  constructor
  · rcases List.mem_append.mp hx with hx | hx
    · exact List.mem_append_left _ hx
    · exact List.mem_append_right _ (List.mem_cons_of_mem o hx)
  · rintro rfl
    exact (List.nodup_middle.mp hnd).notMem hx

/-- Unlinking: the predecessor takes over the pointer of the removed address. -/
theorem linked_remove (h : Linked ptr s (l₁ ++ o :: l₂)) (hp : ptr' (l₁.getLastD s) = ptr o)
    (hrest : ∀ x ∈ s :: (l₁ ++ l₂), x ≠ l₁.getLastD s → ptr' x = ptr x) :
    Linked ptr' s (l₁ ++ l₂) := by
  induction l₁ generalizing s with
  | nil =>
    have hs : s ∉ o :: l₂ := linked_head_notMem h
    have hcongr : ∀ x ∈ l₂, ptr' x = ptr x := by
      intro x hx
      refine hrest x (List.mem_cons_of_mem s hx) ?_
      rintro rfl
      exact hs (List.mem_cons_of_mem o hx)
    obtain ⟨-, -, h⟩ := h
    cases l₂ with
    | nil => exact hp.trans h
    | cons b l₂ => exact ⟨hp.trans h.1, h.2.1, path_congr hcongr h.2.2⟩
  | cons a l₁ ih =>
    rw [List.getLastD_cons] at hp hrest
    have hs : s ≠ l₁.getLastD a := by
      intro he
      refine linked_head_notMem h ?_
      rw [List.cons_append, ← List.cons_append]
      refine List.mem_append_left _ ?_
      rw [he]
      exact getLastD_mem l₁ a
    obtain ⟨h₁, h₂, h₃⟩ := h
    refine ⟨(hrest s (by simp) hs).trans h₁, h₂, ih h₃ hp fun x hx => hrest x ?_⟩
    exact List.mem_cons_of_mem s hx

/-- Linking in front: the new address takes over the head's pointer. -/
theorem linked_push (h : Linked ptr s l) (ho : o ≠ 0) (hs : ptr' s = o) (hn : ptr' o = ptr s)
    (hrest : ∀ x ∈ l, ptr' x = ptr x) : Linked ptr' s (o :: l) := by
  refine ⟨hs, ho, ?_⟩
  cases l with
  | nil => exact hn.trans h
  | cons a l => exact ⟨hn.trans h.1, h.2.1, path_congr hrest h.2.2⟩

end LinkedChains
