import LinuxProgramming.CStrings
import Mathlib.Computability.StateTransition

/-! # Deterministic machines over a byte memory

The memory is a function of the address, so that what was never written has some value that
nothing is known about. Runs are those of `StateTransition`: a machine ends where its step
function gives nothing. -/
namespace ByteMachines

open CStrings StateTransition

/-! ## Memory -/

abbrev Memory := ℕ → Byte

namespace Memory

def write (m : Memory) (a : ℕ) (bs : List Byte) : Memory := fun k =>
  if a ≤ k ∧ k < a + bs.length then bs.getD (k - a) 0 else m k

def slice (m : Memory) (a n : ℕ) : List Byte := (List.range n).map fun k => m (a + k)

/-- The bytes stand in memory from `a` on. -/
def Holds (m : Memory) (a : ℕ) (s : List Byte) : Prop := m.slice a s.length = s

variable {m : Memory} {a b n : ℕ} {s t : List Byte}

@[simp] theorem length_slice (m : Memory) (a n : ℕ) : (m.slice a n).length = n := by simp [slice]

theorem slice_zero (m : Memory) (a : ℕ) : m.slice a 0 = [] := rfl

theorem slice_succ (m : Memory) (a n : ℕ) : m.slice a (n + 1) = m a :: m.slice (a + 1) n := by
  simp only [slice, List.range_succ_eq_map, List.map_cons, List.map_map, Nat.add_zero]
  congr 1
  apply List.map_congr_left
  intro k _
  simp only [Function.comp_apply, Nat.succ_eq_add_one]
  congr 1
  omega

theorem slice_add (m : Memory) (a n k : ℕ) : m.slice a (n + k) = m.slice a n ++ m.slice (a + n) k := by
  induction n generalizing a with
  | zero => simp [slice_zero]
  | succ n ih =>
    rw [Nat.succ_add, slice_succ, slice_succ, ih, List.cons_append, Nat.add_assoc, Nat.add_comm 1]

theorem holds_cons {c : Byte} : m.Holds a (c :: s) ↔ m a = c ∧ m.Holds (a + 1) s := by
  rw [Holds, List.length_cons, slice_succ, List.cons.injEq]
  rfl

theorem holds_append : m.Holds a (s ++ t) ↔ m.Holds a s ∧ m.Holds (a + s.length) t := by
  rw [Holds, List.length_append, slice_add]
  constructor
  · intro h
    exact List.append_inj h (by simp)
  · intro h
    rw [show m.slice a s.length = s from h.1, show m.slice (a + s.length) t.length = t from h.2]

theorem Holds.slice_drop (h : m.Holds a s) (hb : b + n ≤ s.length) :
    m.slice (a + b) n = (s.drop b).take n := by
  have hlen : s.length = b + (n + (s.length - (b + n))) := by omega
  have hs : m.slice a s.length = s := h
  rw [hlen, slice_add, slice_add] at hs
  rw [← hs, List.drop_left' (by simp), List.take_left' (by simp)]

theorem Holds.get {k : ℕ} (h : m.Holds a s) (hk : k < s.length) : m (a + k) = s[k] := by
  have hk' : k < (m.slice a s.length).length := by rwa [length_slice]
  have hget : (m.slice a s.length)[k] = m (a + k) := by simp [slice]
  rw [← hget]
  exact List.getElem_of_eq h hk'

theorem write_of_lt {bs : List Byte} {k : ℕ} (h : k < a) : m.write a bs k = m k :=
  if_neg fun hk => absurd hk.1 (by omega)

theorem write_of_ge {bs : List Byte} {k : ℕ} (h : a + bs.length ≤ k) : m.write a bs k = m k :=
  if_neg fun hk => absurd hk.2 (by omega)

theorem slice_congr {m' : Memory} (h : ∀ k, a ≤ k → k < a + n → m' k = m k) :
    m'.slice a n = m.slice a n := by
  apply List.map_congr_left
  intro k hk
  rw [List.mem_range] at hk
  exact h (a + k) (by omega) (by omega)

theorem holds_write_self (m : Memory) (a : ℕ) (s : List Byte) : (m.write a s).Holds a s := by
  apply List.ext_getElem (by simp)
  intro k h₁ h₂
  simp only [slice, List.getElem_map, List.getElem_range, write]
  rw [if_pos (by omega), Nat.add_sub_cancel_left, List.getD_eq_getElem?_getD,
    List.getElem?_eq_getElem h₂, Option.getD_some]

theorem Holds.write {bs : List Byte} (h : m.Holds a s)
    (hd : b + bs.length ≤ a ∨ a + s.length ≤ b) : (m.write b bs).Holds a s := by
  rw [Holds, slice_congr, h]
  intro k hk hk'
  rcases hd with hd | hd
  · exact write_of_ge (by omega)
  · exact write_of_lt (by omega)

end Memory

/-! ## Runs -/

section Runs

variable {σ : Type*} {f : σ → Option σ} {s t : σ}

theorem reaches_step (h : f s = some t) : Reaches f s t := Relation.ReflTransGen.single h

/-- A loop of `n` turns. -/
theorem reaches_turns {g : ℕ → σ} {n : ℕ} (h : ∀ k < n, Reaches f (g k) (g (k + 1))) :
    Reaches f (g 0) (g n) := by
  induction n with
  | zero => exact .refl
  | succ n ih => exact (ih fun k hk => h k (by omega)).trans (h n (by omega))

theorem reaches_invariant {I : σ → Prop} (h : Reaches f s t) (hs : I s)
    (hstep : ∀ s t, I s → f s = some t → I t) : I t := by
  induction h with
  | refl => exact hs
  | tail _ hbc ih => exact hstep _ _ ih hbc

theorem reaches_final (hs : f s = none) (h : Reaches f s t) : t = s := by
  rcases Relation.ReflTransGen.cases_head h with rfl | ⟨u, hu, -⟩
  · rfl
  · rw [Option.mem_def, hs] at hu
    cases hu

theorem final_unique {a : σ} (hs : Reaches f a s) (ht : Reaches f a t) (hs' : f s = none)
    (ht' : f t = none) : s = t := by
  rcases reaches_total hs ht with h | h
  · exact (reaches_final hs' h).symm
  · exact reaches_final ht' h

/-- Every step does `done` or makes the work that is left smaller. -/
theorem ends_of_work {β : Type*} [Preorder β] [WellFoundedLT β] (work : σ → β) {I done : σ → Prop}
    (hstep : ∀ s, I s → done s ∨ ∃ t, f s = some t ∧ (done t ∨ I t ∧ work t < work s)) (hs : I s) :
    ∃ t, Reaches f s t ∧ done t := by
  induction h : work s using WellFoundedLT.induction generalizing s with
  | ind b ih =>
    subst h
    rcases hstep s hs with hdone | ⟨t, ht, hdone | ⟨hI, hlt⟩⟩
    · exact ⟨s, .refl, hdone⟩
    · exact ⟨t, reaches_step ht, hdone⟩
    · obtain ⟨u, hu, hdone⟩ := ih (work t) hlt hI rfl
      exact ⟨u, (reaches_step ht).trans hu, hdone⟩

end Runs

end ByteMachines
