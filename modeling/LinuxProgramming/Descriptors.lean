import Mathlib.Data.List.Range
import Mathlib.Logic.Function.Basic

/-! # Descriptor tables

A table says which file each descriptor refers to. A new descriptor is the lowest free one. -/
namespace Descriptors

open Function

variable {α : Type*}

abbrev Table (α : Type*) := ℕ → Option α

def close (t : Table α) (fd : ℕ) : Table α := Function.update t fd none

/-- `fd2` refers to the file of `fd`; a file it referred to before is closed. -/
def dup2 (t : Table α) (fd fd2 : ℕ) : Table α := Function.update t fd2 (t fd)

def lowestFree (maxfd : ℕ) (t : Table α) : Option ℕ := (List.range maxfd).find? fun fd => (t fd).isNone

def openLowest (maxfd : ℕ) (t : Table α) (a : α) : Option (ℕ × Table α) :=
  (lowestFree maxfd t).map fun fd => (fd, Function.update t fd (some a))

/-- A loop over the descriptors below `maxfd` that closes those `p` holds of. -/
def sweep (maxfd : ℕ) (p : ℕ → Bool) (t : Table α) : Table α :=
  (List.range maxfd).foldl (fun t fd => if p fd then close t fd else t) t

@[simp] theorem close_self (t : Table α) (fd : ℕ) : close t fd fd = none := update_self ..

theorem close_of_ne {t : Table α} {fd i : ℕ} (h : i ≠ fd) : close t fd i = t i :=
  update_of_ne h ..

theorem close_eq_some {t : Table α} {fd i : ℕ} {a : α} :
    close t fd i = some a ↔ i ≠ fd ∧ t i = some a := by
  by_cases h : i = fd
  · simp [h]
  · simp [close_of_ne h, h]

@[simp] theorem dup2_self (t : Table α) (fd fd2 : ℕ) : dup2 t fd fd2 fd2 = t fd :=
  update_self ..

theorem dup2_of_ne {t : Table α} {fd fd2 i : ℕ} (h : i ≠ fd2) : dup2 t fd fd2 i = t i :=
  update_of_ne h ..

theorem lowestFree_eq_some {maxfd fd : ℕ} {t : Table α} (h : lowestFree maxfd t = some fd) :
    fd < maxfd ∧ t fd = none := by
  have hfree : (t fd).isNone = true := List.find?_some (p := fun fd => (t fd).isNone) h
  exact ⟨List.mem_range.mp (List.mem_of_find?_eq_some h), Option.isNone_iff_eq_none.mp hfree⟩

theorem openLowest_eq_some {maxfd fd : ℕ} {t t' : Table α} {a : α}
    (h : openLowest maxfd t a = some (fd, t')) :
    fd < maxfd ∧ t fd = none ∧ t' = Function.update t fd (some a) := by
  obtain ⟨i, hi, heq⟩ := Option.map_eq_some_iff.mp h
  obtain ⟨rfl, rfl⟩ := Prod.mk.inj heq
  exact ⟨(lowestFree_eq_some hi).1, (lowestFree_eq_some hi).2, rfl⟩

theorem sweep_apply (maxfd : ℕ) (p : ℕ → Bool) (t : Table α) (i : ℕ) :
    sweep maxfd p t i = if i < maxfd ∧ p i = true then none else t i := by
  unfold sweep
  induction maxfd with
  | zero => simp
  | succ n ih =>
    rw [List.range_succ, List.foldl_append, List.foldl_cons, List.foldl_nil]
    generalize (List.range n).foldl (fun t fd => if p fd then close t fd else t) t = u at ih ⊢
    by_cases hin : i = n
    · subst hin
      cases hp : p i with
      | true => simp
      | false => simpa [hp] using ih
    · have hlt : i < n + 1 ↔ i < n := by omega
      simp only [hlt]
      rw [← ih]
      split
      · exact close_of_ne hin
      · rfl

end Descriptors
