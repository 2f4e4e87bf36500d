import Mathlib.Logic.Function.Basic
import Mathlib.Data.Int.Order.Basic
import Mathlib.Tactic.Common

/-! # System V semaphore sets

The part of the kernel behind `semget`, `semop` and `semctl`. Every process has an
adjustment for every member of every set; `SEM_UNDO` operations change it and the exit
of the process adds it to the member. Identifiers are never used again. -/
namespace SysVSemaphores

open Function

abbrev Key := ℤ
abbrev SemId := ℕ

def semvmx : ℤ := 32767

structure Sembuf where
  num : ℕ
  op : ℤ
  undo : Bool
  deriving DecidableEq, Repr

structure SemSet where
  key : Key
  val : ℕ → ℤ

structure Kernel (ι : Type*) where
  byKey : Key → Option SemId
  sets : SemId → Option SemSet
  fresh : SemId
  adj : ι → SemId → ℕ → ℤ

/-- What an array of operations does to the values of a set. -/
inductive Semop where
  | done (val : ℕ → ℤ)
  | wait
  | range

def semop (val : ℕ → ℤ) : List Sembuf → Semop
  | [] => .done val
  | b :: bs =>
    if b.op = 0 then
      if val b.num = 0 then semop val bs else .wait
    else if val b.num + b.op < 0 then .wait
    else if val b.num + b.op > semvmx then .range
    else semop (Function.update val b.num (val b.num + b.op)) bs

def undone (adj : ℕ → ℤ) : List Sembuf → ℕ → ℤ
  | [] => adj
  | b :: bs =>
    undone (if b.undo then Function.update adj b.num (adj b.num - b.op) else adj) bs

def clamp (v : ℤ) : ℤ := max 0 (min v semvmx)

def total : List Sembuf → ℕ → ℤ
  | [], _ => 0
  | b :: bs, m => (if b.num = m then b.op else 0) + total bs m

theorem semop_cons {v val : ℕ → ℤ} {b : Sembuf} {bs : List Sembuf}
    (h : semop v (b :: bs) = .done val) :
    (b.op = 0 → v b.num = 0) ∧ 0 ≤ v b.num + b.op ∧
      semop (Function.update v b.num (v b.num + b.op)) bs = .done val := by
  rw [semop] at h
  by_cases hop : b.op = 0
  · by_cases hz : v b.num = 0
    · have hv : Function.update v b.num (v b.num + b.op) = v := by
        rw [hop, Int.add_zero, update_eq_self]
      rw [if_pos hop, if_pos hz] at h
      exact ⟨fun _ => hz, by omega, by rw [hv]; exact h⟩
    · rw [if_pos hop, if_neg hz] at h
      cases h
  · rw [if_neg hop] at h
    split at h
    · cases h
    · rename_i hneg
      split at h
      · cases h
      · exact ⟨fun hz => absurd hz hop, by omega, h⟩

theorem semop_total {v val : ℕ → ℤ} {ops : List Sembuf} (h : semop v ops = .done val) (m : ℕ) :
    val m = v m + total ops m := by
  induction ops generalizing v with
  | nil =>
    cases h
    simp [total]
  | cons b bs ih =>
    have h' := ih (semop_cons h).2.2
    by_cases hm : b.num = m
    · subst hm
      rw [h', update_self, total, if_pos rfl]
      omega
    · rw [h', update_of_ne (Ne.symm hm), total, if_neg hm, Int.zero_add]

theorem undone_total {adj : ℕ → ℤ} {ops : List Sembuf} (h : ∀ b ∈ ops, b.undo = true ∨ b.op = 0)
    (m : ℕ) : undone adj ops m = adj m - total ops m := by
  induction ops generalizing adj with
  | nil => simp [undone, total]
  | cons b bs ih =>
    rw [undone, ih (fun c hc => h c (by simp [hc])), total]
    by_cases hm : b.num = m
    · subst hm
      rcases h b (by simp) with hu | hz
      · simp only [hu, if_true, update_self]
        omega
      · cases hb : b.undo <;> simp [hz]
    · cases hb : b.undo
      · simp [hm]
      · simp [hm, update_of_ne (Ne.symm hm)]

variable {ι : Type*} [DecidableEq ι]

namespace Kernel

def initial : Kernel ι := ⟨fun _ => none, fun _ => none, 0, fun _ _ _ => 0⟩

def setVal (k : Kernel ι) (id : SemId) (s : SemSet) (val : ℕ → ℤ) : Kernel ι :=
  { k with sets := Function.update k.sets id (some { s with val := val }) }

def setAdj (k : Kernel ι) (p : ι) (id : SemId) (a : ℕ → ℤ) : Kernel ι :=
  { k with adj := Function.update k.adj p (Function.update (k.adj p) id a) }

/-- `semget` with `IPC_CREAT`; the members of a new set are 0. -/
def semget (k : Kernel ι) (key : Key) : Kernel ι × SemId :=
  match k.byKey key with
  | some id => (k, id)
  | none =>
    ({ k with
        byKey := Function.update k.byKey key (some k.fresh)
        sets := Function.update k.sets k.fresh (some ⟨key, fun _ => 0⟩)
        fresh := k.fresh + 1 }, k.fresh)

/-- `SETVAL` also clears the adjustments of that member in all processes. -/
def setval (k : Kernel ι) (id : SemId) (s : SemSet) (m : ℕ) (v : ℤ) : Kernel ι :=
  { k.setVal id s (Function.update s.val m v) with
    adj := fun p => Function.update (k.adj p) id (Function.update (k.adj p id) m 0) }

def rmid (k : Kernel ι) (id : SemId) (s : SemSet) : Kernel ι :=
  { k with
    byKey := Function.update k.byKey s.key none
    sets := Function.update k.sets id none
    adj := fun p => Function.update (k.adj p) id fun _ => 0 }

def exit (k : Kernel ι) (p : ι) : Kernel ι :=
  { k with
    sets := fun id => (k.sets id).map fun s =>
      { s with val := fun m => clamp (s.val m + k.adj p id m) }
    adj := Function.update k.adj p fun _ _ => 0 }

section Changes

omit [DecidableEq ι]

variable (k : Kernel ι) (id : SemId) (s : SemSet) (m : ℕ) (v : ℤ)

@[simp] theorem sets_setval_self :
    (k.setval id s m v).sets id = some { s with val := Function.update s.val m v } :=
  update_self ..

theorem sets_setval_of_ne {i : SemId} (h : i ≠ id) : (k.setval id s m v).sets i = k.sets i :=
  update_of_ne h ..

theorem adj_setval_of_ne {i : SemId} (h : i ≠ id) (p : ι) :
    (k.setval id s m v).adj p i = k.adj p i :=
  update_of_ne h ..

@[simp] theorem adj_setval_self (p : ι) : (k.setval id s m v).adj p id m = 0 := by
  simp [setval]

theorem adj_setval_member {n : ℕ} (h : n ≠ m) (p : ι) (i : SemId) :
    (k.setval id s m v).adj p i n = k.adj p i n := by
  by_cases hi : i = id
  · subst i
    simp [setval, update_of_ne h]
  · rw [adj_setval_of_ne k id s m v hi]

@[simp] theorem sets_rmid_self : (k.rmid id s).sets id = none :=
  update_self ..

theorem sets_rmid_of_ne {i : SemId} (h : i ≠ id) : (k.rmid id s).sets i = k.sets i :=
  update_of_ne h ..

theorem adj_rmid_of_ne {i : SemId} (h : i ≠ id) (p : ι) : (k.rmid id s).adj p i = k.adj p i :=
  update_of_ne h ..

end Changes

end Kernel

end SysVSemaphores
