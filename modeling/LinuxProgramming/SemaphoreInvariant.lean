import LinuxProgramming.SemaphorePackage
import Mathlib.Algebra.Order.BigOperators.Group.Finset
import Mathlib.Algebra.Order.Group.Int
import Mathlib.Data.Fintype.BigOperators

/-! # The counter and the lock of a semaphore set

A step of a process adds numbers to the counter [1] and to the lock [2] of a set and takes
the same numbers from its own adjustments, or it is one of the two `SETVAL`s or the making
of a new set. What is added to the counter is what leaves the process's opens. -/
set_option linter.unusedSectionVars false

namespace SemaphoreInvariant

open Interleaving SysVSemaphores SemaphorePackage Function

variable {ι : Type*} [DecidableEq ι] [Fintype ι]

/-- The opens that have been counted and neither closed nor undone. -/
def count (s : Shared ι) (id : SemId) : ℤ := ∑ p, (s.opens p id : ℤ)

/-- Nobody has set the counter yet. -/
structure Unset (s : Shared ι) (id : SemId) (set : SemSet) : Prop where
  zero : set.val 1 = 0
  unopened : ∀ p, s.opens p id = 0
  unmarked : s.marks id = .none

def Counted (s : Shared ι) (id : SemId) (set : SemSet) : Prop :=
  set.val 1 = bigCount - count s id

structure SetOK (s : Shared ι) (id : SemId) (set : SemSet) : Prop where
  counter : Unset s id set ∨ Counted s id set
  adj_opens : ∀ p, s.kernel.adj p id 1 = s.opens p id
  adj_lock : ∀ p, s.kernel.adj p id 2 = 0 ∨ s.kernel.adj p id 2 = -1
  lock : set.val 2 = -∑ p, s.kernel.adj p id 2
  lock_le : set.val 2 ≤ 1

structure SharedOK (s : Shared ι) : Prop where
  sets : ∀ id set, s.kernel.sets id = some set → SetOK s id set
  unused : ∀ id, s.kernel.fresh ≤ id → s.kernel.sets id = none ∧ s.marks id = .none ∧
    ∀ p, s.opens p id = 0 ∧ ∀ m, s.kernel.adj p id m = 0

def initialising (id : SemId) : Pc → Bool
  | .createSetval0 _ i | .createSetval1 i => i = id
  | _ => false

theorem inside_of_initialising {id : SemId} {pc : Pc} (h : initialising id pc = true) :
    pc.inside id = true := by
  cases pc with
  | createSetval0 _ i => exact h
  | createSetval1 i => exact h
  | _ => cases h

structure ThreadOK (s : Shared ι) (p : ι) (pc : Pc) : Prop where
  lock : ∀ id set, s.kernel.sets id = some set →
    s.kernel.adj p id 2 = if pc.inside id then -1 else 0
  unset : ∀ id set, s.kernel.sets id = some set → initialising id pc = true → Unset s id set
  known : ∀ id, pc.inside id = true → id < s.kernel.fresh
  closing : ∀ id, pc = .closeOp id → 0 < s.opens p id

theorem sum_change {f g : ι → ℤ} (p : ι) (h : ∀ q, q ≠ p → g q = f q) :
    ∑ q, g q = ∑ q, f q - f p + g p := by
  have hg := Finset.add_sum_erase Finset.univ g (Finset.mem_univ p)
  have hf := Finset.add_sum_erase Finset.univ f (Finset.mem_univ p)
  have he : ∑ q ∈ Finset.univ.erase p, g q = ∑ q ∈ Finset.univ.erase p, f q :=
    Finset.sum_congr rfl fun q hq => h q (Finset.ne_of_mem_erase hq)
  omega

theorem SharedOK.known {s : Shared ι} (h : SharedOK s) {id : SemId} {set : SemSet}
    (hs : s.kernel.sets id = some set) : id < s.kernel.fresh := by
  by_contra hlt
  rw [(h.unused id (Nat.not_lt.mp hlt)).1] at hs
  cases hs

theorem SharedOK.ne_of_unused {s : Shared ι} (h : SharedOK s) {id i : SemId} {set : SemSet}
    (hs : s.kernel.sets id = some set) (hi : s.kernel.fresh ≤ i) : i ≠ id :=
  Nat.ne_of_gt (Nat.lt_of_lt_of_le (h.known hs) hi)

/-- Process `p` adds `x₁` to the counter and `x₂` to the lock of the set. -/
structure Moves (s s' : Shared ι) (p : ι) (id : SemId) (set set' : SemSet) (x₁ x₂ : ℤ) :
    Prop where
  val₁ : set'.val 1 = set.val 1 + x₁
  val₂ : set'.val 2 = set.val 2 + x₂
  adj₁ : s'.kernel.adj p id 1 = s.kernel.adj p id 1 - x₁
  adj₂ : s'.kernel.adj p id 2 = s.kernel.adj p id 2 - x₂
  opens : (s'.opens p id : ℤ) = s.opens p id - x₁
  adj_other : ∀ q, q ≠ p → ∀ m, m ≠ 0 → s'.kernel.adj q id m = s.kernel.adj q id m
  opens_other : ∀ q, q ≠ p → s'.opens q id = s.opens q id
  counted : x₁ ≠ 0 → Counted s id set
  marks : s'.marks id = s.marks id ∨ Counted s id set

section Moves

variable {s s' : Shared ι} {p : ι} {id : SemId} {set set' : SemSet} {x₁ x₂ : ℤ}

theorem Unset.not_counted (h : Unset s id set) : ¬ Counted s id set := by
  intro hc
  have hcount : count s id = 0 := by simp [count, h.unopened]
  rw [Counted, hcount, h.zero] at hc
  exact absurd hc (by decide)

theorem Unset.moves (h : Unset s id set) (hm : Moves s s' p id set set' x₁ x₂) :
    Unset s' id set' := by
  have hx : x₁ = 0 := by
    by_contra hx
    exact h.not_counted (hm.counted hx)
  have hmarks : s'.marks id = s.marks id := hm.marks.resolve_right h.not_counted
  refine ⟨by rw [hm.val₁, h.zero, hx]; rfl, fun q => ?_, by rw [hmarks, h.unmarked]⟩
  by_cases hq : q = p
  · subst q
    have := hm.opens
    rw [h.unopened p, hx] at this
    omega
  · rw [hm.opens_other q hq, h.unopened q]

theorem Counted.moves (h : Counted s id set) (hm : Moves s s' p id set set' x₁ x₂) :
    Counted s' id set' := by
  have hcount : count s' id = count s id - s.opens p id + s'.opens p id :=
    sum_change p fun q hq => by rw [hm.opens_other q hq]
  rw [Counted, hm.val₁, h, hcount, hm.opens]
  omega

theorem SetOK.moves (h : SetOK s id set) (hm : Moves s s' p id set set' x₁ x₂)
    (hlock : s'.kernel.adj p id 2 = 0 ∨ s'.kernel.adj p id 2 = -1) (hle : set'.val 2 ≤ 1) :
    SetOK s' id set' := by
  refine ⟨h.counter.imp (·.moves hm) (·.moves hm), fun q => ?_, fun q => ?_, ?_, hle⟩
  · by_cases hq : q = p
    · subst q
      rw [hm.adj₁, hm.opens, h.adj_opens]
    · rw [hm.adj_other q hq 1 (by decide), hm.opens_other q hq, h.adj_opens]
  · by_cases hq : q = p
    · subst q
      exact hlock
    · rw [hm.adj_other q hq 2 (by decide)]
      exact h.adj_lock q
  · have hsum := sum_change (f := fun q => s.kernel.adj q id 2)
      (g := fun q => s'.kernel.adj q id 2) p fun q hq => hm.adj_other q hq 2 (by decide)
    rw [hsum, hm.val₂, h.lock, hm.adj₂]
    omega

theorem moves_untouched (hadj : ∀ q m, m ≠ 0 → s'.kernel.adj q id m = s.kernel.adj q id m)
    (hopens : ∀ q, s'.opens q id = s.opens q id) (hmarks : s'.marks id = s.marks id)
    (hval : ∀ m, m ≠ 0 → set'.val m = set.val m) : Moves s s' p id set set' 0 0 where
  val₁ := by rw [hval 1 (by decide), Int.add_zero]
  val₂ := by rw [hval 2 (by decide), Int.add_zero]
  adj₁ := by rw [hadj p 1 (by decide), Int.sub_zero]
  adj₂ := by rw [hadj p 2 (by decide), Int.sub_zero]
  opens := by rw [hopens p, Int.sub_zero]
  adj_other q _ m hm := hadj q m hm
  opens_other q _ := hopens q
  counted h := absurd rfl h
  marks := Or.inl hmarks

theorem SetOK.untouched (h : SetOK s id set) (p : ι)
    (hadj : ∀ q, s'.kernel.adj q id = s.kernel.adj q id)
    (hopens : ∀ q, s'.opens q id = s.opens q id) (hmarks : s'.marks id = s.marks id) :
    SetOK s' id set := by
  refine h.moves (moves_untouched (p := p) (fun q m _ => ?_) hopens hmarks fun _ _ => rfl) ?_
    h.lock_le
  · rw [hadj q]
  · rw [hadj p]
    exact h.adj_lock p

end Moves

/-- Every set that exists after the step existed before and was moved by `p`. -/
structure Step (s s' : Shared ι) (p : ι) : Prop where
  sets : ∀ id set', s'.kernel.sets id = some set' → ∃ set x₁ x₂, s.kernel.sets id = some set ∧
    Moves s s' p id set set' x₁ x₂ ∧
    (s'.kernel.adj p id 2 = 0 ∨ s'.kernel.adj p id 2 = -1) ∧ set'.val 2 ≤ 1
  fresh : s'.kernel.fresh = s.kernel.fresh
  unused : ∀ id, s.kernel.fresh ≤ id → s'.kernel.sets id = none ∧ s'.marks id = .none ∧
    ∀ q, s'.opens q id = 0 ∧ ∀ m, s'.kernel.adj q id m = 0
  opens_other : ∀ q, q ≠ p → s'.opens q = s.opens q

section Step

variable {s s' : Shared ι} {p : ι}

theorem SharedOK.untouched (h : SharedOK s) (p : ι) {id : SemId} {set : SemSet}
    (hs : s.kernel.sets id = some set) (hadj : ∀ q, s'.kernel.adj q id = s.kernel.adj q id)
    (hopens : ∀ q, s'.opens q id = s.opens q id) (hmarks : s'.marks id = s.marks id) :
    ∃ set₀ x₁ x₂, s.kernel.sets id = some set₀ ∧ Moves s s' p id set₀ set x₁ x₂ ∧
      (s'.kernel.adj p id 2 = 0 ∨ s'.kernel.adj p id 2 = -1) ∧ set.val 2 ≤ 1 := by
  have hok := h.sets id set hs
  refine ⟨set, 0, 0, hs, moves_untouched (fun q m _ => ?_) hopens hmarks fun _ _ => rfl, ?_,
    hok.lock_le⟩
  · rw [hadj q]
  · rw [hadj p]
    exact hok.adj_lock p

theorem SharedOK.step (h : SharedOK s) (hst : Step s s' p) : SharedOK s' := by
  refine ⟨fun id set' hset => ?_, fun id hid => hst.unused id (by rwa [hst.fresh] at hid)⟩
  obtain ⟨set, x₁, x₂, hs, hm, hlock, hle⟩ := hst.sets id set' hset
  exact (h.sets id set hs).moves hm hlock hle

theorem ThreadOK.step {q : ι} {pc : Pc} (h : ThreadOK s q pc) (hq : q ≠ p) (hst : Step s s' p) :
    ThreadOK s' q pc := by
  refine ⟨fun id set' hset => ?_, fun id set' hset hinit => ?_, fun id hin => ?_, fun id hpc => ?_⟩
  · obtain ⟨set, x₁, x₂, hs, hm, -⟩ := hst.sets id set' hset
    rw [hm.adj_other q hq 2 (by decide), h.lock id set hs]
  · obtain ⟨set, x₁, x₂, hs, hm, -⟩ := hst.sets id set' hset
    exact (h.unset id set hs hinit).moves hm
  · rw [hst.fresh]
    exact h.known id hin
  · rw [hst.opens_other q hq]
    exact h.closing id hpc

theorem step_same (h : SharedOK s) : Step s s p where
  sets _ _ hset := h.untouched p hset (fun _ => rfl) (fun _ => rfl) rfl
  fresh := rfl
  unused := h.unused
  opens_other _ _ := rfl

theorem SetOK.lock_without {id : SemId} {set : SemSet} (h : SetOK s id set) (p : ι) :
    0 ≤ set.val 2 + s.kernel.adj p id 2 := by
  have hsum := Finset.add_sum_erase Finset.univ (fun q => s.kernel.adj q id 2) (Finset.mem_univ p)
  have hle : ∑ q ∈ Finset.univ.erase p, s.kernel.adj q id 2 ≤ 0 := by
    apply Finset.sum_nonpos
    intro q _
    rcases h.adj_lock q with hq | hq <;> omega
  rw [h.lock]
  omega

theorem opens_le_count (s : Shared ι) (p : ι) (id : SemId) : (s.opens p id : ℤ) ≤ count s id :=
  Finset.single_le_sum (f := fun q => (s.opens q id : ℤ)) (fun _ _ => Int.natCast_nonneg _)
    (Finset.mem_univ p)

theorem clamp_eq {v : ℤ} (h₀ : 0 ≤ v) (h : v ≤ semvmx) : clamp v = v := by
  rw [clamp, min_eq_left h, max_eq_right h₀]

theorem moves_leave {id : SemId} {set : SemSet} (h : SetOK s id set)
    (hfew : count s id < bigCount) :
    Moves s (s.leave p) p id set
      { set with val := fun m => clamp (set.val m + s.kernel.adj p id m) }
      (s.kernel.adj p id 1) (s.kernel.adj p id 2) := by
  have hadj := h.adj_opens p
  have hopens := opens_le_count s p id
  have hval : 0 ≤ set.val 1 + s.kernel.adj p id 1 ∧ set.val 1 + s.kernel.adj p id 1 ≤ semvmx ∧
      (s.kernel.adj p id 1 ≠ 0 → Counted s id set) := by
    rcases h.counter with hu | hc
    · rw [hadj, hu.zero, hu.unopened p]
      exact ⟨by decide, by decide, fun h => absurd rfl h⟩
    · have hv := hc
      rw [Counted] at hv
      simp only [bigCount, semvmx] at *
      exact ⟨by omega, by omega, fun _ => hc⟩
  have hlock := h.lock_without p
  have hle := h.lock_le
  have hadj₂ := h.adj_lock p
  refine ⟨clamp_eq hval.1 hval.2.1, clamp_eq hlock (by simp only [semvmx]; omega), ?_, ?_, ?_, ?_, ?_,
    hval.2.2, Or.inl rfl⟩
  · simp [Shared.leave, Kernel.exit]
  · simp [Shared.leave, Kernel.exit]
  · simp [Shared.leave, hadj]
  · intro q hq m _
    simp [Shared.leave, Kernel.exit, update_of_ne hq]
  · intro q hq
    simp [Shared.leave, update_of_ne hq]

theorem step_leave (h : SharedOK s) (hfew : ∀ id, count s id < bigCount) :
    Step s (s.leave p) p where
  sets id set' hset := by
    obtain ⟨set, hs, rfl⟩ := Option.map_eq_some_iff.mp hset
    have hok := h.sets id set hs
    have hm := moves_leave (p := p) hok (hfew id)
    have hzero : (s.leave p).kernel.adj p id 2 = 0 := by simp [Shared.leave, Kernel.exit]
    refine ⟨set, _, _, hs, hm, Or.inl hzero, ?_⟩
    have := hok.lock_le
    rw [hm.val₂]
    rcases hok.adj_lock p with ha | ha <;> omega
  fresh := rfl
  unused id hid := by
    obtain ⟨hnone, hmarks, hp⟩ := h.unused id hid
    refine ⟨by simp [Shared.leave, Kernel.exit, hnone], hmarks, fun q => ?_⟩
    by_cases hq : q = p
    · subst q
      simp [Shared.leave, Kernel.exit]
    · simpa [Shared.leave, Kernel.exit, update_of_ne hq] using hp q
  opens_other q hq := by simp [Shared.leave, update_of_ne hq]

/-- A `semop` that went through; `s'` may differ from the performed state in the opens and
in what has been created. -/
structure Performed (s s' : Shared ι) (p : ι) (id : SemId) (set : SemSet) (val : ℕ → ℤ)
    (ops : List Sembuf) : Prop where
  kernel : s'.kernel = (s.perform p id set val ops).kernel
  opens : (s'.opens p id : ℤ) = s.opens p id - total ops 1
  opens_own : ∀ i, i ≠ id → s'.opens p i = s.opens p i
  opens_other : ∀ q, q ≠ p → s'.opens q = s.opens q
  marks : s'.marks id = s.marks id ∨ Counted s id set
  marks_other : ∀ i, i ≠ id → s'.marks i = s.marks i

section Performed

variable {id : SemId} {set : SemSet} {val : ℕ → ℤ} {ops : List Sembuf}

theorem Performed.sets_self (hp : Performed s s' p id set val ops) :
    s'.kernel.sets id = some { set with val := val } := by
  rw [hp.kernel]
  simp [Shared.perform, Kernel.setVal, Kernel.setAdj]

theorem Performed.sets_other (hp : Performed s s' p id set val ops) {i : SemId} (hi : i ≠ id) :
    s'.kernel.sets i = s.kernel.sets i := by
  rw [hp.kernel]
  simp [Shared.perform, Kernel.setVal, Kernel.setAdj, update_of_ne hi]

theorem Performed.adj_self (hp : Performed s s' p id set val ops)
    (hundo : ∀ b ∈ ops, b.undo = true ∨ b.op = 0) (m : ℕ) :
    s'.kernel.adj p id m = s.kernel.adj p id m - total ops m := by
  rw [hp.kernel, ← undone_total hundo]
  simp [Shared.perform, Kernel.setVal, Kernel.setAdj]

theorem Performed.adj_other (hp : Performed s s' p id set val ops) {q : ι} {i : SemId}
    (h : q ≠ p ∨ i ≠ id) : s'.kernel.adj q i = s.kernel.adj q i := by
  rw [hp.kernel]
  by_cases hq : q = p
  · subst q
    have hi : i ≠ id := h.resolve_left (absurd rfl)
    simp [Shared.perform, Kernel.setVal, Kernel.setAdj, update_of_ne hi]
  · simp [Shared.perform, Kernel.setVal, Kernel.setAdj, update_of_ne hq]

theorem Performed.opens_at (hp : Performed s s' p id set val ops) {i : SemId} (hi : i ≠ id)
    (q : ι) : s'.opens q i = s.opens q i := by
  by_cases hq : q = p
  · subst q
    exact hp.opens_own i hi
  · rw [hp.opens_other q hq]

theorem Performed.step (hp : Performed s s' p id set val ops) (h : SharedOK s)
    (hs : s.kernel.sets id = some set) (hval : semop set.val ops = .done val)
    (hundo : ∀ b ∈ ops, b.undo = true ∨ b.op = 0) (hcounted : total ops 1 ≠ 0 → Counted s id set)
    (hlock : s'.kernel.adj p id 2 = 0 ∨ s'.kernel.adj p id 2 = -1)
    (hle : set.val 2 + total ops 2 ≤ 1) : Step s s' p where
  sets i set' hset := by
    by_cases hi : i = id
    · subst hi
      rw [hp.sets_self] at hset
      cases hset
      refine ⟨set, total ops 1, total ops 2, hs, ?_, hlock, ?_⟩
      · exact ⟨semop_total hval 1, semop_total hval 2, hp.adj_self hundo 1, hp.adj_self hundo 2,
          hp.opens, fun q hq m _ => by rw [hp.adj_other (Or.inl hq)],
          fun q hq => by rw [hp.opens_other q hq], hcounted, hp.marks⟩
      · change val 2 ≤ 1
        rw [semop_total hval 2]
        exact hle
    · rw [hp.sets_other hi] at hset
      exact h.untouched p hset (fun q => hp.adj_other (Or.inr hi)) (hp.opens_at hi)
        (hp.marks_other i hi)
  fresh := by rw [hp.kernel]; rfl
  unused i hi := by
    obtain ⟨hnone, hmarks, hq⟩ := h.unused i hi
    have hne := h.ne_of_unused hs hi
    refine ⟨by rw [hp.sets_other hne, hnone], by rw [hp.marks_other i hne, hmarks], fun q => ?_⟩
    rw [hp.opens_at hne q, hp.adj_other (Or.inr hne)]
    exact hq q
  opens_other := hp.opens_other

end Performed

theorem step_setval0 (h : SharedOK s) {id : SemId} {set : SemSet}
    (hs : s.kernel.sets id = some set) (v : ℤ) :
    Step s { s with kernel := s.kernel.setval id set 0 v } p where
  sets i set' hset := by
    by_cases hi : i = id
    · subst hi
      obtain rfl := Option.some.inj ((Kernel.sets_setval_self ..).symm.trans hset)
      have hok := h.sets i set hs
      have hadj : ∀ q m, m ≠ 0 → (s.kernel.setval i set 0 v).adj q i m = s.kernel.adj q i m :=
        fun q m hm => Kernel.adj_setval_member _ _ _ _ _ hm q i
      have hval : ∀ m, m ≠ 0 → Function.update set.val 0 v m = set.val m :=
        fun m hm => update_of_ne hm _ _
      refine ⟨set, 0, 0, hs, moves_untouched hadj (fun _ => rfl) rfl hval, ?_, ?_⟩
      · exact (hadj p 2 (by decide)).symm ▸ hok.adj_lock p
      · exact (hval 2 (by decide)).symm ▸ hok.lock_le
    · rw [Kernel.sets_setval_of_ne _ _ _ _ _ hi] at hset
      exact h.untouched p hset (Kernel.adj_setval_of_ne _ _ _ _ _ hi) (fun _ => rfl) rfl
  fresh := rfl
  unused i hi := by
    obtain ⟨hnone, hmarks, hq⟩ := h.unused i hi
    have hne := h.ne_of_unused hs hi
    simpa [Kernel.setval, Kernel.setVal, update_of_ne hne] using ⟨hnone, hmarks, hq⟩
  opens_other _ _ := rfl

theorem step_rmid (h : SharedOK s) {id : SemId} {set : SemSet}
    (hs : s.kernel.sets id = some set) :
    Step s { s with kernel := s.kernel.rmid id set } p where
  sets i set' hset := by
    by_cases hi : i = id
    · subst hi
      simp at hset
    · rw [Kernel.sets_rmid_of_ne _ _ _ hi] at hset
      exact h.untouched p hset (Kernel.adj_rmid_of_ne _ _ _ hi) (fun _ => rfl) rfl
  fresh := rfl
  unused i hi := by
    obtain ⟨hnone, hmarks, hq⟩ := h.unused i hi
    have hne := h.ne_of_unused hs hi
    simpa [Kernel.rmid, update_of_ne hne] using ⟨hnone, hmarks, hq⟩
  opens_other _ _ := rfl

end Step

section Threads

variable {s s' : Shared ι} {p : ι} {pc pc' : Pc}

theorem SetOK.exclusive {id : SemId} {set : SemSet} (h : SetOK s id set) {q : ι}
    (hp : s.kernel.adj p id 2 = -1) (hq : s.kernel.adj q id 2 = -1) : q = p := by
  by_contra hne
  have hsum := Finset.add_sum_erase Finset.univ (fun r => s.kernel.adj r id 2) (Finset.mem_univ p)
  have hmem : q ∈ Finset.univ.erase p := Finset.mem_erase.mpr ⟨hne, Finset.mem_univ q⟩
  have hsum' := Finset.add_sum_erase _ (fun r => s.kernel.adj r id 2) hmem
  have hle : ∑ r ∈ (Finset.univ.erase p).erase q, s.kernel.adj r id 2 ≤ 0 := by
    apply Finset.sum_nonpos
    intro r _
    rcases h.adj_lock r with hr | hr <;> omega
  have := h.lock
  have := h.lock_le
  omega

theorem ThreadOK.goes (h : ThreadOK s p pc) (hin : ∀ id, pc'.inside id = pc.inside id)
    (hunset : ∀ id set, s.kernel.sets id = some set → initialising id pc' = true → Unset s id set)
    (hclose : ∀ id, pc' = .closeOp id → 0 < s.opens p id) : ThreadOK s p pc' := by
  refine ⟨fun id set hs => ?_, hunset, fun id hid => ?_, hclose⟩
  · rw [hin]
    exact h.lock id set hs
  · rw [hin] at hid
    exact h.known id hid

theorem threadOK_left : ThreadOK (s.leave p) p .exited := by
  refine ⟨fun id set _ => ?_, fun id set _ h => ?_, fun id h => ?_, fun id h => ?_⟩
  · simp [Shared.leave, Kernel.exit, Pc.inside]
  · simp [initialising] at h
  · simp [Pc.inside] at h
  · cases h

theorem ThreadOK.performed {id : SemId} {set : SemSet} {val : ℕ → ℤ} {ops : List Sembuf}
    (h : ThreadOK s p pc) (hok : SharedOK s) (hs : s.kernel.sets id = some set)
    (hp : Performed s s' p id set val ops) (hundo : ∀ b ∈ ops, b.undo = true ∨ b.op = 0)
    (hself : (if pc'.inside id then -1 else 0) = (if pc.inside id then -1 else 0) - total ops 2)
    (hother : ∀ i, i ≠ id → pc'.inside i = pc.inside i)
    (hinit : ∀ i, initialising i pc' = false) (hclose : ∀ i, pc' ≠ .closeOp i) :
    ThreadOK s' p pc' := by
  have hfresh : s'.kernel.fresh = s.kernel.fresh := by rw [hp.kernel]; rfl
  refine ⟨fun i set' hset => ?_, fun i set' _ hi => ?_, fun i hi => ?_,
    fun i hi => absurd hi (hclose i)⟩
  · by_cases hi : i = id
    · subst i
      rw [hp.adj_self hundo, h.lock id set hs, hself]
    · rw [hp.sets_other hi] at hset
      rw [hp.adj_other (Or.inr hi), h.lock i set' hset, hother i hi]
  · rw [hinit i] at hi
    cases hi
  · rw [hfresh]
    by_cases hid : i = id
    · subst i
      exact hok.known hs
    · rw [hother i hid] at hi
      exact h.known i hi

/-- What a step of `p` to the control point `pc'` leaves behind. -/
structure Keeps (s s' : Shared ι) (p : ι) (pc' : Pc) : Prop where
  shared : SharedOK s'
  own : ThreadOK s' p pc'
  other : ∀ q pc, q ≠ p → ThreadOK s q pc → ThreadOK s' q pc

theorem Step.keeps (hst : Step s s' p) (h : SharedOK s) (hown : ThreadOK s' p pc') :
    Keeps s s' p pc' :=
  ⟨h.step hst, hown, fun _ _ hq ht => ht.step hq hst⟩

theorem keeps_left (h : SharedOK s) (hfew : ∀ id, count s id < bigCount) :
    Keeps s (s.leave p) p .exited :=
  (step_leave h hfew).keeps h threadOK_left

theorem keeps_same (h : SharedOK s) (hown : ThreadOK s p pc') : Keeps s s p pc' :=
  (step_same h).keeps h hown

/-- A step that only moves the control point, to one that owes nothing new. -/
theorem keeps_quiet (h : SharedOK s) (ht : ThreadOK s p pc)
    (hin : ∀ id, pc'.inside id = pc.inside id) (hinit : ∀ id, initialising id pc' = false)
    (hclose : ∀ id, pc' ≠ .closeOp id) : Keeps s s p pc' := by
  refine keeps_same h (ht.goes hin (fun id set _ hi => ?_) fun id hi => absurd hi (hclose id))
  rw [hinit id] at hi
  cases hi

section NewSet

variable {key : Key}

theorem ThreadOK.new_set (h : SharedOK s) (ht : ThreadOK s p pc)
    (hkey : s.kernel.byKey key = none) :
    ThreadOK { s with kernel := (s.kernel.semget key).1 } p pc := by
  obtain ⟨-, -, hzero⟩ := h.unused s.kernel.fresh (Nat.le_refl _)
  simp only [Kernel.semget, hkey]
  refine ⟨fun i set hset => ?_, fun i set hset hi => ?_, fun i hi => ?_, ht.closing⟩
  · by_cases hi : i = s.kernel.fresh
    · subst i
      have hout : pc.inside s.kernel.fresh = false := by
        by_contra hin
        exact absurd (ht.known _ (Bool.of_not_eq_false hin)) (Nat.lt_irrefl _)
      rw [hout]
      exact (hzero p).2 2
    · simp only [update_of_ne hi] at hset
      exact ht.lock i set hset
  · have hne : i ≠ s.kernel.fresh := Nat.ne_of_lt (ht.known i (inside_of_initialising hi))
    simp only [update_of_ne hne] at hset
    obtain ⟨hz, hopens, hmarks⟩ := ht.unset i set hset hi
    exact ⟨hz, hopens, hmarks⟩
  · exact Nat.lt_succ_of_lt (ht.known i hi)

theorem SharedOK.new_set (h : SharedOK s) (p : ι) (hkey : s.kernel.byKey key = none) :
    SharedOK { s with kernel := (s.kernel.semget key).1 } := by
  obtain ⟨-, hmarks, hzero⟩ := h.unused s.kernel.fresh (Nat.le_refl _)
  simp only [Kernel.semget, hkey]
  refine ⟨fun i set hset => ?_, fun i hi => ?_⟩
  · by_cases hi : i = s.kernel.fresh
    · subst i
      simp only [update_self, Option.some.injEq] at hset
      subst hset
      refine ⟨Or.inl ⟨rfl, fun q => (hzero q).1, hmarks⟩, fun q => ?_, fun q => ?_, ?_,
        Int.one_nonneg⟩
      · change s.kernel.adj q s.kernel.fresh 1 = s.opens q s.kernel.fresh
        rw [(hzero q).2 1, (hzero q).1]
        rfl
      · exact Or.inl ((hzero q).2 2)
      · simp [fun q => (hzero q).2 2]
    · simp only [update_of_ne hi] at hset
      exact (h.sets i set hset).untouched p (fun _ => rfl) (fun _ => rfl) rfl
  · have hne : i ≠ s.kernel.fresh := by
      rintro rfl
      exact absurd hi (Nat.not_succ_le_self _)
    have := h.unused i (Nat.le_of_succ_le hi)
    simpa only [update_of_ne hne] using this

end NewSet

theorem keeps_semget (h : SharedOK s) (ht : ThreadOK s p pc) (key : Key)
    (hin : ∀ id, pc'.inside id = pc.inside id) (hinit : ∀ id, initialising id pc' = false)
    (hclose : ∀ id, pc' ≠ .closeOp id) :
    Keeps s { s with kernel := (s.kernel.semget key).1 } p pc' := by
  have hquiet := keeps_quiet h ht hin hinit hclose
  cases hkey : s.kernel.byKey key with
  | some id =>
    simp only [Kernel.semget, hkey]
    exact hquiet
  | none => exact ⟨h.new_set p hkey, hquiet.own.new_set h hkey, fun _ _ _ hq => hq.new_set h hkey⟩

section Setval

variable {id : SemId} {set : SemSet}

theorem ThreadOK.setval1 (h : ThreadOK s p pc) (hs : s.kernel.sets id = some set)
    (hinit : initialising id pc = false) :
    ThreadOK { s with kernel := s.kernel.setval id set 1 bigCount } p pc := by
  refine ⟨fun i set' hset => ?_, fun i set' hset hi => ?_, h.known, h.closing⟩
  · rw [Kernel.adj_setval_member _ _ _ _ _ (by decide)]
    by_cases hi : i = id
    · subst i
      exact h.lock id set hs
    · rw [Kernel.sets_setval_of_ne _ _ _ _ _ hi] at hset
      exact h.lock i set' hset
  · have hne : i ≠ id := by
      rintro rfl
      rw [hinit] at hi
      cases hi
    rw [Kernel.sets_setval_of_ne _ _ _ _ _ hne] at hset
    obtain ⟨hz, hopens, hmarks⟩ := h.unset i set' hset hi
    exact ⟨hz, hopens, hmarks⟩

/-- The counter starts at its full value when nobody has opened the set. -/
theorem SharedOK.setval1 (h : SharedOK s) (p : ι) (hs : s.kernel.sets id = some set)
    (hunset : Unset s id set) :
    SharedOK { s with kernel := s.kernel.setval id set 1 bigCount } := by
  have hok := h.sets id set hs
  have hadj : ∀ q, (s.kernel.setval id set 1 bigCount).adj q id 2 = s.kernel.adj q id 2 :=
    fun q => Kernel.adj_setval_member _ _ _ _ _ (by decide) q id
  refine ⟨fun i set' hset => ?_, fun i hi => ?_⟩
  · by_cases hi : i = id
    · subst i
      obtain rfl := Option.some.inj ((Kernel.sets_setval_self ..).symm.trans hset)
      refine ⟨Or.inr ?_, fun q => ?_, fun q => ?_, ?_, hok.lock_le⟩
      · simp [Counted, count, hunset.unopened]
      · simp [hunset.unopened q]
      · rw [hadj q]
        exact hok.adj_lock q
      · simp only [hadj]
        exact hok.lock
    · rw [Kernel.sets_setval_of_ne _ _ _ _ _ hi] at hset
      exact (h.sets i set' hset).untouched p (Kernel.adj_setval_of_ne _ _ _ _ _ hi)
        (fun _ => rfl) rfl
  · have hne := h.ne_of_unused hs hi
    have hold := h.unused i hi
    refine ⟨(Kernel.sets_setval_of_ne _ _ _ _ _ hne).trans hold.1, hold.2.1, fun q => ?_⟩
    rw [Kernel.adj_setval_of_ne _ _ _ _ _ hne]
    exact hold.2.2 q

theorem keeps_setval1 (h : SharedOK s) (hs : s.kernel.sets id = some set)
    (ht : ThreadOK s p (.createSetval1 id)) :
    Keeps s { s with kernel := s.kernel.setval id set 1 bigCount } p (.createEnd id) := by
  have hunset := ht.unset id set hs (by simp [initialising])
  have hmine : s.kernel.adj p id 2 = -1 := by
    have := ht.lock id set hs
    simpa [Pc.inside] using this
  have hown : ThreadOK s p (.createEnd id) :=
    ht.goes (fun _ => rfl) (fun _ _ _ hi => by cases hi) fun _ hi => by cases hi
  refine ⟨h.setval1 p hs hunset, hown.setval1 hs rfl, fun q c hq hc => hc.setval1 hs ?_⟩
  -- two processes would hold the lock
  by_contra hinit
  have hin := inside_of_initialising (Bool.of_not_eq_false hinit)
  have hyours : s.kernel.adj q id 2 = -1 := by
    rw [hc.lock id set hs, hin]
    rfl
  exact hq ((h.sets id set hs).exclusive hmine hyours)

end Setval

end Threads

end SemaphoreInvariant
