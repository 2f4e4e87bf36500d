import Mathlib.Data.List.Nodup
import LinuxProgramming.Descriptors

/-! # Open files that are accounted for

Each file that is opened gets a serial number of its own, whatever descriptor it is on. The numbers of
the files that have been closed are kept, and every number handed out is either among them or still in
the table. -/
namespace OpenFiles

open Descriptors Function

structure Files (α : Type*) where
  table : Table (ℕ × α)
  bound : ℕ
  opened : ℕ
  closed : List ℕ
  finite : ∀ fd, bound ≤ fd → table fd = none
  live : ∀ fd n a, table fd = some (n, a) → n < opened ∧ n ∉ closed
  one : ∀ fd fd' n a a', table fd = some (n, a) → table fd' = some (n, a') → fd = fd'
  once : closed.Nodup
  past : ∀ n ∈ closed, n < opened
  accounted : ∀ n, n < opened → n ∈ closed ∨ ∃ fd a, table fd = some (n, a)

namespace Files

variable {α : Type*}

def fresh (s : Files α) : ℕ := (lowestFree (s.bound + 1) s.table).getD s.bound

theorem table_fresh (s : Files α) : s.table s.fresh = none := by
  unfold fresh
  cases h : lowestFree (s.bound + 1) s.table with
  | none => exact s.finite _ le_rfl
  | some fd => exact (lowestFree_eq_some h).2

def openFile (s : Files α) (a : α) : Files α where
  table := Function.update s.table s.fresh (some (s.opened, a))
  bound := max s.bound (s.fresh + 1)
  opened := s.opened + 1
  closed := s.closed
  finite fd hfd := by
    rw [update_of_ne (by omega)]
    exact s.finite fd (by omega)
  live fd n b h := by
    by_cases hfd : fd = s.fresh
    · rw [hfd, update_self] at h
      obtain ⟨rfl, -⟩ := Prod.mk.inj (Option.some.inj h)
      exact ⟨Nat.lt_succ_self _, fun hn => Nat.lt_irrefl _ (s.past _ hn)⟩
    · rw [update_of_ne hfd] at h
      exact ⟨Nat.lt_succ_of_lt (s.live fd n b h).1, (s.live fd n b h).2⟩
  one fd fd' n b b' h h' := by
    by_cases hfd : fd = s.fresh <;> by_cases hfd' : fd' = s.fresh
    · rw [hfd, hfd']
    · rw [hfd, update_self] at h
      rw [update_of_ne hfd'] at h'
      obtain ⟨rfl, -⟩ := Prod.mk.inj (Option.some.inj h)
      exact absurd (s.live fd' _ b' h').1 (Nat.lt_irrefl _)
    · rw [update_of_ne hfd] at h
      rw [hfd', update_self] at h'
      obtain ⟨rfl, -⟩ := Prod.mk.inj (Option.some.inj h')
      exact absurd (s.live fd _ b h).1 (Nat.lt_irrefl _)
    · rw [update_of_ne hfd] at h
      rw [update_of_ne hfd'] at h'
      exact s.one fd fd' n b b' h h'
  once := s.once
  past n hn := Nat.lt_succ_of_lt (s.past n hn)
  accounted n hn := by
    obtain hn | rfl := Nat.lt_succ_iff_lt_or_eq.mp hn
    · refine (s.accounted n hn).imp_right ?_
      rintro ⟨fd, b, hfd⟩
      have hne : fd ≠ s.fresh := by
        rintro rfl
        simp [s.table_fresh] at hfd
      exact ⟨fd, b, by rw [update_of_ne hne]; exact hfd⟩
    · exact .inr ⟨s.fresh, a, update_self ..⟩

def closeOpen (s : Files α) (fd n : ℕ) (a : α) (h : s.table fd = some (n, a)) : Files α where
  table := close s.table fd
  bound := s.bound
  opened := s.opened
  closed := n :: s.closed
  finite i hi := by
    by_cases hfd : i = fd
    · rw [hfd, close_self]
    · rw [close_of_ne hfd]
      exact s.finite i hi
  live i m b hb := by
    obtain ⟨hne, hb⟩ := close_eq_some.mp hb
    refine ⟨(s.live i m b hb).1, ?_⟩
    rw [List.mem_cons, not_or]
    refine ⟨?_, (s.live i m b hb).2⟩
    rintro rfl
    exact hne (s.one i fd m b a hb h)
  one i j m b b' hb hb' := s.one i j m b b' (close_eq_some.mp hb).2 (close_eq_some.mp hb').2
  once := List.nodup_cons.mpr ⟨(s.live fd n a h).2, s.once⟩
  past m hm := by
    obtain rfl | hm := List.mem_cons.mp hm
    · exact (s.live fd m a h).1
    · exact s.past m hm
  accounted m hm := by
    by_cases hmn : m = n
    · exact .inl (hmn ▸ List.mem_cons_self)
    · refine (s.accounted m hm).imp (List.mem_cons_of_mem _) ?_
      rintro ⟨i, b, hb⟩
      refine ⟨i, b, close_eq_some.mpr ⟨?_, hb⟩⟩
      rintro rfl
      exact hmn (Prod.mk.inj (Option.some.inj (hb.symm.trans h))).1

def closeFd (s : Files α) (fd : ℕ) : Option (Files α) :=
  match h : s.table fd with
  | none => none
  | some (n, a) => some (s.closeOpen fd n a h)

theorem closeFd_of_open {s : Files α} {fd n : ℕ} {a : α} (h : s.table fd = some (n, a)) :
    ∃ t, s.closeFd fd = some t ∧ t.table = close s.table fd := by
  unfold closeFd
  split
  · rename_i hnone
    simp [hnone] at h
  · exact ⟨_, rfl, rfl⟩

@[simp] theorem table_closeFd (s : Files α) (fd : ℕ) :
    ((s.closeFd fd).getD s).table = close s.table fd := by
  unfold closeFd
  split
  · rename_i hnone
    exact (update_eq_self_iff.mpr hnone.symm).symm
  · rfl

@[simp] theorem opened_closeFd (s : Files α) (fd : ℕ) : ((s.closeFd fd).getD s).opened = s.opened := by
  unfold closeFd
  split <;> rfl

/-- When the table is as before, every file opened since has been closed, and only once. -/
theorem closed_of_same_table {s t : Files α} (h : t.table = s.table) {n : ℕ} (hs : s.opened ≤ n)
    (ht : n < t.opened) : n ∈ t.closed := by
  refine (t.accounted n ht).resolve_right ?_
  rintro ⟨fd, a, hfd⟩
  rw [h] at hfd
  exact absurd (s.live fd n a hfd).1 (Nat.not_lt.mpr hs)

end Files

end OpenFiles
