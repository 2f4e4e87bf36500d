import LinuxProgramming.SyscallPrograms

/-! # Weakest preconditions of a program run alone

Total correctness: a program may return or abort, each with its own condition on the
files it leaves, and it may not hang. -/
namespace SoloRuns

open CStrings ByteFiles SyscallPrograms

variable {φ ε α β : Type} [DecidableEq φ]

/-- The outcome returns with `Q` or aborts with `E`. -/
def Meets (Q : α → (φ → List Byte) → Prop) (E : ε → (φ → List Byte) → Prop) :
    Outcome φ ε α → Prop
  | .done a fs => Q a fs
  | .aborted e fs => E e fs
  | .hung _ => False

@[irreducible] def wp (p : Prog φ ε α) (Q : α → (φ → List Byte) → Prop) (E : ε → (φ → List Byte) → Prop)
    (fs : φ → List Byte) : Prop := Meets Q E (p.run fs)

variable {Q Q' : α → (φ → List Byte) → Prop} {E E' : ε → (φ → List Byte) → Prop}
  {fs : φ → List Byte}

theorem wp_ret {a : α} (h : Q a fs) : wp (.ret a) Q E fs := by
  unfold wp at *
  exact h

theorem wp_abort {e : ε} (h : E e fs) : wp (.abort e) Q E fs := by
  unfold wp at *
  exact h

theorem wp_lock {fd : φ} {m : LockMode} {s l : ℕ} {k : Prog φ ε α} (h : wp k Q E fs) :
    wp (.lock fd m s l k) Q E fs := by
  unfold wp at *
  exact h

theorem wp_unlock {fd : φ} {s l : ℕ} {k : Prog φ ε α} (h : wp k Q E fs) :
    wp (.unlock fd s l k) Q E fs := by
  unfold wp at *
  exact h

theorem wp_read {fd : φ} {o n : ℕ} {k : List Byte → Prog φ ε α}
    (h : wp (k (pread (fs fd) o n)) Q E fs) : wp (.read fd o n k) Q E fs := by
  unfold wp at *
  exact h

theorem wp_write {fd : φ} {o : ℕ} {bs : List Byte} {k : Prog φ ε α}
    (h : wp k Q E (Function.update fs fd (pwrite (fs fd) o bs))) :
    wp (.write fd o bs k) Q E fs := by
  unfold wp at *
  exact h

theorem wp_size {fd : φ} {k : ℕ → Prog φ ε α} (h : wp (k (fs fd).length) Q E fs) :
    wp (.size fd k) Q E fs := by
  unfold wp at *
  exact h

theorem wp_truncate {fd : φ} {k : Prog φ ε α} (h : wp k Q E (Function.update fs fd [])) :
    wp (.truncate fd k) Q E fs := by
  unfold wp at *
  exact h

theorem wp_mono {p : Prog φ ε α} (h : wp p Q E fs) (hQ : ∀ a fs', Q a fs' → Q' a fs')
    (hE : ∀ e fs', E e fs' → E' e fs') : wp p Q' E' fs := by
  unfold wp at *
  cases hr : p.run fs with
  | done a fs' =>
    rw [hr] at h
    exact hQ a fs' h
  | aborted e fs' =>
    rw [hr] at h
    exact hE e fs' h
  | hung fs' =>
    rw [hr] at h
    exact h.elim

theorem wp_done {p : Prog φ ε α} {a : α} {fs' : φ → List Byte} (h : wp p Q E fs)
    (hr : p.run fs = .done a fs') : Q a fs' := by
  unfold wp at h
  rwa [hr] at h

theorem wp_aborted {p : Prog φ ε α} {e : ε} {fs' : φ → List Byte} (h : wp p Q E fs)
    (hr : p.run fs = .aborted e fs') : E e fs' := by
  unfold wp at h
  rwa [hr] at h

theorem wp_returns {p : Prog φ ε α} (h : wp p Q (fun _ _ => False) fs) :
    ∃ a fs', p.run fs = .done a fs' ∧ Q a fs' := by
  unfold wp at h
  cases hr : p.run fs with
  | done a fs' =>
    rw [hr] at h
    exact ⟨a, fs', rfl, h⟩
  | aborted e fs' =>
    rw [hr] at h
    exact h.elim
  | hung fs' =>
    rw [hr] at h
    exact h.elim

theorem wp_bind {Q : β → (φ → List Byte) → Prop} {p : Prog φ ε α} {f : α → Prog φ ε β}
    (h : wp p (fun a fs' => wp (f a) Q E fs') E fs) : wp (p >>= f) Q E fs := by
  unfold wp at *
  rw [run_bind]
  cases hr : p.run fs with
  | done a fs' =>
    rw [hr] at h
    exact h
  | aborted e fs' =>
    rw [hr] at h
    exact h
  | hung fs' =>
    rw [hr] at h
    exact h.elim

theorem wp_ite {c : Prop} [Decidable c] {x y : Prog φ ε α} (hx : c → wp x Q E fs)
    (hy : ¬ c → wp y Q E fs) : wp (if c then x else y) Q E fs := by
  split
  · exact hx ‹_›
  · exact hy ‹_›

theorem wp_if_pos {c : Prop} [Decidable c] {x y : Prog φ ε α} (hc : c) (hx : wp x Q E fs) :
    wp (if c then x else y) Q E fs := by
  rwa [if_pos hc]

theorem wp_if_neg {c : Prop} [Decidable c] {x y : Prog φ ε α} (hc : ¬ c) (hy : wp y Q E fs) :
    wp (if c then x else y) Q E fs := by
  rwa [if_neg hc]

end SoloRuns
