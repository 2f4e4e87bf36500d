import Mathlib.Logic.Function.Basic
import Mathlib.Data.Option.Basic
import Mathlib.Order.WellFounded
import Mathlib.Tactic.Common

/-! # Runs of machines and of interleaved threads

A machine is a step function that may refuse an action. Threads act one at a time on a
shared state, each with a local state of its own. -/
namespace Interleaving

section Runs

variable {σ α : Type*} {next : σ → α → Option σ} {ok ok' : σ → α → Prop}

/-- Runs whose steps all meet `ok`. -/
inductive Run (next : σ → α → Option σ) (ok : σ → α → Prop) : σ → σ → Prop
  | refl (s : σ) : Run next ok s s
  | tail {s t u : σ} {a : α} : Run next ok s t → ok t a → next t a = some u → Run next ok s u

def anyStep : σ → α → Prop := fun _ _ => True

theorem Run.invariant {I : σ → Prop} {s t : σ} (h : Run next ok s t) (hs : I s)
    (hstep : ∀ t a u, I t → ok t a → next t a = some u → I u) : I t := by
  induction h with
  | refl => exact hs
  | tail _ hok hnext ih => exact hstep _ _ _ ih hok hnext

theorem Run.mono {s t : σ} (h : Run next ok s t) (hok : ∀ s a, ok s a → ok' s a) :
    Run next ok' s t := by
  induction h with
  | refl => exact .refl _
  | tail _ ha hnext ih => exact ih.tail (hok _ _ ha) hnext

theorem Run.trans {s t u : σ} (h : Run next ok s t) (h' : Run next ok t u) :
    Run next ok s u := by
  induction h' with
  | refl => exact h
  | tail _ ha hnext ih => exact ih.tail ha hnext

def follow (next : σ → α → Option σ) (s : σ) : List α → Option σ
  | [] => some s
  | a :: as => (next s a).bind fun t => follow next t as

theorem follow_run {s t : σ} (as : List α) (h : follow next s as = some t) :
    Run next anyStep s t := by
  induction as generalizing s with
  | nil =>
    cases h
    exact .refl _
  | cons a as ih =>
    obtain ⟨u, hu, h⟩ := Option.bind_eq_some_iff.mp h
    exact (Run.tail (.refl s) trivial hu).trans (ih h)

/-- The state a list of actions leads to when each one is allowed where it is taken. -/
def followAllowed (allowed : σ → α → Bool) (next : σ → α → Option σ) (s : σ) : List α → Option σ
  | [] => some s
  | a :: as => if allowed s a then (next s a).bind fun t => followAllowed allowed next t as else none

theorem followAllowed_run {allowed : σ → α → Bool} {s t : σ} (as : List α)
    (h : followAllowed allowed next s as = some t) :
    Run next (fun s a => allowed s a = true) s t := by
  induction as generalizing s with
  | nil =>
    cases h
    exact .refl _
  | cons a as ih =>
    simp only [followAllowed] at h
    split at h
    · obtain ⟨u, hu, h⟩ := Option.bind_eq_some_iff.mp h
      exact (Run.tail (.refl s) ‹_› hu).trans (ih h)
    · cases h

theorem followAllowed_reaches (allowed : σ → α → Bool) (next : σ → α → Option σ) (s : σ)
    (as : List α) (p : σ → Bool) (h : (followAllowed allowed next s as).any p = true) :
    ∃ t, Run next (fun s a => allowed s a = true) s t ∧ p t = true := by
  cases ht : followAllowed allowed next s as with
  | none =>
    rw [ht] at h
    cases h
  | some t =>
    rw [ht] at h
    exact ⟨t, followAllowed_run as ht, h⟩

/-- Whichever steps that meet `ok` are taken, they come to an end, and only where `done` holds. -/
inductive Finishes (next : σ → α → Option σ) (ok : σ → α → Prop) (done : σ → Prop) : σ → Prop
  | intro (s : σ) (hends : done s ∨ ∃ a t, ok s a ∧ next s a = some t)
      (hsteps : ∀ a t, ok s a → next s a = some t → Finishes next ok done t) :
      Finishes next ok done s

theorem Finishes.mono {done done' : σ → Prop} {s : σ} (h : Finishes next ok done s)
    (hdone : ∀ s, done s → done' s) : Finishes next ok done' s := by
  induction h with
  | intro s hends _ ih => exact .intro s (hends.imp_left (hdone s)) ih

/-- Every step makes the work that is left smaller, and there is one unless `done` holds. -/
theorem finishes_of_work {β : Type*} [Preorder β] [WellFoundedLT β] (work : σ → β) {I done : σ → Prop}
    (hends : ∀ s, I s → done s ∨ ∃ a t, ok s a ∧ next s a = some t)
    (hsteps : ∀ s a t, I s → ok s a → next s a = some t → I t ∧ work t < work s) {s : σ} (hs : I s) :
    Finishes next ok done s := by
  induction h : work s using WellFoundedLT.induction generalizing s with
  | ind b ih =>
    subst h
    refine .intro s (hends s hs) fun a t ha ht => ?_
    obtain ⟨hI, hlt⟩ := hsteps s a t hs ha ht
    exact ih (work t) hlt hI rfl

end Runs

section Threads

variable {ι σ τ β : Type*} [DecidableEq ι]

structure World (ι σ τ : Type*) where
  shared : σ
  thread : ι → τ

variable {act : σ → ι → τ → β → Option (σ × τ)}

def World.next (act : σ → ι → τ → β → Option (σ × τ)) (w : World ι σ τ) (a : ι × β) :
    Option (World ι σ τ) :=
  (act w.shared a.1 (w.thread a.1) a.2).map fun r =>
    ⟨r.1, Function.update w.thread a.1 r.2⟩

/-- The world after a step of thread `i`. -/
def after (w : World ι σ τ) (i : ι) (s' : σ) (t' : τ) : World ι σ τ :=
  ⟨s', Function.update w.thread i t'⟩

section After

variable {w : World ι σ τ} {i j : ι} {s' : σ} {t' : τ}

theorem thread_after_self : (after w i s' t').thread i = t' := Function.update_self _ _ _

theorem thread_after_other (h : j ≠ i) : (after w i s' t').thread j = w.thread j :=
  Function.update_of_ne h _ _

theorem after_cases (w : World ι σ τ) (i : ι) (s' : σ) (t' : τ) (j : ι) :
    j = i ∧ (after w i s' t').thread j = t' ∨
    j ≠ i ∧ (after w i s' t').thread j = w.thread j := by
  by_cases hj : j = i
  · exact .inl ⟨hj, hj ▸ thread_after_self⟩
  · exact .inr ⟨hj, thread_after_other hj⟩

end After

theorem next_eq_some {w w' : World ι σ τ} {i : ι} {b : β} :
    w.next act (i, b) = some w' ↔ ∃ s' t', act w.shared i (w.thread i) b = some (s', t') ∧
      w' = after w i s' t' := by
  simp only [World.next, Option.map_eq_some_iff, Prod.exists]
  constructor
  · rintro ⟨s', t', h, rfl⟩
    exact ⟨s', t', h, rfl⟩
  · rintro ⟨s', t', h, rfl⟩
    exact ⟨s', t', h, rfl⟩

/-- A fact about the shared state and a fact about each thread. -/
structure Threadwise (G : σ → Prop) (L : σ → ι → τ → Prop) (w : World ι σ τ) : Prop where
  shared : G w.shared
  thread : ∀ i, L w.shared i (w.thread i)

/-- The acting thread keeps its own fact and disturbs nobody else's. -/
theorem Threadwise.next {G : σ → Prop} {L : σ → ι → τ → Prop} {w w' : World ι σ τ} {i : ι}
    {b : β} (h : Threadwise G L w) (hnext : w.next act (i, b) = some w')
    (hown : ∀ s' t', act w.shared i (w.thread i) b = some (s', t') → G s' ∧ L s' i t')
    (hother : ∀ s' t', act w.shared i (w.thread i) b = some (s', t') → ∀ j, j ≠ i →
      L w.shared j (w.thread j) → L s' j (w.thread j)) : Threadwise G L w' := by
  obtain ⟨s', t', hact, rfl⟩ := next_eq_some.mp hnext
  obtain ⟨hG, hL⟩ := hown s' t' hact
  refine ⟨hG, fun j => ?_⟩
  obtain ⟨rfl, he⟩ | ⟨hj, he⟩ := after_cases w i s' t' j
  · rw [he]
    exact hL
  · rw [he]
    exact hother s' t' hact j hj (h.thread j)

end Threads

end Interleaving
