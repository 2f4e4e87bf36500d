import LinuxProgramming.SyscallPrograms

/-! # Rely-guarantee reasoning for interleaved system-call programs

A proof attaches to the shared state a ghost state `Γ` that it may choose freely at every
step. `Inv` holds of the ghost state between any two steps, and `Rely p` bounds what the
other processes may do while `p` is between two of its calls. A program is safe when each
of its calls, made in any state the rely allows, can be answered by a ghost step that the
others tolerate. Safe programs stay safe side by side. -/
set_option linter.unusedSectionVars false

namespace RelyGuarantee

open CStrings ByteFiles SyscallPrograms

variable {ι φ ε κ ρ η α β : Type} [DecidableEq φ] [DecidableEq ι]

/-- `view` is the real state under a ghost state. `Resting p h` is what a process between
two calls, with private memory `h`, promises and may assume. -/
structure Protocol (ι φ ε κ ρ η : Type) where
  Γ : Type
  view : Γ → Shared ι φ ε κ ρ
  Inv : Γ → Prop
  Rely : ι → Γ → Γ → Prop
  Resting : ι → η → Γ → Prop
  MayAbort : κ → ε → Prop
  rely_refl : ∀ p g, Rely p g g
  rely_trans : ∀ p a b c, Rely p a b → Rely p b c → Rely p a c
  resting_stable : ∀ p h a b, Resting p h a → Rely p a b → Resting p h b

variable (P : Protocol ι φ ε κ ρ η)

/-- The ghost step that answers a system call of `p`: the real state becomes `s`, every
other process tolerates the change, and `next` holds afterwards. -/
def Answers (p : ι) (g : P.Γ) (s : Shared ι φ ε κ ρ) (next : P.Γ → Prop) : Prop :=
  ∃ g', P.view g' = s ∧ (∀ q, q ≠ p → P.Rely q g g') ∧ next g'

/-- Safety of a program run by `p` inside the call `c`; `Ψ` is owed when it returns. The
invariant is owed before every system call, not in the middle of the computation that
follows one. -/
def Safe (p : ι) (c : κ) (Ψ : α → P.Γ → Prop) : Prog φ ε α → P.Γ → Prop
  | .ret a, g => Ψ a g
  | .abort e, _ => P.MayAbort c e
  | .hang, _ => False
  | .lock fd m start len k, g => P.Inv g ∧ ∀ g₁, P.Rely p g g₁ → P.Inv g₁ →
      Grantable (P.view g₁).locks p fd m start len →
      Answers P p g₁ { P.view g₁ with
        locks := setRange (P.view g₁).locks p fd start len (some m)
        trace := (P.view g₁).trace ++ [.locked p fd m start len] } (Safe p c Ψ k)
  | .unlock fd start len k, g => P.Inv g ∧ ∀ g₁, P.Rely p g g₁ → P.Inv g₁ →
      Answers P p g₁ { P.view g₁ with
        locks := setRange (P.view g₁).locks p fd start len none
        trace := (P.view g₁).trace ++ [.unlocked p fd start len] } (Safe p c Ψ k)
  | .read fd off n k, g => P.Inv g ∧ ∀ g₁, P.Rely p g g₁ → P.Inv g₁ →
      Answers P p g₁ { P.view g₁ with
        trace := (P.view g₁).trace ++ [.got p c fd off n (pread ((P.view g₁).files fd) off n)] }
        (Safe p c Ψ (k (pread ((P.view g₁).files fd) off n)))
  | .write fd off bs k, g => P.Inv g ∧ ∀ g₁, P.Rely p g g₁ → P.Inv g₁ →
      Answers P p g₁ { P.view g₁ with
        files := Function.update (P.view g₁).files fd (pwrite ((P.view g₁).files fd) off bs)
        trace := (P.view g₁).trace ++ [.wrote p c fd off bs] } (Safe p c Ψ k)
  | .size fd k, g => P.Inv g ∧ ∀ g₁, P.Rely p g g₁ → P.Inv g₁ →
      Answers P p g₁ (P.view g₁) (Safe p c Ψ (k ((P.view g₁).files fd).length))
  | .truncate fd k, g => P.Inv g ∧ ∀ g₁, P.Rely p g g₁ → P.Inv g₁ →
      Answers P p g₁ { P.view g₁ with
        files := Function.update (P.view g₁).files fd [] } (Safe p c Ψ k)

variable {P}

theorem Answers.mono {p : ι} {g : P.Γ} {s : Shared ι φ ε κ ρ} {X Y : P.Γ → Prop}
    (h : ∀ g', X g' → Y g') (hx : Answers P p g s X) : Answers P p g s Y := by
  obtain ⟨g', hv, hr, hn⟩ := hx
  exact ⟨g', hv, hr, h g' hn⟩

/-- Sequencing: the rest of the program is what the first part owes on return. -/
theorem safe_bind {p : ι} {c : κ} {Ψ : β → P.Γ → Prop} {f : α → Prog φ ε β}
    {k : Prog φ ε α} {g : P.Γ}
    (h : Safe P p c (fun a g' => Safe P p c Ψ (f a) g') k g) :
    Safe P p c Ψ (k >>= f) g := by
  induction k generalizing g with
  | ret a => exact h
  | abort e => exact h
  | hang => exact h
  | lock fd m s l k ih => exact ⟨h.1, fun g₁ hr hi hg => (h.2 g₁ hr hi hg).mono fun _ => ih⟩
  | unlock fd s l k ih => exact ⟨h.1, fun g₁ hr hi => (h.2 g₁ hr hi).mono fun _ => ih⟩
  | read fd o n k ih => exact ⟨h.1, fun g₁ hr hi => (h.2 g₁ hr hi).mono fun _ => ih _⟩
  | write fd o bs k ih => exact ⟨h.1, fun g₁ hr hi => (h.2 g₁ hr hi).mono fun _ => ih⟩
  | size fd k ih => exact ⟨h.1, fun g₁ hr hi => (h.2 g₁ hr hi).mono fun _ => ih _⟩
  | truncate fd k ih => exact ⟨h.1, fun g₁ hr hi => (h.2 g₁ hr hi).mono fun _ => ih⟩

theorem safe_mono {p : ι} {c : κ} {Ψ Ψ' : α → P.Γ → Prop} (hΨ : ∀ a g, Ψ a g → Ψ' a g)
    (k : Prog φ ε α) (g : P.Γ) (h : Safe P p c Ψ k g) : Safe P p c Ψ' k g := by
  induction k generalizing g with
  | ret a => exact hΨ a g h
  | abort e => exact h
  | hang => exact h
  | lock fd m s l k ih => exact ⟨h.1, fun g₁ hr hi hg => (h.2 g₁ hr hi hg).mono ih⟩
  | unlock fd s l k ih => exact ⟨h.1, fun g₁ hr hi => (h.2 g₁ hr hi).mono ih⟩
  | read fd o n k ih => exact ⟨h.1, fun g₁ hr hi => (h.2 g₁ hr hi).mono (ih _)⟩
  | write fd o bs k ih => exact ⟨h.1, fun g₁ hr hi => (h.2 g₁ hr hi).mono ih⟩
  | size fd k ih => exact ⟨h.1, fun g₁ hr hi => (h.2 g₁ hr hi).mono (ih _)⟩
  | truncate fd k ih => exact ⟨h.1, fun g₁ hr hi => (h.2 g₁ hr hi).mono ih⟩

/-- A call owes, on return, that its `returned` event can be recorded with the invariant
intact and the process resting. -/
def Completes (P : Protocol ι φ ε κ ρ η) (p : ι) (c : κ) (r : ρ × η) (g : P.Γ) : Prop :=
  Answers P p g { P.view g with trace := (P.view g).trace ++ [.returned p c r.1] }
    fun g' => P.Inv g' ∧ P.Resting p r.2 g'

def CallSafe (P : Protocol ι φ ε κ ρ η) (p : ι) (c : κ) (k : Prog φ ε (ρ × η)) (g : P.Γ) :
    Prop := Safe P p c (Completes P p c) k g

def ProcOk (P : Protocol ι φ ε κ ρ η) (p : ι) (g : P.Γ) : Proc φ ε κ ρ η → Prop
  | .idle h => P.Resting p h g
  | .busy c k => (∀ a, k ≠ .ret a) ∧ (∀ e, k ≠ .abort e) ∧ CallSafe P p c k g
  | .dead => False

structure Good (P : Protocol ι φ ε κ ρ η) (w : World ι φ ε κ ρ η) (g : P.Γ) : Prop where
  view : P.view g = w.shared
  inv : P.Inv g
  proc : ∀ p, ProcOk P p g (w.proc p)

theorem callSafe_stable {p : ι} {c : κ} {k : Prog φ ε (ρ × η)} {g g' : P.Γ}
    (hk : ∀ a, k ≠ .ret a) (hr : P.Rely p g g') (hi : P.Inv g') (h : CallSafe P p c k g) :
    CallSafe P p c k g' := by
  have ht : ∀ {g₁}, P.Rely p g' g₁ → P.Rely p g g₁ := fun h => P.rely_trans _ _ _ _ hr h
  cases k with
  | ret a => exact absurd rfl (hk a)
  | abort e => exact h
  | hang => exact h
  | lock fd m s l k => exact ⟨hi, fun g₁ h₁ => h.2 g₁ (ht h₁)⟩
  | unlock fd s l k => exact ⟨hi, fun g₁ h₁ => h.2 g₁ (ht h₁)⟩
  | read fd o n k => exact ⟨hi, fun g₁ h₁ => h.2 g₁ (ht h₁)⟩
  | write fd o bs k => exact ⟨hi, fun g₁ h₁ => h.2 g₁ (ht h₁)⟩
  | size fd k => exact ⟨hi, fun g₁ h₁ => h.2 g₁ (ht h₁)⟩
  | truncate fd k => exact ⟨hi, fun g₁ h₁ => h.2 g₁ (ht h₁)⟩

theorem procOk_stable {p : ι} {g g' : P.Γ} (hr : P.Rely p g g') (hi : P.Inv g')
    {x : Proc φ ε κ ρ η} (h : ProcOk P p g x) : ProcOk P p g' x := by
  cases x with
  | idle a => exact P.resting_stable p a g g' h hr
  | busy c k => exact ⟨h.1, h.2.1, callSafe_stable h.1 hr hi h.2.2⟩
  | dead => exact h

def Died (P : Protocol ι φ ε κ ρ η) (w : World ι φ ε κ ρ η) : Prop :=
  ∃ p c e, Event.aborted p c e ∈ w.shared.trace ∧ P.MayAbort c e

private theorem inv_of_safe {p : ι} {c : κ} {k : Prog φ ε (ρ × η)} {g : P.Γ}
    (hk : ∀ a, k ≠ .ret a) (hka : ∀ e, k ≠ .abort e) (h : CallSafe P p c k g) : P.Inv g := by
  cases k with
  | ret a => exact absurd rfl (hk a)
  | abort e => exact absurd rfl (hka e)
  | hang => exact h.elim
  | lock fd m s l k => exact h.1
  | unlock fd s l k => exact h.1
  | read fd o n k => exact h.1
  | write fd o bs k => exact h.1
  | size fd k => exact h.1
  | truncate fd k => exact h.1

/-- The end of a step: the ghost answer to the call extends over the computation behind
it, whether that goes on, returns or aborts. -/
private theorem settle_good {w : World ι φ ε κ ρ η} {g g' : P.Γ} (hg : Good P w g)
    {p : ι} {c : κ} {k : Prog φ ε (ρ × η)} {s' : Shared ι φ ε κ ρ} (hv : P.view g' = s')
    (hr : ∀ q, q ≠ p → P.Rely q g g') (hs : CallSafe P p c k g') :
    Died P (settle s' w.proc p c k) ∨ ∃ g'', Good P (settle s' w.proc p c k) g'' := by
  have others : ∀ g'', (∀ q, q ≠ p → P.Rely q g g'') → P.Inv g'' → ∀ q, q ≠ p →
      ProcOk P q g'' (w.proc q) :=
    fun g'' h hi q hq => procOk_stable (h q hq) hi (hg.proc q)
  by_cases hret : ∃ a, k = .ret a
  · obtain ⟨⟨r, h⟩, rfl⟩ := hret
    obtain ⟨g'', hv', hr', hi, hrest⟩ := hs
    refine Or.inr ⟨g'', ?_, hi, ?_⟩
    · rw [hv', hv]; rfl
    · intro q
      by_cases hq : q = p
      · subst q
        simp only [settle, Function.update_self]
        exact hrest
      · have := others g'' (fun q hq => P.rely_trans _ _ _ _ (hr q hq) (hr' q hq)) hi q hq
        simpa [settle, hq] using this
  by_cases hab : ∃ e, k = .abort e
  · obtain ⟨e, rfl⟩ := hab
    exact Or.inl ⟨p, c, e, by simp [settle], hs⟩
  have hk : ∀ a, k ≠ .ret a := fun a h => hret ⟨a, h⟩
  have hka : ∀ e, k ≠ .abort e := fun e h => hab ⟨e, h⟩
  have hi := inv_of_safe hk hka hs
  have hset : settle s' w.proc p c k = ⟨s', Function.update w.proc p (.busy c k)⟩ := by
    cases k with
    | ret a => exact absurd rfl (hk a)
    | abort e => exact absurd rfl (hka e)
    | _ => rfl
  refine Or.inr ⟨g', ?_, hi, ?_⟩
  · rw [hset]; exact hv
  · intro q
    rw [hset]
    by_cases hq : q = p
    · subst q
      simp only [Function.update_self]
      exact ⟨hk, hka, hs⟩
    · simpa [hq] using others g' hr hi q hq

/-- Every allowed call is safe from every ghost state in which its process rests. -/
def StartsSafe (P : Protocol ι φ ε κ ρ η) (exec : κ → η → Prog φ ε (ρ × η))
    (allowed : ι → κ → Prop) : Prop :=
  ∀ p c h g, allowed p c → P.Inv g → P.Resting p h g → CallSafe P p c (exec c h) g

theorem step_good {exec : κ → η → Prog φ ε (ρ × η)} {allowed : ι → κ → Prop}
    (hst : StartsSafe P exec allowed) {w w' : World ι φ ε κ ρ η} {g : P.Γ}
    (hg : Good P w g) (hw : Step exec allowed w w') : Died P w' ∨ ∃ g', Good P w' g' := by
  cases hw with
  | call p c h hp ha =>
    have hrest : P.Resting p h g := by
      have := hg.proc p
      rwa [hp] at this
    exact settle_good hg hg.view (fun q _ => P.rely_refl q g) (hst p c h g ha hg.inv hrest)
  | act p c k k' s' hp hf =>
    have hs : CallSafe P p c k g := by
      have := hg.proc p
      rw [hp] at this
      exact this.2.2
    have hrr := P.rely_refl p g
    have hv := hg.view
    have finish : ∀ {s : Shared ι φ ε κ ρ} {k'' : Prog φ ε (ρ × η)},
        Answers P p g s (CallSafe P p c k'') →
        Died P (settle s w.proc p c k'') ∨ ∃ g', Good P (settle s w.proc p c k'') g' := by
      rintro s k'' ⟨g', hv', hr', hs'⟩
      exact settle_good hg hv' hr' hs'
    generalize hsh : w.shared = s at hf hv
    cases hf with
    | lock fd m start len k _ hgr =>
      subst hv
      exact finish (hs.2 g hrr hg.inv hgr)
    | unlock fd start len k =>
      subst hv
      exact finish (hs.2 g hrr hg.inv)
    | read fd off n k =>
      subst hv
      exact finish (hs.2 g hrr hg.inv)
    | write fd off bs k =>
      subst hv
      exact finish (hs.2 g hrr hg.inv)
    | size fd k =>
      subst hv
      exact finish (hs.2 g hrr hg.inv)
    | truncate fd k =>
      subst hv
      exact finish (hs.2 g hrr hg.inv)

theorem settle_trace (s : Shared ι φ ε κ ρ) (proc : ι → Proc φ ε κ ρ η) (p : ι) (c : κ)
    (k : Prog φ ε (ρ × η)) : s.trace <+: (settle s proc p c k).shared.trace := by
  cases k with
  | ret a => exact List.prefix_append _ _
  | abort e => exact List.prefix_append _ _
  | _ => exact List.prefix_rfl

theorem step_trace {exec : κ → η → Prog φ ε (ρ × η)} {allowed : ι → κ → Prop}
    {w w' : World ι φ ε κ ρ η} (hw : Step exec allowed w w') :
    w.shared.trace <+: w'.shared.trace := by
  cases hw with
  | call p c h hp ha => exact settle_trace _ _ _ _ _
  | act p c k k' s' hp hf =>
    refine List.IsPrefix.trans ?_ (settle_trace _ _ _ _ _)
    cases hf with
    | lock | unlock | read | write => exact List.prefix_append _ _
    | size | truncate => exact List.prefix_rfl

/-- Side by side, safe programs keep the invariant until one of them dies. -/
theorem execution_good {exec : κ → η → Prog φ ε (ρ × η)} {allowed : ι → κ → Prop}
    (hst : StartsSafe P exec allowed) {w w' : World ι φ ε κ ρ η}
    (hw : Execution exec allowed w w') (h : ∃ g, Good P w g) :
    Died P w' ∨ ∃ g, Good P w' g := by
  induction hw with
  | refl => exact Or.inr h
  | tail _ hs ih =>
    rcases ih with hd | ⟨g, hg⟩
    · obtain ⟨p, c, e, hm, he⟩ := hd
      exact Or.inl ⟨p, c, e, (step_trace hs).subset hm, he⟩
    · exact step_good hst hg hs

/-! ## Rules

The state `g₀` is one the process knows; it knows of the present state only that the others
have kept their promise since. -/

section Rules

variable {p : ι} {c : κ} {Ψ : α → P.Γ → Prop} {g₀ g : P.Γ}

theorem safe_ret {a : α} (h : Ψ a g) : Safe P p c Ψ (.ret a) g := h

theorem safe_abort {e : ε} (h : P.MayAbort c e) : Safe P p c Ψ (.abort e) g := h

theorem not_safe_hang : ¬ Safe P p c Ψ .hang g := fun h => h

theorem safe_read {fd : φ} {off n : ℕ} {k : List Byte → Prog φ ε α} (hr : P.Rely p g₀ g)
    (hi : P.Inv g) (h : ∀ g₁, P.Rely p g₀ g₁ → P.Inv g₁ →
      Answers P p g₁ { P.view g₁ with
        trace := (P.view g₁).trace ++ [.got p c fd off n (pread ((P.view g₁).files fd) off n)] }
        (Safe P p c Ψ (k (pread ((P.view g₁).files fd) off n)))) :
    Safe P p c Ψ (.read fd off n k) g :=
  ⟨hi, fun g₁ h₁ => h g₁ (P.rely_trans _ _ _ _ hr h₁)⟩

theorem safe_size {fd : φ} {k : ℕ → Prog φ ε α} (hr : P.Rely p g₀ g) (hi : P.Inv g)
    (h : ∀ g₁, P.Rely p g₀ g₁ → P.Inv g₁ →
      Safe P p c Ψ (k ((P.view g₁).files fd).length) g₁) :
    Safe P p c Ψ (.size fd k) g :=
  ⟨hi, fun g₁ h₁ hi₁ => ⟨g₁, rfl, fun q _ => P.rely_refl q g₁,
    h g₁ (P.rely_trans _ _ _ _ hr h₁) hi₁⟩⟩

theorem safe_lock {fd : φ} {m : LockMode} {start len : ℕ} {k : Prog φ ε α} (hr : P.Rely p g₀ g)
    (hi : P.Inv g) (h : ∀ g₁, P.Rely p g₀ g₁ → P.Inv g₁ →
      Grantable (P.view g₁).locks p fd m start len →
      Answers P p g₁ { P.view g₁ with
        locks := setRange (P.view g₁).locks p fd start len (some m)
        trace := (P.view g₁).trace ++ [.locked p fd m start len] } (Safe P p c Ψ k)) :
    Safe P p c Ψ (.lock fd m start len k) g :=
  ⟨hi, fun g₁ h₁ => h g₁ (P.rely_trans _ _ _ _ hr h₁)⟩

theorem safe_unlock {fd : φ} {start len : ℕ} {k : Prog φ ε α} (hr : P.Rely p g₀ g)
    (hi : P.Inv g) (h : ∀ g₁, P.Rely p g₀ g₁ → P.Inv g₁ →
      Answers P p g₁ { P.view g₁ with
        locks := setRange (P.view g₁).locks p fd start len none
        trace := (P.view g₁).trace ++ [.unlocked p fd start len] } (Safe P p c Ψ k)) :
    Safe P p c Ψ (.unlock fd start len k) g :=
  ⟨hi, fun g₁ h₁ => h g₁ (P.rely_trans _ _ _ _ hr h₁)⟩

theorem safe_write {fd : φ} {off : ℕ} {bs : List Byte} {k : Prog φ ε α} (hr : P.Rely p g₀ g)
    (hi : P.Inv g) (h : ∀ g₁, P.Rely p g₀ g₁ → P.Inv g₁ →
      Answers P p g₁ { P.view g₁ with
        files := Function.update (P.view g₁).files fd (pwrite ((P.view g₁).files fd) off bs)
        trace := (P.view g₁).trace ++ [.wrote p c fd off bs] } (Safe P p c Ψ k)) :
    Safe P p c Ψ (.write fd off bs k) g :=
  ⟨hi, fun g₁ h₁ => h g₁ (P.rely_trans _ _ _ _ hr h₁)⟩

theorem safe_ite {b : Prop} [Decidable b] {x y : Prog φ ε α} (hx : b → Safe P p c Ψ x g)
    (hy : ¬ b → Safe P p c Ψ y g) : Safe P p c Ψ (if b then x else y) g := by
  split
  · exact hx ‹_›
  · exact hy ‹_›

theorem safe_if_pos {b : Prop} [Decidable b] {x y : Prog φ ε α} (hb : b) (h : Safe P p c Ψ x g) :
    Safe P p c Ψ (if b then x else y) g := by
  rwa [if_pos hb]

theorem safe_if_neg {b : Prop} [Decidable b] {x y : Prog φ ε α} (hb : ¬ b)
    (h : Safe P p c Ψ y g) : Safe P p c Ψ (if b then x else y) g := by
  rwa [if_neg hb]

end Rules

-- From here on only the rules open a program, so applying one does not run it.
attribute [irreducible] Safe

end RelyGuarantee
