import LinuxProgramming.SyscallPrograms
import Mathlib.Data.DFinsupp.WellFounded

/-! # Deadlock freedom of record locks from a rank on bytes

Every byte of every file has a rank. A program is disciplined when it asks only for
ranges of one rank and only for ranks above those of the bytes it may still hold. What a
read returns is arbitrary here, so the discipline is one of the program text. -/
set_option linter.unusedSectionVars false

namespace LockOrder

open CStrings ByteFiles SyscallPrograms Function

variable {ι φ ε κ ρ η α β : Type} [DecidableEq φ] [DecidableEq ι]

/-- The bytes a process may hold. -/
abbrev Held (φ : Type) := φ → ℕ → Prop

def nothing : Held φ := fun _ _ => False

def Held.with (H : Held φ) (fd : φ) (s l : ℕ) : Held φ :=
  fun f b => H f b ∨ (f = fd ∧ InRange s l b)

def Held.without (H : Held φ) (fd : φ) (s l : ℕ) : Held φ :=
  fun f b => H f b ∧ ¬ (f = fd ∧ InRange s l b)

variable (rank : φ → ℕ → ℕ)

/-- The whole range has one rank, above everything that may be held. -/
structure Above (H : Held φ) (fd : φ) (s l : ℕ) : Prop where
  held : ∀ f b, H f b → ∀ b', InRange s l b' → rank f b < rank fd b'
  uniform : ∀ b b', InRange s l b → InRange s l b' → rank fd b = rank fd b'

def Disciplined (Q : α → Held φ → Prop) : Prog φ ε α → Held φ → Prop
  | .ret a, H => Q a H
  | .abort _, _ => True
  | .hang, _ => True
  | .lock fd _ s l k, H => Above rank H fd s l ∧ Disciplined Q k (H.with fd s l)
  | .unlock fd s l k, H => Disciplined Q k (H.without fd s l)
  | .read _ _ _ k, H => ∀ bs, Disciplined Q (k bs) H
  | .write _ _ _ k, H => Disciplined Q k H
  | .size _ k, H => ∀ n, Disciplined Q (k n) H
  | .truncate _ k, H => Disciplined Q k H

variable {rank}

theorem disciplined_bind {Q : β → Held φ → Prop} {f : α → Prog φ ε β} (k : Prog φ ε α)
    (H : Held φ) (h : Disciplined rank (fun a H' => Disciplined rank Q (f a) H') k H) :
    Disciplined rank Q (k >>= f) H := by
  induction k generalizing H with
  | ret a => exact h
  | abort e => trivial
  | hang => trivial
  | lock fd m s l k ih => exact ⟨h.1, ih _ h.2⟩
  | unlock fd s l k ih => exact ih _ h
  | read fd o n k ih => exact fun bs => ih bs _ (h bs)
  | write fd o bs k ih => exact ih _ h
  | size fd k ih => exact fun n => ih n _ (h n)
  | truncate fd k ih => exact ih _ h

variable (rank) in
/-- From held bytes in `I` the program ends with held bytes in `I` and a result in `R`. -/
def Keeping (I : Held φ → Prop) (R : α → Prop) (k : Prog φ ε α) : Prop :=
  ∀ (Q : α → Held φ → Prop) H, I H → (∀ a H', R a → I H' → Q a H') → Disciplined rank Q k H

variable {I : Held φ → Prop} {R : α → Prop} {S : β → Prop}

theorem keeping_ret {a : α} (h : R a) : Keeping rank I R (.ret a : Prog φ ε α) :=
  fun _ H hI hQ => hQ a H h hI

theorem keeping_abort (e : ε) : Keeping rank I R (.abort e : Prog φ ε α) :=
  fun _ _ _ _ => trivial

theorem keeping_hang : Keeping rank I R (.hang : Prog φ ε α) := fun _ _ _ _ => trivial

theorem keeping_read {fd : φ} {o n : ℕ} {k : List Byte → Prog φ ε α}
    (h : ∀ bs, Keeping rank I R (k bs)) : Keeping rank I R (.read fd o n k) :=
  fun Q H hI hQ bs => h bs Q H hI hQ

theorem keeping_write {fd : φ} {o : ℕ} {bs : List Byte} {k : Prog φ ε α}
    (h : Keeping rank I R k) : Keeping rank I R (.write fd o bs k) := h

theorem keeping_size {fd : φ} {k : ℕ → Prog φ ε α} (h : ∀ n, Keeping rank I R (k n)) :
    Keeping rank I R (.size fd k) :=
  fun Q H hI hQ n => h n Q H hI hQ

theorem keeping_bind {k : Prog φ ε α} {f : α → Prog φ ε β} (hk : Keeping rank I R k)
    (hf : ∀ a, R a → Keeping rank I S (f a)) : Keeping rank I S (k >>= f) := by
  intro Q H hI hQ
  apply disciplined_bind
  exact hk _ H hI fun a H' hR hI' => hf a hR Q H' hI' hQ

theorem keeping_ite {c : Prop} [Decidable c] {x y : Prog φ ε α} (hx : c → Keeping rank I R x)
    (hy : ¬ c → Keeping rank I R y) : Keeping rank I R (if c then x else y) := by
  split
  · exact hx ‹_›
  · exact hy ‹_›

/-- A range taken above everything held, around a part that works under any held bytes. -/
theorem keeping_locked {fd : φ} {m : LockMode} {s l : ℕ} {k : Prog φ ε α}
    (hab : ∀ H, I H → Above rank H fd s l)
    (hI : ∀ H, I H → I ((H.with fd s l).without fd s l))
    (hk : ∀ J, Keeping rank J R k) :
    Keeping rank I R
      (Prog.lock fd m s l (.ret ()) >>= fun _ => k >>= fun a =>
        Prog.unlock fd s l (.ret ()) >>= fun _ => .ret a) := by
  intro Q H hH hQ
  refine ⟨hab H hH, ?_⟩
  change Disciplined rank Q (k >>= _) _
  apply disciplined_bind
  refine hk (fun H' => H' = H.with fd s l) _ _ rfl ?_
  rintro a H' hR rfl
  exact hQ a _ hR (hI H hH)

/-- A blocked process waits for every process that holds a conflicting byte. -/
def Waits (w : World ι φ ε κ ρ η) (p q : ι) : Prop :=
  ∃ c fd m s l k, w.proc p = .busy c (.lock fd m s l k) ∧ q ≠ p ∧
    ∃ b, InRange s l b ∧ ¬ Compatible (w.shared.locks q fd b) m

def Holds (lk : Locks ι φ) (p : ι) (H : Held φ) : Prop := ∀ f b, lk p f b ≠ none → H f b

def Returns : α → Held φ → Prop := fun _ H => ∀ f b, ¬ H f b

variable (rank) in
def ProcOrdered (lk : Locks ι φ) (p : ι) : Proc φ ε κ ρ η → Prop
  | .idle _ => Holds lk p nothing
  | .busy _ k => ∃ H, Holds lk p H ∧ Disciplined rank Returns k H
  | .dead => Holds lk p nothing

variable (rank) in
def Ordered (w : World ι φ ε κ ρ η) : Prop := ∀ p, ProcOrdered rank w.shared.locks p (w.proc p)

theorem holds_other {lk : Locks ι φ} {p q : ι} (hq : q ≠ p) {fd : φ} {s l : ℕ}
    {v : Option LockMode} {x : Proc φ ε κ ρ η} (h : ProcOrdered rank lk q x) :
    ProcOrdered rank (setRange lk p fd s l v) q x := by
  have he : setRange lk p fd s l v q = lk q := setRange_other hq fd s l v
  cases x with
  | idle a => exact fun f b hb => h f b (by rwa [he] at hb)
  | busy c k =>
    obtain ⟨H, hh, hd⟩ := h
    exact ⟨H, fun f b hb => hh f b (by rwa [he] at hb), hd⟩
  | dead => exact fun f b hb => h f b (by rwa [he] at hb)

theorem holds_lock {lk : Locks ι φ} {p : ι} {H : Held φ} (h : Holds lk p H) (fd : φ) (s l : ℕ)
    (m : LockMode) : Holds (setRange lk p fd s l (some m)) p (H.with fd s l) := by
  intro f b hb
  rw [setRange_self] at hb
  split at hb
  · rename_i hr
    exact Or.inr hr
  · exact Or.inl (h f b hb)

theorem holds_unlock {lk : Locks ι φ} {p : ι} {H : Held φ} (h : Holds lk p H) (fd : φ)
    (s l : ℕ) : Holds (setRange lk p fd s l none) p (H.without fd s l) := by
  intro f b hb
  rw [setRange_self] at hb
  split at hb
  · exact absurd rfl hb
  · rename_i hr
    exact ⟨h f b hb, hr⟩

private theorem settle_ordered {w : World ι φ ε κ ρ η} {p : ι} {c : κ}
    {k : Prog φ ε (ρ × η)} {s' : Shared ι φ ε κ ρ} {H : Held φ}
    (hoth : ∀ q, q ≠ p → ProcOrdered rank s'.locks q (w.proc q))
    (hH : Holds s'.locks p H) (hd : Disciplined rank Returns k H) :
    Ordered rank (settle s' w.proc p c k) := by
  intro q
  by_cases hq : q = p
  · subst q
    cases k with
    | ret a =>
      obtain ⟨r, h⟩ := a
      simp only [settle, update_self]
      exact fun f b hb => hd f b (hH f b hb)
    | abort e =>
      simp only [settle, update_self]
      intro f b hb
      simp [releaseAll] at hb
    | hang | lock | unlock | read | write | size | truncate =>
      simp only [settle, update_self]
      exact ⟨H, hH, hd⟩
  · have := hoth q hq
    cases k with
    | ret a =>
      obtain ⟨r, h⟩ := a
      simpa only [settle, update_of_ne hq] using this
    | abort e =>
      simp only [settle, update_of_ne hq]
      have he : releaseAll s'.locks p q = s'.locks q := by simp [releaseAll, hq]
      cases hx : w.proc q with
      | idle a => rw [hx] at this; exact fun f b hb => this f b (by rwa [he] at hb)
      | dead => rw [hx] at this; exact fun f b hb => this f b (by rwa [he] at hb)
      | busy c k =>
        rw [hx] at this
        obtain ⟨H', hh, hd'⟩ := this
        exact ⟨H', fun f b hb => hh f b (by rwa [he] at hb), hd'⟩
    | hang | lock | unlock | read | write | size | truncate =>
      simpa only [settle, update_of_ne hq] using this

theorem step_ordered {exec : κ → η → Prog φ ε (ρ × η)} {allowed : ι → κ → Prop}
    (hex : ∀ c h, Disciplined rank Returns (exec c h) nothing)
    {w w' : World ι φ ε κ ρ η} (hw : Step exec allowed w w') (ho : Ordered rank w) :
    Ordered rank w' := by
  cases hw with
  | call p c h hp ha =>
    have hi : Holds w.shared.locks p nothing := by
      have := ho p
      rwa [hp] at this
    exact settle_ordered (fun q _ => ho q) hi (hex c h)
  | act p c k k' s' hp hf =>
    have hb := ho p
    rw [hp] at hb
    obtain ⟨H, hH, hd⟩ := hb
    cases hf with
    | lock fd m start len _ _ hg =>
      exact settle_ordered (fun q hq => holds_other hq (ho q)) (holds_lock hH fd start len m) hd.2
    | unlock fd start len =>
      exact settle_ordered (fun q hq => holds_other hq (ho q)) (holds_unlock hH fd start len) hd
    | read fd off n k => exact settle_ordered (fun q _ => ho q) hH (hd _)
    | write fd off bs => exact settle_ordered (fun q _ => ho q) hH hd
    | size fd k => exact settle_ordered (fun q _ => ho q) hH (hd _)
    | truncate fd => exact settle_ordered (fun q _ => ho q) hH hd

theorem execution_ordered {exec : κ → η → Prog φ ε (ρ × η)} {allowed : ι → κ → Prop}
    (hex : ∀ c h, Disciplined rank Returns (exec c h) nothing)
    {w w' : World ι φ ε κ ρ η} (hw : Execution exec allowed w w') (ho : Ordered rank w) :
    Ordered rank w' := by
  induction hw with
  | refl => exact ho
  | tail _ hs ih => exact step_ordered hex hs ih

def WaitsAt (rank : φ → ℕ → ℕ) (w : World ι φ ε κ ρ η) (p : ι) (n : ℕ) : Prop :=
  ∃ c fd m s l k, w.proc p = .busy c (.lock fd m s l k) ∧ ∀ b, InRange s l b → rank fd b = n

private theorem waitsAt_of_waits {w : World ι φ ε κ ρ η} (ho : Ordered rank w) {p q : ι}
    (h : Waits w p q) : ∃ n, WaitsAt rank w p n := by
  obtain ⟨c, fd, m, s, l, k, hp, -, b, hb, -⟩ := h
  have hd := ho p
  rw [hp] at hd
  obtain ⟨H, -, hab, -⟩ := hd
  exact ⟨rank fd b, c, fd, m, s, l, k, hp, fun b' hb' => hab.uniform b' b hb' hb⟩

private theorem waits_rank {w : World ι φ ε κ ρ η} (ho : Ordered rank w) {p q : ι} {n m : ℕ}
    (h : Waits w p q) (hn : WaitsAt rank w p n) (hm : WaitsAt rank w q m) : n < m := by
  obtain ⟨c, fd, mo, s, l, k, hp, -, b, hb, hc⟩ := h
  obtain ⟨c', fd', mo', s', l', k', hp', hn⟩ := hn
  rw [hp] at hp'
  cases hp'
  obtain ⟨c', fd', mo', s', l', k', hq, hm⟩ := hm
  have hd := ho q
  rw [hq] at hd
  obtain ⟨H, hH, hab, -⟩ := hd
  have hne : w.shared.locks q fd b ≠ none := by
    intro he
    rw [he] at hc
    exact hc trivial
  have hr : InRange s' l' s' := ⟨le_rfl, by omega⟩
  have := hab.held fd b (hH fd b hne) s' hr
  rw [hn b hb, hm s' hr] at this
  exact this

/-- Along a chain of waiting processes the ranks increase, so no chain closes. -/
theorem ordered_acyclic {w : World ι φ ε κ ρ η} (ho : Ordered rank w) (p : ι) :
    ¬ Relation.TransGen (Waits w) p p := by
  have climb : ∀ {q}, Relation.TransGen (Waits w) p q → ∀ n m,
      WaitsAt rank w p n → WaitsAt rank w q m → n < m := by
    intro q h
    induction h with
    | single h => exact fun n m => waits_rank ho h
    | tail _ h ih =>
      intro n m hn hm
      obtain ⟨k, hk⟩ := waitsAt_of_waits ho h
      exact lt_trans (ih n k hn hk) (waits_rank ho h hk hm)
  intro h
  obtain ⟨q, hq⟩ := Relation.TransGen.head'_iff.mp h
  obtain ⟨n, hn⟩ := waitsAt_of_waits ho hq.1
  exact lt_irrefl n (climb h n n hn hn)

/-! ## Calls come to an end -/

/-- Every order of steps comes to `Q` after finitely many, and none gets stuck before. -/
inductive Drains (r : α → α → Prop) (Q : α → Prop) : α → Prop where
  | done {a} (h : Q a) : Drains r Q a
  | step {a} (hs : ∃ b, r a b) (h : ∀ b, r a b → Drains r Q b) : Drains r Q a

theorem drains_of_wf {r : α → α → Prop} {Q J : α → Prop} (hwf : WellFounded (swap r))
    (hJ : ∀ a b, J a → r a b → J b) (h : ∀ a, J a → Q a ∨ ∃ b, r a b) {a : α} (ha : J a) :
    Drains r Q a := by
  induction a using hwf.induction with | _ a ih
  rcases h a ha with hdone | hnext
  · exact .done hdone
  · exact .step hnext fun b hb => ih b hb (hJ a b ha hb)

variable (exec : κ → η → Prog φ ε (ρ × η)) {w : World ι φ ε κ ρ η}

/-- A step inside a call that was already made. -/
def Inside (w w' : World ι φ ε κ ρ η) : Prop := Step exec (fun _ _ => False) w w'

/-- What a process may be after one system call. -/
def Later (ι : Type) [DecidableEq ι] (x y : Proc φ ε κ ρ η) : Prop :=
  ∃ (p : ι) (c : κ) (k k' : _) (s s' : Shared ι φ ε κ ρ), y = .busy c k ∧ Fires p c k s k' s' ∧
    ∀ c' l, x = .busy c' l → l = k'

theorem later_wf : WellFounded (Later ι : Proc φ ε κ ρ η → _ → Prop) := by
  -- a system call goes to a subtree of the program
  have hacc : ∀ k (x : Proc φ ε κ ρ η), (∀ c l, x = .busy c l → l = k) → Acc (Later ι) x := by
    intro k
    induction k
    all_goals
      refine fun x hx => ⟨_, fun y hy => ?_⟩
      obtain ⟨p, c, k, k', s, s', rfl, hf, hl⟩ := hy
      obtain rfl := hx c k rfl
      cases hf
    all_goals solve_by_elim
  refine ⟨fun x => ?_⟩
  cases x with
  | busy c k => exact hacc k _ (by simp)
  | _ => exact hacc .hang _ (by simp)

theorem inside_wf [Finite ι] : WellFounded (swap (Inside (ι := ι) exec)) := by
  refine Subrelation.wf ?_ (InvImage.wf World.proc
    (Pi.Lex.wellFounded WellOrderingRel fun _ : ι => later_wf (ι := ι)))
  intro w' w h
  cases h with
  | call p c h hp ha => exact ha.elim
  | act p c k k' s' hp hf =>
    refine ⟨p, fun j hj => ?_, p, c, k, k', _, s', hp, hf, ?_⟩
    · have hne : j ≠ p := fun h => irrefl_of WellOrderingRel p (h ▸ hj)
      cases k' <;> simp [settle, hne]
    · cases k' <;> simp [settle]

/-- Some busy process waits for nobody: who holds a lock is busy, and no wait is circular. -/
theorem ordered_progress [Finite ι] (ho : Ordered rank w) (hbusy : ∃ p c k, w.proc p = .busy c k)
    (hrun : ∀ p c k, w.proc p = .busy c k → k ≠ .hang ∧ (∀ a, k ≠ .ret a) ∧ ∀ e, k ≠ .abort e) :
    ∃ w', Inside exec w w' := by
  let R : ι → ι → Prop := fun p q => Relation.TransGen (Waits w) q p
  have : IsTrans ι R := ⟨fun _ _ _ h h' => h'.trans h⟩
  have : Std.Irrefl R := ⟨ordered_acyclic ho⟩
  obtain ⟨p, ⟨c, k, hp⟩, hmin⟩ := (Finite.wellFounded_of_trans_of_irrefl R).has_min
    {p | ∃ c k, w.proc p = .busy c k} hbusy
  have hlive := hrun p c k hp
  cases k with
  | ret | abort | hang => simp at hlive
  | lock fd m s l k =>
    refine ⟨_, .act w p c _ k _ hp (.lock fd m s l k _ fun q hq b hb => ?_)⟩
    by_contra hc
    refine hmin q ?_ (.single ⟨c, fd, m, s, l, k, hp, hq, b, hb, hc⟩)
    have hoq := ho q
    cases hx : w.proc q with
    | busy c' k' => exact ⟨c', k', hx⟩
    | _ =>
      rw [hx] at hoq
      exact (hoq fd b fun he => hc (by rw [he]; trivial)).elim
  | _ => exact ⟨_, .act w p c _ _ _ hp (by constructor)⟩

end LockOrder
