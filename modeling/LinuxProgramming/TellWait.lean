import Mathlib.Data.List.Range
import Mathlib.Logic.Function.Basic
import LinuxProgramming.Interleaving

/-! # Parent and child taking turns by signals

`TELL_WAIT` blocks the two signals before the fork; each wait tests `sigflag`, suspends with an empty
mask, and restores the original mask when it is done. The loop of `devzero.c` updates a shared counter
in turns. A signal may be delivered at any point where it is not blocked. -/
namespace TellWait

open Interleaving

inductive Side where
  | parent
  | child
  deriving DecidableEq, Repr

def Side.other : Side → Side
  | .parent => .child
  | .child => .parent

/-- `load` and `store` are the two halves of `update`; `test`, `enter`, `suspended`, `clear` and
`restore` are the steps of `WAIT_CHILD` and `WAIT_PARENT`. -/
inductive Pc where
  | loop
  | load
  | store
  | check
  | tell
  | test
  | enter
  | suspended
  | clear
  | restore
  | exited
  | quit
  deriving DecidableEq, Repr

structure Proc where
  pc : Pc
  i : ℕ
  counter : ℕ
  sigflag : Bool
  blocked : Bool
  pending : Bool
  deriving DecidableEq, Repr

/-- `log` is who has made each of the updates of `area`. -/
structure State where
  area : ℕ
  log : List Side
  proc : Side → Proc

def State.set (s : State) (w : Side) (p : Proc) : State :=
  { s with proc := Function.update s.proc w p }

/-- The signal becomes pending; one that is pending already is not queued again. -/
def State.kill (s : State) (w : Side) : State := s.set w { s.proc w with pending := true }

inductive Action where
  | step (w : Side)
  | deliver (w : Side)
  deriving DecidableEq, Repr

/-- The bound of the loop over `i`, for `NLOOPS` equal to `n`. -/
def limit (n : ℕ) : Side → ℕ
  | .parent => n
  | .child => n + 1

/-- The parent goes on to wait, the child is at the end of its round. -/
def afterTell : Side → Proc → Proc
  | .parent, p => { p with pc := .test }
  | .child, p => { p with pc := .loop, i := p.i + 2 }

def afterWait : Side → Proc → Proc
  | .parent, p => { p with pc := .loop, i := p.i + 2 }
  | .child, p => { p with pc := .load }

def ownStep (n : ℕ) (oldmask : Bool) (w : Side) (p : Proc) : Option Proc :=
  match p.pc with
  | .loop =>
    some { p with pc := if p.i < limit n w then (if w = .parent then .load else .test) else .exited }
  | .check => some { p with pc := if p.counter = p.i then .tell else .quit }
  | .test => some { p with pc := if p.sigflag then .clear else .enter }
  | .enter => some { p with pc := .suspended }
  | .clear => some { p with sigflag := false, pc := .restore }
  | .restore => some (afterWait w { p with blocked := oldmask })
  | .load | .store | .tell | .suspended | .exited | .quit => none

def step (n : ℕ) (oldmask : Side → Bool) (s : State) (w : Side) : Option State :=
  let p := s.proc w
  match p.pc with
  | .load => some (s.set w { p with counter := s.area, pc := .store })
  | .store =>
    some { s.set w { p with pc := .check } with area := p.counter + 1, log := s.log ++ [w] }
  | .tell => some ((s.set w (afterTell w p)).kill w.other)
  | _ => (ownStep n (oldmask w) w p).map (s.set w)

/-- The handler runs; `sigsuspend` then returns with the mask there was before. -/
def deliver (s : State) (w : Side) : Option State :=
  let p := s.proc w
  if p.pending ∧ (p.pc = .suspended ∨ p.blocked = false) ∧ p.pc ≠ .exited ∧ p.pc ≠ .quit then
    some (s.set w
      { p with pending := false, sigflag := true, pc := if p.pc = .suspended then .test else p.pc })
  else none

/-- `oldmask w` says whether the mask from before `TELL_WAIT` blocks the signal that `w` waits for. -/
def next (n : ℕ) (oldmask : Side → Bool) (s : State) : Action → Option State
  | .step w => step n oldmask s w
  | .deliver w => deliver s w

def forked : Side → Proc
  | .parent => ⟨.loop, 0, 0, false, true, false⟩
  | .child => ⟨.loop, 1, 0, false, true, false⟩

def start : State := ⟨0, [], forked⟩

/-- No signal is delivered between the test of `sigflag` and `sigsuspend`. -/
def caught (s : State) : Action → Bool
  | .step _ => true
  | .deliver w => (s.proc w).pc ≠ .enter

/-! ## One turn -/

/-- Whose update is number `m`. -/
def turnOf (m : ℕ) : Side := if m % 2 = 0 then .parent else .child

/-- The number of the update that the process makes next, or is making. The parent adds to `i` only
after its wait. -/
def nextUpdate (w : Side) (p : Proc) : ℕ :=
  match w, p.pc with
  | .parent, .test | .parent, .enter | .parent, .suspended | .parent, .clear | .parent, .restore => p.i + 2
  | _, _ => p.i

/-- The process waits and has not been told. -/
structure Idle (n : ℕ) (w : Side) (p : Proc) : Prop where
  sigflag : p.sigflag = false
  pending : p.pending = false
  pc : match p.pc with
    | .loop => w = .child
    | .test | .enter | .suspended => p.i < limit n w
    | .exited => w = .child ∧ limit n w ≤ p.i
    | _ => False

/-- The process has been told and has not taken its turn. -/
structure Told (n : ℕ) (w : Side) (p : Proc) : Prop where
  once : p.sigflag = !p.pending
  remain : p.i < limit n w
  pc : match p.pc with
    | .loop => w = .child
    | .test | .enter | .suspended => True
    | .clear => p.sigflag = true
    | _ => False

/-- The process has the turn. -/
structure Works (n : ℕ) (w : Side) (area : ℕ) (p : Proc) : Prop where
  sigflag : p.sigflag = false
  pending : p.pending = false
  pc : match p.pc with
    | .restore => area = nextUpdate w p ∧ p.i < limit n w
    | .loop => w = .parent ∧ area = p.i
    | .exited => w = .parent ∧ area = p.i ∧ limit n w ≤ p.i
    | .load => area = p.i ∧ p.i < limit n w
    | .store => area = p.i ∧ p.counter = p.i ∧ p.i < limit n w
    | .check | .tell => area = p.i + 1 ∧ p.counter = p.i ∧ p.i < limit n w
    | _ => False

/-- The signal has come after the test of `sigflag`: the process suspends and nothing will wake it. -/
def Lost (p : Proc) : Prop := p.sigflag = true ∧ p.pending = false ∧ (p.pc = .enter ∨ p.pc = .suspended)

structure TurnOf (n : ℕ) (w : Side) (s : State) : Prop where
  whose : turnOf (nextUpdate w (s.proc w)) = w
  idle : Idle n w.other (s.proc w.other)
  order : nextUpdate w.other (s.proc w.other) = nextUpdate w (s.proc w) + 1
  turn : Told n w (s.proc w) ∧ s.area = nextUpdate w (s.proc w) ∨ Works n w s.area (s.proc w)

structure Inv (n : ℕ) (s : State) : Prop where
  alternates : s.log = (List.range s.area).map turnOf
  turn : ∃ w, TurnOf n w s

def rank : Side → Pc → ℕ
  | .parent, .loop => 19
  | .parent, .load => 18
  | .parent, .store => 17
  | .parent, .check => 16
  | .parent, .tell => 15
  | .child, .loop => 12
  | .child, .load => 6
  | .child, .store => 5
  | .child, .check => 4
  | .child, .tell => 3
  | _, .test => 11
  | _, .enter => 10
  | _, .suspended => 9
  | _, .clear => 8
  | _, .restore => 7
  | _, .exited => 0
  | _, .quit => 0

def price (n : ℕ) (w : Side) (p : Proc) : ℕ :=
  20 * (n + 2 - p.i) + rank w p.pc + (if p.pending then 3 else 0)

def left (n : ℕ) (s : State) : ℕ := price n .parent (s.proc .parent) + price n .child (s.proc .child)

section Sides

theorem turnOf_succ {w : Side} {m : ℕ} (h : turnOf m = w) : turnOf (m + 1) = w.other := by
  subst h
  unfold turnOf
  split
  · rw [if_neg (by omega)]
    rfl
  · rw [if_pos (by omega)]
    rfl

variable {w : Side} {s : State} {p : Proc}

@[simp] theorem other_other (w : Side) : w.other.other = w := by cases w <;> rfl

theorem other_ne (w : Side) : w.other ≠ w := by cases w <;> simp [Side.other]

theorem eq_or_other (w v : Side) : v = w ∨ v = w.other := by cases w <;> cases v <;> simp [Side.other]

@[simp] theorem set_proc (s : State) (w : Side) (p : Proc) : (s.set w p).proc w = p :=
  Function.update_self ..

@[simp] theorem set_proc_other (s : State) (w : Side) (p : Proc) :
    (s.set w p).proc w.other = s.proc w.other :=
  Function.update_of_ne (other_ne w) ..

@[simp] theorem set_other_proc (s : State) (w : Side) (p : Proc) :
    (s.set w.other p).proc w = s.proc w :=
  Function.update_of_ne (other_ne w).symm ..

@[simp] theorem set_area (s : State) (w : Side) (p : Proc) : (s.set w p).area = s.area := rfl

@[simp] theorem set_log (s : State) (w : Side) (p : Proc) : (s.set w p).log = s.log := rfl

theorem left_eq (n : ℕ) (s : State) (w : Side) :
    left n s = price n w (s.proc w) + price n w.other (s.proc w.other) := by
  cases w with
  | parent => rfl
  | child => exact Nat.add_comm ..

end Sides

/-! ## The process that waits -/

section Steps

variable {n : ℕ} {oldmask : Side → Bool} {w : Side} {s t : State}

theorem eq_of_ownStep {q : Proc} (hq : ownStep n (oldmask w) w (s.proc w) = some q)
    (ht : step n oldmask s w = some t) : t = s.set w q := by
  cases hp : (s.proc w).pc
  case load => simp [ownStep, hp] at hq
  case store => simp [ownStep, hp] at hq
  case tell => simp [ownStep, hp] at hq
  all_goals
    simp only [step, hp, hq, Option.map_some, Option.some.injEq] at ht
    exact ht.symm

theorem idle_step (h : Idle n w (s.proc w)) (ht : step n oldmask s w = some t) :
    ∃ q, t = s.set w q ∧ Idle n w q ∧ nextUpdate w q = nextUpdate w (s.proc w) ∧
      price n w q < price n w (s.proc w) := by
  obtain ⟨hflag, hpend, hpc⟩ := h
  cases hp : (s.proc w).pc <;> simp only [hp] at hpc
  case loop =>
    subst hpc
    by_cases hi : (s.proc .child).i < limit n .child
    · obtain rfl := eq_of_ownStep (q := { s.proc .child with pc := .test }) (by simp [ownStep, hp, hi]) ht
      exact ⟨_, rfl, ⟨hflag, hpend, hi⟩, rfl, by simp [price, rank, hp]⟩
    · obtain rfl := eq_of_ownStep (q := { s.proc .child with pc := .exited }) (by simp [ownStep, hp, hi]) ht
      exact ⟨_, rfl, ⟨hflag, hpend, rfl, Nat.le_of_not_lt hi⟩, rfl, by simp [price, rank, hp]⟩
  case test =>
    obtain rfl := eq_of_ownStep (q := { s.proc w with pc := .enter }) (by simp [ownStep, hp, hflag]) ht
    refine ⟨_, rfl, ⟨hflag, hpend, hpc⟩, ?_, ?_⟩
    · cases w <;> simp [nextUpdate, hp]
    · cases w <;> simp [price, rank, hp]
  case enter =>
    obtain rfl := eq_of_ownStep (q := { s.proc w with pc := .suspended }) (by simp [ownStep, hp]) ht
    refine ⟨_, rfl, ⟨hflag, hpend, hpc⟩, ?_, ?_⟩
    · cases w <;> simp [nextUpdate, hp]
    · cases w <;> simp [price, rank, hp]
  case suspended => simp [step, ownStep, hp] at ht
  case exited => simp [step, ownStep, hp] at ht

theorem idle_deliver (h : Idle n w (s.proc w)) : deliver s w = none := by
  simp [deliver, h.pending]

/-! ## The process that has been told -/

theorem told_step (h : Told n w (s.proc w)) (harea : s.area = nextUpdate w (s.proc w))
    (ht : step n oldmask s w = some t) :
    ∃ q, t = s.set w q ∧ nextUpdate w q = nextUpdate w (s.proc w) ∧
      price n w q < price n w (s.proc w) ∧
      (Told n w q ∧ (Lost q ↔ Lost (s.proc w)) ∨ Works n w s.area q ∧ ¬ Lost (s.proc w)) := by
  obtain ⟨honce, hremain, hpc⟩ := h
  cases hp : (s.proc w).pc <;> simp only [hp] at hpc
  case loop =>
    subst hpc
    obtain rfl := eq_of_ownStep (q := { s.proc .child with pc := .test })
      (by simp [ownStep, hp, hremain]) ht
    exact ⟨_, rfl, rfl, by simp [price, rank, hp], .inl ⟨⟨honce, hremain, trivial⟩, by simp [Lost, hp]⟩⟩
  case test =>
    cases hflag : (s.proc w).sigflag with
    | true =>
      obtain rfl := eq_of_ownStep (q := { s.proc w with pc := .clear }) (by simp [ownStep, hp, hflag]) ht
      refine ⟨_, rfl, ?_, ?_, .inl ⟨⟨honce, hremain, hflag⟩, by simp [Lost, hp]⟩⟩
      · cases w <;> simp [nextUpdate, hp]
      · cases w <;> simp [price, rank, hp]
    | false =>
      obtain rfl := eq_of_ownStep (q := { s.proc w with pc := .enter }) (by simp [ownStep, hp, hflag]) ht
      refine ⟨_, rfl, ?_, ?_, .inl ⟨⟨honce, hremain, trivial⟩, by simp [Lost, hflag]⟩⟩
      · cases w <;> simp [nextUpdate, hp]
      · cases w <;> simp [price, rank, hp]
  case enter =>
    obtain rfl := eq_of_ownStep (q := { s.proc w with pc := .suspended }) (by simp [ownStep, hp]) ht
    refine ⟨_, rfl, ?_, ?_, .inl ⟨⟨honce, hremain, trivial⟩, by simp [Lost, hp]⟩⟩
    · cases w <;> simp [nextUpdate, hp]
    · cases w <;> simp [price, rank, hp]
  case suspended => simp [step, ownStep, hp] at ht
  case clear =>
    obtain rfl := eq_of_ownStep (q := { s.proc w with sigflag := false, pc := .restore })
      (by simp [ownStep, hp]) ht
    have hsame : nextUpdate w { s.proc w with sigflag := false, pc := .restore } =
        nextUpdate w (s.proc w) := by
      cases w <;> simp [nextUpdate, hp]
    refine ⟨_, rfl, hsame, ?_, .inr ⟨⟨rfl, ?_, harea.trans hsame.symm, hremain⟩, by simp [Lost, hp]⟩⟩
    · cases w <;> simp [price, rank, hp]
    · simpa [hpc] using honce.symm

theorem told_deliver (h : Told n w (s.proc w)) (ht : deliver s w = some t) :
    ∃ q, t = s.set w q ∧ nextUpdate w q = nextUpdate w (s.proc w) ∧
      price n w q < price n w (s.proc w) ∧ Told n w q ∧ (Lost q → (s.proc w).pc = .enter) ∧
      ¬ Lost (s.proc w) := by
  obtain ⟨honce, hremain, hpc⟩ := h
  simp only [deliver] at ht
  split at ht
  case isFalse => cases ht
  rename_i hcan
  obtain rfl := Option.some.inj ht
  have hnot : ¬ Lost (s.proc w) := fun hl => by simp [hl.2.1] at hcan
  cases hp : (s.proc w).pc <;> simp only [hp] at hpc
  case loop =>
    exact ⟨_, rfl, by cases w <;> simp [nextUpdate, hp], by simp [price, hp, hcan.1],
      ⟨rfl, hremain, by simpa using hpc⟩, by simp [Lost], hnot⟩
  case test =>
    exact ⟨_, rfl, by cases w <;> simp [nextUpdate, hp], by simp [price, hp, hcan.1],
      ⟨rfl, hremain, by simp⟩, by simp [Lost], hnot⟩
  case enter =>
    exact ⟨_, rfl, by cases w <;> simp [nextUpdate, hp], by simp [price, hp, hcan.1],
      ⟨rfl, hremain, by simp⟩, fun _ => rfl, hnot⟩
  case suspended =>
    exact ⟨_, rfl, by cases w <;> simp [nextUpdate, hp], by simp [price, rank, hp, hcan.1],
      ⟨rfl, hremain, by simp⟩, by simp [Lost], hnot⟩
  case clear => simp [hpc, hcan.1] at honce

/-! ## The process that has the turn -/

theorem works_deliver {area : ℕ} (h : Works n w area (s.proc w)) : deliver s w = none := by
  simp [deliver, h.pending]

theorem works_not_lost {area : ℕ} {p : Proc} (h : Works n w area p) : ¬ Lost p :=
  fun hl => absurd hl.1 (by simp [h.sigflag])

theorem idle_not_lost {p : Proc} (h : Idle n w p) : ¬ Lost p :=
  fun hl => absurd hl.1 (by simp [h.sigflag])

theorem works_step (h : Works n w s.area (s.proc w)) (htell : (s.proc w).pc ≠ .tell)
    (ht : step n oldmask s w = some t) :
    ∃ q, t.proc = (s.set w q).proc ∧ Works n w t.area q ∧
      nextUpdate w q = nextUpdate w (s.proc w) ∧ price n w q < price n w (s.proc w) ∧
      (t.area = s.area ∧ t.log = s.log ∨
        t.area = s.area + 1 ∧ t.log = s.log ++ [w] ∧ s.area = nextUpdate w (s.proc w)) := by
  obtain ⟨hflag, hpend, hpc⟩ := h
  cases hp : (s.proc w).pc <;> simp only [hp] at hpc
  case restore =>
    obtain rfl := eq_of_ownStep (q := afterWait w { s.proc w with blocked := oldmask w })
      (by simp [ownStep, hp]) ht
    refine ⟨_, rfl, ?_, ?_, ?_, .inl ⟨rfl, rfl⟩⟩
    · cases w with
      | parent => exact ⟨hflag, hpend, rfl, by simpa [nextUpdate, afterWait, hp] using hpc.1⟩
      | child => exact ⟨hflag, hpend, by simpa [nextUpdate, afterWait, hp] using hpc.1, hpc.2⟩
    · cases w <;> simp [nextUpdate, afterWait, hp]
    · have hi := hpc.2
      cases w with
      | parent =>
        simp only [limit] at hi
        simp only [price, rank, afterWait, hp, hpend]
        omega
      | child => simp [price, rank, afterWait, hp, hpend]
  case loop =>
    obtain ⟨rfl, harea⟩ := hpc
    by_cases hi : (s.proc .parent).i < limit n .parent
    · obtain rfl := eq_of_ownStep (q := { s.proc .parent with pc := .load }) (by simp [ownStep, hp, hi]) ht
      exact ⟨_, rfl, ⟨hflag, hpend, harea, hi⟩, by simp [nextUpdate, hp], by simp [price, rank, hp],
        .inl ⟨rfl, rfl⟩⟩
    · obtain rfl := eq_of_ownStep (q := { s.proc .parent with pc := .exited })
        (by simp [ownStep, hp, hi]) ht
      exact ⟨_, rfl, ⟨hflag, hpend, rfl, harea, Nat.le_of_not_lt hi⟩, by simp [nextUpdate, hp],
        by simp [price, rank, hp], .inl ⟨rfl, rfl⟩⟩
  case load =>
    have hstep : step n oldmask s w =
        some (s.set w { s.proc w with counter := s.area, pc := .store }) := by
      simp [step, hp]
    obtain rfl := Option.some.inj (hstep.symm.trans ht)
    refine ⟨_, rfl, ⟨hflag, hpend, hpc.1, hpc.1, hpc.2⟩, ?_, ?_, .inl ⟨rfl, rfl⟩⟩
    · cases w <;> simp [nextUpdate, hp]
    · cases w <;> simp [price, rank, hp]
  case store =>
    obtain ⟨harea, hcounter, hi⟩ := hpc
    have hstep : step n oldmask s w = some { s.set w { s.proc w with pc := .check } with
        area := (s.proc w).counter + 1, log := s.log ++ [w] } := by
      simp [step, hp]
    obtain rfl := Option.some.inj (hstep.symm.trans ht)
    refine ⟨_, rfl, ⟨hflag, hpend, by simp [hcounter], hcounter, hi⟩, ?_, ?_,
      .inr ⟨by simp [hcounter, harea], rfl, ?_⟩⟩
    · cases w <;> simp [nextUpdate, hp]
    · cases w <;> simp [price, rank, hp]
    · cases w <;> simp [nextUpdate, hp, harea]
  case check =>
    obtain ⟨harea, hcounter, hi⟩ := hpc
    obtain rfl := eq_of_ownStep (q := { s.proc w with pc := .tell }) (by simp [ownStep, hp, hcounter]) ht
    refine ⟨_, rfl, ⟨hflag, hpend, harea, hcounter, hi⟩, ?_, ?_, .inl ⟨rfl, rfl⟩⟩
    · cases w <;> simp [nextUpdate, hp]
    · cases w <;> simp [price, rank, hp]
  case tell => exact absurd hp htell
  case exited => simp [step, ownStep, hp] at ht

theorem idle_told {p : Proc} (h : Idle n w p) (hi : p.i < limit n w) :
    Told n w { p with pending := true } := by
  obtain ⟨hflag, -, hpc⟩ := h
  refine ⟨hflag, hi, ?_⟩
  cases hp : p.pc <;> simp only [hp] at hpc ⊢
  case loop => exact hpc
  case exited => exact absurd hi (Nat.not_lt.mpr hpc.2)

/-- While one of them is at work the other still has rounds to go. -/
theorem idle_remains (h : TurnOf n w s) (hp : (s.proc w).pc = .tell) (hi : (s.proc w).i < limit n w) :
    (s.proc w.other).i < limit n w.other := by
  have horder := h.order
  cases w with
  | parent =>
    have hchild : nextUpdate .child (s.proc .child) = (s.proc .child).i := rfl
    simp only [nextUpdate, hp, Side.other] at horder
    simp only [limit, Side.other] at hi ⊢
    omega
  | child =>
    have hpc := h.idle.pc
    simp only [Side.other] at hpc ⊢
    cases hq : (s.proc .parent).pc <;> simp [hq] at hpc <;> exact hpc

/-- `TELL_CHILD` and `TELL_PARENT` give the turn away. -/
theorem tell_step (h : TurnOf n w s) (hp : (s.proc w).pc = .tell) (hw : Works n w s.area (s.proc w))
    (ht : step n oldmask s w = some t) :
    TurnOf n w.other t ∧ (∀ v, ¬ Lost (t.proc v)) ∧ t.area = s.area ∧ t.log = s.log ∧
      left n t < left n s := by
  have hremains := idle_remains h hp
  obtain ⟨hwhose, hidle, horder, -⟩ := h
  obtain ⟨hflag, hpend, hpc⟩ := hw
  simp only [hp] at hpc
  have hstep : step n oldmask s w = some ((s.set w (afterTell w (s.proc w))).kill w.other) := by
    simp [step, hp]
  obtain rfl := Option.some.inj (hstep.symm.trans ht)
  have hself : ((s.set w (afterTell w (s.proc w))).kill w.other).proc w = afterTell w (s.proc w) := by
    simp [State.kill]
  have hother : ((s.set w (afterTell w (s.proc w))).kill w.other).proc w.other =
      { s.proc w.other with pending := true } := by
    simp [State.kill]
  have hnext : nextUpdate w (afterTell w (s.proc w)) = nextUpdate w (s.proc w) + 2 := by
    cases w <;> simp [nextUpdate, afterTell, hp]
  have hcurrent : nextUpdate w (s.proc w) = (s.proc w).i := by cases w <;> simp [nextUpdate, hp]
  have hidle' : Idle n w (afterTell w (s.proc w)) := by
    cases w with
    | parent => exact ⟨hflag, hpend, hpc.2.2⟩
    | child => exact ⟨hflag, hpend, rfl⟩
  have hsame : nextUpdate w.other { s.proc w.other with pending := true } =
      nextUpdate w.other (s.proc w.other) := rfl
  have htold := idle_told hidle (hremains hpc.2.2)
  refine ⟨⟨?_, ?_, ?_, .inl ⟨?_, ?_⟩⟩, ?_, rfl, rfl, ?_⟩
  · rw [hother, hsame, horder]
    exact turnOf_succ hwhose
  · rw [other_other, hself]
    exact hidle'
  · rw [other_other, hself, hother, hsame, hnext, horder]
  · rw [hother]
    exact htold
  · rw [hother, hsame, horder, hcurrent]
    exact hpc.1
  · intro v
    obtain rfl | rfl := eq_or_other w v
    · rw [hself]
      exact idle_not_lost hidle'
    · rw [hother]
      exact fun hl => absurd hl.2.1 (by simp)
  · rw [left_eq n _ w, left_eq n _ w, hself, hother]
    have hless : price n w (afterTell w (s.proc w)) + 3 < price n w (s.proc w) := by
      cases w with
      | parent => simp [price, rank, afterTell, hp, hpend]
      | child =>
        have hi : (s.proc .child).i < n + 1 := hpc.2.2
        simp only [price, rank, afterTell, hp, hpend]
        omega
    have hpending : price n w.other { s.proc w.other with pending := true } =
        price n w.other (s.proc w.other) + 3 := by
      simp [price, hidle.pending]
    omega

/-! ## Steps of the pair -/

/-- A move of the process with the turn, or of the one that waits, that leaves the rest as it is. -/
theorem turn_set (h : TurnOf n w s) {q : Proc} (hnext : nextUpdate w q = nextUpdate w (s.proc w))
    (hq : Told n w q ∧ s.area = nextUpdate w q ∨ Works n w s.area q) : TurnOf n w (s.set w q) := by
  constructor
  · rw [set_proc, hnext]
    exact h.whose
  · rw [set_proc_other]
    exact h.idle
  · rw [set_proc_other, set_proc, hnext]
    exact h.order
  · rw [set_proc]
    exact hq

theorem left_set (s : State) {q : Proc} (hless : price n w q < price n w (s.proc w)) :
    left n (s.set w q) < left n s := by
  rw [left_eq n _ w, left_eq n _ w, set_proc, set_proc_other]
  omega

/-- What a step of the pair does: the counter is updated in turns, and a signal is lost only by a
delivery between the test and `sigsuspend`. -/
structure Advances (n : ℕ) (s : State) (a : Action) (t : State) : Prop where
  inv : Inv n t
  less : left n t < left n s
  kept : ∀ v, Lost (s.proc v) → Lost (t.proc v)
  lost : ∀ v, Lost (t.proc v) → Lost (s.proc v) ∨ caught s a = false

theorem Advances.keeps {a : Action} (h : Advances n s a t) (hlost : ∀ w, ¬ Lost (s.proc w))
    (ha : caught s a = true) : ∀ w, ¬ Lost (t.proc w) := by
  intro w hl
  obtain hl | hmissed := h.lost w hl
  · exact hlost w hl
  · exact absurd ha (by simp [hmissed])

theorem idle_advances (hlog : s.log = (List.range s.area).map turnOf) (h : TurnOf n w s)
    (ht : step n oldmask s w.other = some t) : Advances n s (.step w.other) t := by
  obtain ⟨q, rfl, hq, hnext, hless⟩ := idle_step h.idle ht
  have hset : ∀ v, Lost ((s.set w.other q).proc v) ↔ Lost (s.proc v) := by
    intro v
    obtain rfl | rfl := eq_or_other w v
    · rw [set_other_proc]
    · rw [set_proc]
      exact ⟨fun hl => absurd hl (idle_not_lost hq), fun hl => absurd hl (idle_not_lost h.idle)⟩
  refine ⟨⟨hlog, w, ⟨?_, ?_, ?_, ?_⟩⟩, left_set s hless, fun v => (hset v).mpr,
    fun v hl => .inl ((hset v).mp hl)⟩
  · rw [set_other_proc]
    exact h.whose
  · rw [set_proc]
    exact hq
  · rw [set_proc, set_other_proc, hnext]
    exact h.order
  · rw [set_other_proc]
    exact h.turn

theorem told_advances (hlog : s.log = (List.range s.area).map turnOf) (h : TurnOf n w s)
    (htold : Told n w (s.proc w)) (harea : s.area = nextUpdate w (s.proc w))
    (ht : step n oldmask s w = some t) : Advances n s (.step w) t := by
  obtain ⟨q, rfl, hnext, hless, hq⟩ := told_step htold harea ht
  have hset : ∀ v, Lost ((s.set w q).proc v) ↔ Lost (s.proc v) := by
    intro v
    obtain rfl | rfl := eq_or_other w v
    · rw [set_proc]
      obtain ⟨-, hlost⟩ | ⟨hq, hnot⟩ := hq
      · exact hlost
      · exact ⟨fun hl => absurd hl (works_not_lost hq), fun hl => absurd hl hnot⟩
    · rw [set_proc_other]
  refine ⟨⟨hlog, w, turn_set h hnext ?_⟩, left_set s hless, fun v => (hset v).mpr,
    fun v hl => .inl ((hset v).mp hl)⟩
  rw [hnext]
  exact hq.imp (fun hq => ⟨hq.1, harea⟩) And.left

theorem deliver_advances (hlog : s.log = (List.range s.area).map turnOf) (h : TurnOf n w s)
    (htold : Told n w (s.proc w)) (harea : s.area = nextUpdate w (s.proc w))
    (ht : deliver s w = some t) : Advances n s (.deliver w) t := by
  obtain ⟨q, rfl, hnext, hless, hq, hlost, hnot⟩ := told_deliver htold ht
  refine ⟨⟨hlog, w, turn_set h hnext (.inl ⟨hq, harea.trans hnext.symm⟩)⟩, left_set s hless, ?_, ?_⟩
  · intro v hl
    obtain rfl | rfl := eq_or_other w v
    · exact absurd hl hnot
    · rwa [set_proc_other]
  · intro v hl
    obtain rfl | rfl := eq_or_other w v
    · rw [set_proc] at hl
      exact .inr (by simp [caught, hlost hl])
    · rw [set_proc_other] at hl
      exact .inl hl

theorem works_advances (hlog : s.log = (List.range s.area).map turnOf) (h : TurnOf n w s)
    (hw : Works n w s.area (s.proc w)) (ht : step n oldmask s w = some t) :
    Advances n s (.step w) t := by
  have hnot : ∀ v, ¬ Lost (s.proc v) := by
    intro v
    obtain rfl | rfl := eq_or_other w v
    · exact works_not_lost hw
    · exact idle_not_lost h.idle
  by_cases hp : (s.proc w).pc = .tell
  · obtain ⟨hturn, hnone, harea, hlog', hless⟩ := tell_step h hp hw ht
    exact ⟨⟨by rw [hlog', harea, hlog], _, hturn⟩, hless, fun v hl => absurd hl (hnot v),
      fun v hl => absurd hl (hnone v)⟩
  · obtain ⟨q, hproc, hq, hnext, hless, hupdate⟩ := works_step hw hp ht
    have hself : t.proc w = q := by rw [hproc, set_proc]
    have hother : t.proc w.other = s.proc w.other := by rw [hproc, set_proc_other]
    refine ⟨⟨?_, w, ⟨?_, ?_, ?_, ?_⟩⟩, ?_, fun v hl => absurd hl (hnot v), ?_⟩
    · obtain ⟨harea, hlog'⟩ | ⟨harea, hlog', hnumber⟩ := hupdate
      · rw [harea, hlog', hlog]
      · rw [harea, hlog', hlog, List.range_succ, List.map_append, List.map_singleton, hnumber, h.whose]
    · rw [hself, hnext]
      exact h.whose
    · rw [hother]
      exact h.idle
    · rw [hself, hother, hnext]
      exact h.order
    · rw [hself]
      exact .inr hq
    · rw [left_eq n _ w, left_eq n _ w, hself, hother]
      omega
    · intro v hl
      obtain rfl | rfl := eq_or_other w v
      · rw [hself] at hl
        exact absurd hl (works_not_lost hq)
      · rw [hother] at hl
        exact .inl hl

theorem advances {a : Action} (h : Inv n s) (ht : next n oldmask s a = some t) : Advances n s a t := by
  obtain ⟨hlog, w, hturn⟩ := h
  cases a with
  | step v =>
    obtain rfl | rfl := eq_or_other w v
    · obtain ⟨htold, harea⟩ | hw := hturn.turn
      · exact told_advances hlog hturn htold harea ht
      · exact works_advances hlog hturn hw ht
    · exact idle_advances hlog hturn ht
  | deliver v =>
    have hnone {v : Side} (hn : deliver s v = none) (ht : deliver s v = some t) : False := by
      rw [hn] at ht
      cases ht
    obtain rfl | rfl := eq_or_other w v
    · obtain ⟨htold, harea⟩ | hw := hturn.turn
      · exact deliver_advances hlog hturn htold harea ht
      · exact (hnone (works_deliver hw) ht).elim
    · exact (hnone (idle_deliver hturn.idle) ht).elim

/-! ## Whole runs -/

def Done (s : State) : Prop := ∀ w, (s.proc w).pc = .exited

/-- Both wait in `sigsuspend` and no signal is pending. -/
def Deadlocked (s : State) : Prop := ∀ w, (s.proc w).pc = .suspended ∧ (s.proc w).pending = false

theorem told_enabled (h : Told n w (s.proc w)) (hlost : ¬ Lost (s.proc w)) :
    ∃ a t, caught s a = true ∧ next n oldmask s a = some t := by
  obtain ⟨honce, hremain, hpc⟩ := h
  cases hp : (s.proc w).pc <;> simp only [hp] at hpc
  case suspended =>
    have hpend : (s.proc w).pending = true := by
      by_contra hpend
      have hpend : (s.proc w).pending = false := by simpa using hpend
      exact hlost ⟨by simp [honce, hpend], hpend, .inr hp⟩
    exact ⟨.deliver w, _, by simp [caught, hp], if_pos ⟨hpend, .inl hp, by simp [hp], by simp [hp]⟩⟩
  all_goals exact ⟨.step w, _, rfl, by simp only [next, step, ownStep, hp]; rfl⟩

theorem exited_enabled (h : TurnOf n .parent s) (hp : (s.proc .parent).pc = .exited)
    (hi : n ≤ (s.proc .parent).i) :
    Done s ∨ ∃ a t, caught s a = true ∧ next n oldmask s a = some t := by
  have horder : (s.proc .child).i = (s.proc .parent).i + 1 := by
    have horder := h.order
    rwa [show nextUpdate .parent (s.proc .parent) = (s.proc .parent).i by simp [nextUpdate, hp]] at horder
  have hpc : match (s.proc .child).pc with
      | .loop => Side.child = .child
      | .test | .enter | .suspended => (s.proc .child).i < limit n .child
      | .exited => Side.child = .child ∧ limit n .child ≤ (s.proc .child).i
      | _ => False := h.idle.pc
  have hpast : ¬ (s.proc .child).i < limit n .child := by
    simp only [limit]
    omega
  cases hq : (s.proc .child).pc <;> simp only [hq] at hpc
  case loop => exact .inr ⟨.step .child, _, rfl, by simp only [next, step, ownStep, hq]; rfl⟩
  case exited =>
    left
    intro w
    cases w with
    | parent => exact hp
    | child => exact hq
  all_goals exact absurd hpc hpast

theorem works_enabled (h : TurnOf n w s) (hw : Works n w s.area (s.proc w)) :
    Done s ∨ ∃ a t, caught s a = true ∧ next n oldmask s a = some t := by
  have hpc := hw.pc
  cases hp : (s.proc w).pc <;> simp only [hp] at hpc
  case exited =>
    obtain ⟨rfl, -, hi⟩ := hpc
    exact exited_enabled h hp hi
  all_goals exact .inr ⟨.step w, _, rfl, by simp only [next, step, ownStep, hp]; rfl⟩

theorem enabled (h : Inv n s) (hlost : ∀ w, ¬ Lost (s.proc w)) :
    Done s ∨ ∃ a t, caught s a = true ∧ next n oldmask s a = some t := by
  obtain ⟨-, w, hturn⟩ := h
  obtain ⟨htold, -⟩ | hw := hturn.turn
  · exact .inr (told_enabled htold (hlost w))
  · exact works_enabled hturn hw

theorem finishes (h : Inv n s) (hlost : ∀ w, ¬ Lost (s.proc w)) :
    Finishes (next n oldmask) (fun s a => caught s a = true) Done s := by
  refine finishes_of_work (left n) (I := fun s => Inv n s ∧ ∀ w, ¬ Lost (s.proc w)) ?_ ?_ ⟨h, hlost⟩
  · rintro s ⟨hs, hlost⟩
    exact enabled hs hlost
  · rintro s a t ⟨hs, hlost⟩ ha ht
    have hadv := advances hs ht
    exact ⟨⟨hadv.inv, hadv.keeps hlost ha⟩, hadv.less⟩

theorem lost_hangs (h : Finishes (next n oldmask) (fun s a => caught s a = true) Done s) (hinv : Inv n s) :
    ∀ w, ¬ Lost (s.proc w) := by
  induction h with
  | intro s hends _ ih =>
    intro w hl
    obtain hdone | ⟨a, t, ha, ht⟩ := hends
    · obtain ⟨-, -, hpc | hpc⟩ := hl <;> simp [hdone w] at hpc
    · have hadv := advances hinv ht
      exact ih a t ha ht hadv.inv w (hadv.kept w hl)

theorem not_quit (h : Inv n s) (w : Side) : (s.proc w).pc ≠ .quit := by
  obtain ⟨-, v, hturn⟩ := h
  intro hp
  obtain rfl | rfl := eq_or_other v w
  · obtain ⟨htold, -⟩ | hw := hturn.turn
    · simpa [hp] using htold.pc
    · simpa [hp] using hw.pc
  · simpa [hp] using hturn.idle.pc

/-- Of two suspended processes with no signal pending one has lost its signal. -/
theorem deadlocked_lost (h : Inv n s) (hd : Deadlocked s) : ∃ w, Lost (s.proc w) := by
  obtain ⟨-, w, hturn⟩ := h
  obtain ⟨hp, hpend⟩ := hd w
  obtain ⟨htold, -⟩ | hw := hturn.turn
  · exact ⟨w, by simp [htold.once, hpend], hpend, .inr hp⟩
  · exact absurd hw.pc (by simp [hp])

theorem inv_start (n : ℕ) : Inv n start where
  alternates := rfl
  turn := ⟨.parent, rfl, ⟨rfl, rfl, rfl⟩, rfl, .inr ⟨rfl, rfl, rfl, rfl⟩⟩

/-- The counter is updated in turns whatever happens, and the loop comes to its end exactly when
no signal has been lost; so it does in every run in which none is delivered between a test of
`sigflag` and the `sigsuspend` after it. -/
theorem turns_alternate (n : ℕ) (oldmask : Side → Bool) {s : State}
    (h : Run (next n oldmask) anyStep start s) :
    s.log = (List.range s.area).map turnOf ∧ (∀ w, (s.proc w).pc ≠ .quit) ∧
      (Finishes (next n oldmask) (fun s a => caught s a = true) Done s ↔ ∀ w, ¬ Lost (s.proc w)) ∧
      (Run (next n oldmask) (fun s a => caught s a = true) start s →
        ¬ Deadlocked s ∧ Finishes (next n oldmask) (fun s a => caught s a = true) Done s) := by
  have hinv : Inv n s := h.invariant (inv_start n) fun _ _ _ hs _ ht => (advances hs ht).inv
  refine ⟨hinv.alternates, not_quit hinv, ⟨fun hf => lost_hangs hf hinv, finishes hinv⟩, fun hrun => ?_⟩
  have hgood : Inv n s ∧ ∀ w, ¬ Lost (s.proc w) := by
    refine hrun.invariant (I := fun s => Inv n s ∧ ∀ w, ¬ Lost (s.proc w)) ?_ ?_
    · exact ⟨inv_start n, fun w hl => by cases w <;> exact absurd hl.1 (by decide)⟩
    · rintro s a t ⟨hs, hlost⟩ ha ht
      have hadv := advances hs ht
      exact ⟨hadv.inv, hadv.keeps hlost ha⟩
  refine ⟨fun hd => ?_, finishes hinv hgood.2⟩
  obtain ⟨w, hl⟩ := deadlocked_lost hinv hd
  exact hgood.2 w hl

end Steps

/-- The first round: the parent updates, tells and suspends, the child wakes up and does the same. -/
def firstRound : List Action :=
  [.step .parent, .step .parent, .step .parent, .step .parent, .step .parent,
    .step .child, .step .child, .step .child, .deliver .child, .step .child, .step .child,
    .step .child, .step .child, .step .child, .step .child, .step .child,
    .step .parent, .step .parent, .deliver .parent, .step .parent, .step .parent, .step .parent]

/-- The second round begins with the signal coming while the child is suspended. -/
theorem turns_alternate_second_round :
    ∃ s, s.log = [.parent, .child, .parent] ∧ (s.proc .child).sigflag = true ∧ ¬ Deadlocked s ∧
      Finishes (next 3 fun _ => false) (fun s a => caught s a = true) Done s := by
  obtain ⟨s, hrun, hs⟩ := followAllowed_reaches caught (next 3 fun _ => false) start
    (firstRound ++ [.step .child, .step .child, .step .child, .step .parent, .step .parent,
      .step .parent, .step .parent, .step .parent, .deliver .child])
    (fun s => s.log = [.parent, .child, .parent] && (s.proc .child).sigflag) (by decide +kernel)
  simp only [Bool.and_eq_true, decide_eq_true_eq] at hs
  have hany : Run (next 3 fun _ => false) anyStep start s := hrun.mono fun _ _ _ => trivial
  exact ⟨s, hs.1, hs.2, (turns_alternate 3 (fun _ => false) hany).2.2.2 hrun⟩

/-- The same, but the signal comes between the child's test and its `sigsuspend`: both processes
wait for ever, with one update of the four missing. -/
theorem signal_before_suspend_deadlocks :
    ∃ s, Run (next 3 fun _ => false) anyStep start s ∧ s.area = 3 ∧ Deadlocked s := by
  obtain ⟨s, hrun, hs⟩ := followAllowed_reaches (fun _ _ => true) (next 3 fun _ => false) start
    (firstRound ++ [.step .child, .step .child, .step .parent, .step .parent,
      .step .parent, .step .parent, .step .parent, .deliver .child, .step .child, .step .parent,
      .step .parent])
    (fun s => s.area = 3 && (s.proc .parent).pc = .suspended && (s.proc .parent).pending = false &&
      (s.proc .child).pc = .suspended && (s.proc .child).pending = false) (by decide +kernel)
  simp only [Bool.and_eq_true, decide_eq_true_eq] at hs
  obtain ⟨⟨⟨⟨harea, hp⟩, hp'⟩, hc⟩, hc'⟩ := hs
  refine ⟨s, hrun.mono fun _ _ _ => trivial, harea, fun w => ?_⟩
  cases w with
  | parent => exact ⟨hp, hp'⟩
  | child => exact ⟨hc, hc'⟩

end TellWait
