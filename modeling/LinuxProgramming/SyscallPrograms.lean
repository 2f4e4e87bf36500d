import LinuxProgramming.ByteFiles
import Mathlib.Logic.Function.Basic

/-! # Programs that act by system calls, alone and side by side

A program is a tree of file and record-lock calls. The same tree has two meanings: run
by one process with nobody else there, and run by many processes whose calls interleave.
Between two of its calls a process computes on private memory only, so one step of the
interleaving is one call together with the computation that follows it. -/
namespace SyscallPrograms

open CStrings ByteFiles Function

inductive LockMode where
  | read
  | write
  deriving DecidableEq, Repr

/-- `φ` names the files, `ε` the fatal errors. `hang` is a loop that used up the number of
rounds it was given. Reads and writes are positioned. -/
inductive Prog (φ ε α : Type) : Type where
  | ret (a : α)
  | abort (e : ε)
  | hang
  | lock (fd : φ) (m : LockMode) (start len : ℕ) (k : Prog φ ε α)
  | unlock (fd : φ) (start len : ℕ) (k : Prog φ ε α)
  | read (fd : φ) (off n : ℕ) (k : List Byte → Prog φ ε α)
  | write (fd : φ) (off : ℕ) (bs : List Byte) (k : Prog φ ε α)
  | size (fd : φ) (k : ℕ → Prog φ ε α)
  | truncate (fd : φ) (k : Prog φ ε α)

variable {φ ε α β : Type}

namespace Prog

def bind : Prog φ ε α → (α → Prog φ ε β) → Prog φ ε β
  | ret a, f => f a
  | abort e, _ => abort e
  | hang, _ => hang
  | lock fd m s l k, f => lock fd m s l (bind k f)
  | unlock fd s l k, f => unlock fd s l (bind k f)
  | read fd o n k, f => read fd o n fun bs => bind (k bs) f
  | write fd o bs k, f => write fd o bs (bind k f)
  | size fd k, f => size fd fun n => bind (k n) f
  | truncate fd k, f => truncate fd (bind k f)

instance : Monad (Prog φ ε) where
  pure := ret
  bind := bind

@[simp] theorem pure_eq (a : α) : (pure a : Prog φ ε α) = ret a := rfl
@[simp] theorem ret_bind (a : α) (f : α → Prog φ ε β) : (ret a >>= f) = f a := rfl
@[simp] theorem abort_bind (e : ε) (f : α → Prog φ ε β) : (abort e >>= f) = abort e := rfl
@[simp] theorem hang_bind (f : α → Prog φ ε β) : ((hang : Prog φ ε α) >>= f) = hang := rfl
@[simp] theorem lock_bind (fd : φ) (m : LockMode) (s l : ℕ) (k : Prog φ ε α)
    (f : α → Prog φ ε β) : (lock fd m s l k >>= f) = lock fd m s l (k >>= f) := rfl
@[simp] theorem unlock_bind (fd : φ) (s l : ℕ) (k : Prog φ ε α) (f : α → Prog φ ε β) :
    (unlock fd s l k >>= f) = unlock fd s l (k >>= f) := rfl
@[simp] theorem read_bind (fd : φ) (o n : ℕ) (k : List Byte → Prog φ ε α)
    (f : α → Prog φ ε β) : (read fd o n k >>= f) = read fd o n fun bs => k bs >>= f := rfl
@[simp] theorem write_bind (fd : φ) (o : ℕ) (bs : List Byte) (k : Prog φ ε α)
    (f : α → Prog φ ε β) : (write fd o bs k >>= f) = write fd o bs (k >>= f) := rfl
@[simp] theorem size_bind (fd : φ) (k : ℕ → Prog φ ε α) (f : α → Prog φ ε β) :
    (size fd k >>= f) = size fd fun n => k n >>= f := rfl
@[simp] theorem truncate_bind (fd : φ) (k : Prog φ ε α) (f : α → Prog φ ε β) :
    (truncate fd k >>= f) = truncate fd (k >>= f) := rfl

end Prog

/-! ## One process alone -/

inductive Outcome (φ ε α : Type) where
  | done (a : α) (files : φ → List Byte)
  | aborted (e : ε) (files : φ → List Byte)
  | hung (files : φ → List Byte)

variable [DecidableEq φ]

def Prog.run : Prog φ ε α → (φ → List Byte) → Outcome φ ε α
  | .ret a, fs => .done a fs
  | .abort e, fs => .aborted e fs
  | .hang, fs => .hung fs
  | .lock _ _ _ _ k, fs => k.run fs
  | .unlock _ _ _ k, fs => k.run fs
  | .read fd o n k, fs => (k (pread (fs fd) o n)).run fs
  | .write fd o bs k, fs => k.run (Function.update fs fd (pwrite (fs fd) o bs))
  | .size fd k, fs => (k (fs fd).length).run fs
  | .truncate fd k, fs => k.run (Function.update fs fd [])

def Outcome.andThen (x : Outcome φ ε α) (f : α → (φ → List Byte) → Outcome φ ε β) :
    Outcome φ ε β :=
  match x with
  | .done a fs => f a fs
  | .aborted e fs => .aborted e fs
  | .hung fs => .hung fs

theorem run_bind (p : Prog φ ε α) (f : α → Prog φ ε β) (fs : φ → List Byte) :
    (p >>= f).run fs = (p.run fs).andThen fun a fs' => (f a).run fs' := by
  induction p generalizing fs with
  | ret a => rfl
  | abort e => rfl
  | hang => rfl
  | lock fd m s l k ih => exact ih fs
  | unlock fd s l k ih => exact ih fs
  | read fd o n k ih => exact ih _ fs
  | write fd o bs k ih => exact ih _
  | size fd k ih => exact ih _ fs
  | truncate fd k ih => exact ih _

/-! ## Record locks

The table holds, for every process and every byte of every file, the mode in which the
process has that byte locked. Setting a lock converts what the process itself holds. -/

variable {ι : Type} [DecidableEq ι]

abbrev Locks (ι φ : Type) := ι → φ → ℕ → Option LockMode

/-- Length zero means to the end of the file, however far it grows. -/
def InRange (start len b : ℕ) : Prop := start ≤ b ∧ (len = 0 ∨ b < start + len)

instance (start len b : ℕ) : Decidable (InRange start len b) :=
  inferInstanceAs (Decidable (_ ∧ (_ ∨ _)))

def Compatible : Option LockMode → LockMode → Prop
  | none, _ => True
  | some .read, .read => True
  | some _, _ => False

def Grantable (lk : Locks ι φ) (p : ι) (fd : φ) (m : LockMode) (start len : ℕ) : Prop :=
  ∀ q, q ≠ p → ∀ b, InRange start len b → Compatible (lk q fd b) m

def setRange (lk : Locks ι φ) (p : ι) (fd : φ) (start len : ℕ) (v : Option LockMode) :
    Locks ι φ :=
  fun q f b => if q = p ∧ f = fd ∧ InRange start len b then v else lk q f b

def releaseAll (lk : Locks ι φ) (p : ι) : Locks ι φ := fun q => if q = p then fun _ _ => none else lk q

def noLocks : Locks ι φ := fun _ _ _ => none

/-- Two processes hold one byte together only when both hold it for reading. -/
def Exclusive (lk : Locks ι φ) : Prop :=
  ∀ p q fd b m, p ≠ q → lk p fd b = some m → Compatible (lk q fd b) m

omit [DecidableEq φ] [DecidableEq ι] in
theorem exclusive_noLocks : Exclusive (noLocks : Locks ι φ) := by
  intro p q fd b m _ h
  cases h

theorem setRange_other {lk : Locks ι φ} {p q : ι} (h : q ≠ p) (fd : φ) (s l : ℕ)
    (v : Option LockMode) : setRange lk p fd s l v q = lk q := by
  funext f b
  simp [setRange, h]

theorem setRange_self {lk : Locks ι φ} (p : ι) (fd f : φ) (s l b : ℕ) (v : Option LockMode) :
    setRange lk p fd s l v p f b = if f = fd ∧ InRange s l b then v else lk p f b := by
  simp [setRange]

theorem compatible_symm {a b : LockMode} (h : Compatible (some a) b) : Compatible (some b) a := by
  cases a <;> cases b <;> exact h

theorem exclusive_grant {lk : Locks ι φ} (h : Exclusive lk) {p : ι} {fd : φ} {m : LockMode}
    {s l : ℕ} (hg : Grantable lk p fd m s l) : Exclusive (setRange lk p fd s l (some m)) := by
  intro a b f x m' hab ha
  by_cases hap : a = p
  · subst a
    have hb : b ≠ p := fun e => hab e.symm
    rw [setRange_other hb]
    rw [setRange_self] at ha
    split at ha
    · rename_i hr
      obtain ⟨rfl, hr⟩ := hr
      cases ha
      exact hg b hb x hr
    · exact h p b f x m' hab ha
  · rw [setRange_other hap] at ha
    by_cases hbp : b = p
    · subst b
      rw [setRange_self]
      split
      · rename_i hr
        obtain ⟨rfl, hr⟩ := hr
        have := hg a hap x hr
        rw [ha] at this
        exact compatible_symm this
      · exact h a p f x m' hab ha
    · rw [setRange_other hbp]
      exact h a b f x m' hab ha

theorem exclusive_release {lk : Locks ι φ} (h : Exclusive lk) (p : ι) (fd : φ) (s l : ℕ) :
    Exclusive (setRange lk p fd s l none) := by
  intro a b f x m hab ha
  have ha' : lk a f x = some m := by
    unfold setRange at ha
    split at ha
    · cases ha
    · exact ha
  have hb := h a b f x m hab ha'
  unfold setRange
  split
  · trivial
  · exact hb

/-! ## Processes side by side -/

/-- What happened in a run: locks set and released, what was read and written, calls that
returned and calls that aborted. -/
inductive Event (ι φ ε κ ρ : Type) where
  | locked (p : ι) (fd : φ) (m : LockMode) (start len : ℕ)
  | unlocked (p : ι) (fd : φ) (start len : ℕ)
  | got (p : ι) (c : κ) (fd : φ) (off n : ℕ) (bs : List Byte)
  | wrote (p : ι) (c : κ) (fd : φ) (off : ℕ) (bs : List Byte)
  | returned (p : ι) (c : κ) (r : ρ)
  | aborted (p : ι) (c : κ) (e : ε)

def Event.proc {ι φ ε κ ρ : Type} : Event ι φ ε κ ρ → ι
  | .locked p _ _ _ _ => p
  | .unlocked p _ _ _ => p
  | .got p _ _ _ _ _ => p
  | .wrote p _ _ _ _ => p
  | .returned p _ _ => p
  | .aborted p _ _ => p

def Event.isRead {ι φ ε κ ρ : Type} : Event ι φ ε κ ρ → Prop
  | .got _ _ _ _ _ _ => True
  | _ => False

structure Shared (ι φ ε κ ρ : Type) where
  files : φ → List Byte
  locks : Locks ι φ
  trace : List (Event ι φ ε κ ρ)

variable {κ ρ η : Type}

/-- One system call of process `p` inside its call `c`. A lock request that is not
grantable does not fire: the process stays blocked. -/
inductive Fires (p : ι) (c : κ) :
    Prog φ ε α → Shared ι φ ε κ ρ → Prog φ ε α → Shared ι φ ε κ ρ → Prop where
  | lock (fd m start len k) (s : Shared ι φ ε κ ρ)
      (hg : Grantable s.locks p fd m start len) :
      Fires p c (.lock fd m start len k) s k
        { s with
          locks := setRange s.locks p fd start len (some m)
          trace := s.trace ++ [.locked p fd m start len] }
  | unlock (fd start len k) (s : Shared ι φ ε κ ρ) :
      Fires p c (.unlock fd start len k) s k
        { s with
          locks := setRange s.locks p fd start len none
          trace := s.trace ++ [.unlocked p fd start len] }
  | read (fd off n k) (s : Shared ι φ ε κ ρ) :
      Fires p c (.read fd off n k) s (k (pread (s.files fd) off n))
        { s with trace := s.trace ++ [.got p c fd off n (pread (s.files fd) off n)] }
  | write (fd off bs k) (s : Shared ι φ ε κ ρ) :
      Fires p c (.write fd off bs k) s k
        { s with
          files := Function.update s.files fd (pwrite (s.files fd) off bs)
          trace := s.trace ++ [.wrote p c fd off bs] }
  | size (fd k) (s : Shared ι φ ε κ ρ) :
      Fires p c (.size fd k) s (k (s.files fd).length) s
  | truncate (fd k) (s : Shared ι φ ε κ ρ) :
      Fires p c (.truncate fd k) s k { s with files := Function.update s.files fd [] }

/-- A process keeps private memory `η` from call to call. -/
inductive Proc (φ ε κ ρ η : Type) where
  | idle (h : η)
  | busy (c : κ) (k : Prog φ ε (ρ × η))
  | dead

structure World (ι φ ε κ ρ η : Type) where
  shared : Shared ι φ ε κ ρ
  proc : ι → Proc φ ε κ ρ η

/-- The computation behind a system call may end the call: it returns, or the process
aborts and the kernel drops its locks. -/
def settle (s : Shared ι φ ε κ ρ) (proc : ι → Proc φ ε κ ρ η) (p : ι) (c : κ) :
    Prog φ ε (ρ × η) → World ι φ ε κ ρ η
  | .ret (r, h) => ⟨{ s with trace := s.trace ++ [.returned p c r] },
      Function.update proc p (.idle h)⟩
  | .abort e => ⟨{ s with locks := releaseAll s.locks p, trace := s.trace ++ [.aborted p c e] },
      Function.update proc p .dead⟩
  | k => ⟨s, Function.update proc p (.busy c k)⟩

/-- `allowed p c` says which calls process `p` may make. -/
inductive Step (exec : κ → η → Prog φ ε (ρ × η)) (allowed : ι → κ → Prop) :
    World ι φ ε κ ρ η → World ι φ ε κ ρ η → Prop where
  | call (w : World ι φ ε κ ρ η) (p : ι) (c : κ) (h : η) (hp : w.proc p = .idle h)
      (ha : allowed p c) : Step exec allowed w (settle w.shared w.proc p c (exec c h))
  | act (w : World ι φ ε κ ρ η) (p : ι) (c : κ) (k k' : Prog φ ε (ρ × η))
      (s' : Shared ι φ ε κ ρ) (hp : w.proc p = .busy c k) (hf : Fires p c k w.shared k' s') :
      Step exec allowed w (settle s' w.proc p c k')

inductive Execution (exec : κ → η → Prog φ ε (ρ × η)) (allowed : ι → κ → Prop) :
    World ι φ ε κ ρ η → World ι φ ε κ ρ η → Prop where
  | refl (w) : Execution exec allowed w w
  | tail {w u v} : Execution exec allowed w u → Step exec allowed u v →
      Execution exec allowed w v

/-! ## The lock table of a trace -/

def Event.lockTable (lk : Locks ι φ) : Event ι φ ε κ ρ → Locks ι φ
  | .locked p fd m start len => setRange lk p fd start len (some m)
  | .unlocked p fd start len => setRange lk p fd start len none
  | .got _ _ _ _ _ _ => lk
  | .wrote _ _ _ _ _ => lk
  | .returned _ _ _ => lk
  | .aborted p _ _ => releaseAll lk p

def locksAfter (tr : List (Event ι φ ε κ ρ)) : Locks ι φ := tr.foldl Event.lockTable noLocks

theorem locksAfter_concat (tr : List (Event ι φ ε κ ρ)) (e : Event ι φ ε κ ρ) :
    locksAfter (tr ++ [e]) = e.lockTable (locksAfter tr) := List.foldl_concat _ _ _ _

/-! ## A process that nobody disturbs -/

theorem Execution.trans {exec : κ → η → Prog φ ε (ρ × η)} {allowed : ι → κ → Prop}
    {w u v : World ι φ ε κ ρ η} (h : Execution exec allowed w u)
    (h' : Execution exec allowed u v) : Execution exec allowed w v := by
  induction h' with
  | refl => exact h
  | tail _ hs ih => exact ih.tail hs

def Event.inside : Event ι φ ε κ ρ → Prop
  | .returned _ _ _ => False
  | .aborted _ _ _ => False
  | _ => True

/-- The process `p` is the only one that holds locks. -/
def Alone (lk : Locks ι φ) (p : ι) : Prop := ∀ q, q ≠ p → ∀ fd b, lk q fd b = none

theorem alone_setRange {lk : Locks ι φ} {p : ι} (h : Alone lk p) (fd : φ) (s l : ℕ)
    (v : Option LockMode) : Alone (setRange lk p fd s l v) p := by
  intro q hq f b
  rw [setRange_other hq]
  exact h q hq f b

/-- The world after `p` has run to the return of its call. -/
structure RunsTo (s : Shared ι φ ε κ ρ) (proc : ι → Proc φ ε κ ρ η) (p : ι) (c : κ) (r : ρ × η)
    (fs : φ → List Byte) (w : World ι φ ε κ ρ η) : Prop where
  files : w.shared.files = fs
  trace : ∃ tr, w.shared.trace = s.trace ++ tr ++ [.returned p c r.1] ∧ ∀ e ∈ tr, e.inside
  proc : w.proc = Function.update proc p (.idle r.2)

omit [DecidableEq φ] in
theorem RunsTo.step {s s' : Shared ι φ ε κ ρ} {proc proc' : ι → Proc φ ε κ ρ η} {p : ι} {c : κ}
    {r : ρ × η} {fs : φ → List Byte} {w : World ι φ ε κ ρ η} {e : Event ι φ ε κ ρ}
    (h : RunsTo s' proc' p c r fs w) (he : e.inside) (htr : s'.trace = s.trace ++ [e])
    (hproc : Function.update proc' p (.idle r.2) = Function.update proc p (.idle r.2)) :
    RunsTo s proc p c r fs w := by
  obtain ⟨tr, ht, hin⟩ := h.trace
  refine ⟨h.files, ⟨e :: tr, ?_, ?_⟩, h.proc.trans hproc⟩
  · rw [ht, htr]
    simp
  · intro a ha
    rcases List.mem_cons.mp ha with rfl | ha
    · exact he
    · exact hin a ha

/-- A call that returns alone also returns among processes that hold no locks. -/
theorem run_execution {exec : κ → η → Prog φ ε (ρ × η)} {allowed : ι → κ → Prop}
    {p : ι} {c : κ} {r : ρ × η} {fs : φ → List Byte} (k : Prog φ ε (ρ × η))
    (s : Shared ι φ ε κ ρ) (proc : ι → Proc φ ε κ ρ η) (hl : Alone s.locks p)
    (hr : k.run s.files = .done r fs) :
    ∃ w, Execution exec allowed (settle s proc p c k) w ∧ RunsTo s proc p c r fs w := by
  induction k generalizing s proc with
  | ret a =>
    cases hr
    exact ⟨_, .refl _, rfl, ⟨[], by simp [settle], by simp⟩, rfl⟩
  | abort e => cases hr
  | hang => cases hr
  | lock fd m start len k ih =>
    have hg : Grantable s.locks p fd m start len := by
      intro q hq b _
      rw [hl q hq]
      trivial
    obtain ⟨w, hw, hto⟩ := ih { s with
      locks := setRange s.locks p fd start len (some m)
      trace := s.trace ++ [.locked p fd m start len] }
      (Function.update proc p (.busy c (.lock fd m start len k))) (alone_setRange hl _ _ _ _) hr
    refine ⟨w, .trans (.tail (.refl _) (.act _ p c _ k _ (update_self _ _ _)
      (.lock fd m start len k s hg))) hw, hto.step ?_ rfl (update_idem _ _ _)⟩
    trivial
  | unlock fd start len k ih =>
    obtain ⟨w, hw, hto⟩ := ih { s with
      locks := setRange s.locks p fd start len none
      trace := s.trace ++ [.unlocked p fd start len] }
      (Function.update proc p (.busy c (.unlock fd start len k))) (alone_setRange hl _ _ _ _) hr
    refine ⟨w, .trans (.tail (.refl _) (.act _ p c _ k _ (update_self _ _ _)
      (.unlock fd start len k s))) hw, hto.step ?_ rfl (update_idem _ _ _)⟩
    trivial
  | read fd off n k ih =>
    obtain ⟨w, hw, hto⟩ := ih _ { s with
      trace := s.trace ++ [.got p c fd off n (pread (s.files fd) off n)] }
      (Function.update proc p (.busy c (.read fd off n k))) hl hr
    refine ⟨w, .trans (.tail (.refl _) (.act _ p c _ _ _ (update_self _ _ _)
      (.read fd off n k s))) hw, hto.step ?_ rfl (update_idem _ _ _)⟩
    trivial
  | write fd off bs k ih =>
    obtain ⟨w, hw, hto⟩ := ih { s with
      files := Function.update s.files fd (pwrite (s.files fd) off bs)
      trace := s.trace ++ [.wrote p c fd off bs] }
      (Function.update proc p (.busy c (.write fd off bs k))) hl hr
    refine ⟨w, .trans (.tail (.refl _) (.act _ p c _ k _ (update_self _ _ _)
      (.write fd off bs k s))) hw, hto.step ?_ rfl (update_idem _ _ _)⟩
    trivial
  | size fd k ih =>
    obtain ⟨w, hw, hto⟩ := ih _ s (Function.update proc p (.busy c (.size fd k))) hl hr
    refine ⟨w, .trans (.tail (.refl _) (.act _ p c _ _ _ (update_self _ _ _)
      (.size fd k s))) hw, hto.files, hto.trace, ?_⟩
    exact hto.proc.trans (update_idem _ _ _)
  | truncate fd k ih =>
    obtain ⟨w, hw, hto⟩ := ih { s with files := Function.update s.files fd [] }
      (Function.update proc p (.busy c (.truncate fd k))) hl hr
    refine ⟨w, .trans (.tail (.refl _) (.act _ p c _ k _ (update_self _ _ _)
      (.truncate fd k s))) hw, hto.files, hto.trace, ?_⟩
    exact hto.proc.trans (update_idem _ _ _)

theorem call_execution {exec : κ → η → Prog φ ε (ρ × η)} {allowed : ι → κ → Prop}
    {w : World ι φ ε κ ρ η} {p : ι} {c : κ} {h : η} {r : ρ × η} {fs : φ → List Byte}
    (hp : w.proc p = .idle h) (ha : allowed p c) (hl : Alone w.shared.locks p)
    (hr : (exec c h).run w.shared.files = .done r fs) :
    ∃ w', Execution exec allowed w w' ∧ RunsTo w.shared w.proc p c r fs w' := by
  obtain ⟨w', hw, hto⟩ := run_execution (exec c h) w.shared w.proc hl hr
  exact ⟨w', .trans (.tail (.refl w) (.call w p c h hp ha)) hw, hto⟩

end SyscallPrograms
