import LinuxProgramming.Descriptors
import LinuxProgramming.Interleaving

/-! # The descriptors of `popen` and `pclose`

`childpid` remembers the child of each stream by the stream's descriptor. A new child closes the
descriptors that have an entry, after it has made the pipe its standard output or input. -/
namespace PopenStreams

open Descriptors Interleaving Function

inductive End where
  | read
  | write
  deriving DecidableEq, Repr

/-- What a descriptor refers to: an end of one of the pipes made by `popen`, or a file that was open
before. -/
inductive File where
  | pipe (e : End) (p : ℕ)
  | other (k : ℕ)
  deriving DecidableEq, Repr

inductive Mode where
  | r
  | w
  deriving DecidableEq, Repr

/-- Only `"r"` and `"w"` are allowed. -/
def parseType : List Char → Option Mode
  | ['r'] => some .r
  | ['w'] => some .w
  | _ => none

/-- `STDOUT_FILENO` or `STDIN_FILENO` of the child. -/
def Mode.target : Mode → ℕ
  | .r => 1
  | .w => 0

def Mode.childEnd : Mode → End
  | .r => .write
  | .w => .read

def Mode.parentEnd : Mode → End
  | .r => .read
  | .w => .write

/-- The two descriptors of a new pipe. -/
structure Pfd where
  r : ℕ
  w : ℕ
  deriving DecidableEq, Repr

def Pfd.of (pfd : Pfd) : End → ℕ
  | .read => pfd.r
  | .write => pfd.w

def pipe (maxfd : ℕ) (fds : Table File) (p : ℕ) : Option (Pfd × Table File) :=
  (openLowest maxfd fds (.pipe .read p)).bind fun (r, fds) =>
    (openLowest maxfd fds (.pipe .write p)).map fun (w, fds) => (⟨r, w⟩, fds)

/-- The child makes its end of the pipe its standard output or input. -/
def redirect (mode : Mode) (pfd : Pfd) (fds : Table File) : Table File :=
  match mode with
  | .r =>
    let fds := close fds pfd.r
    if pfd.w ≠ 1 then close (dup2 fds pfd.w 1) pfd.w else fds
  | .w =>
    let fds := close fds pfd.w
    if pfd.r ≠ 0 then close (dup2 fds pfd.r 0) pfd.r else fds

/-- The descriptors of the child just before `execl`. -/
def childFds (maxfd : ℕ) (childpid : ℕ → ℕ) (mode : Mode) (pfd : Pfd) (fds : Table File) : Table File :=
  sweep maxfd (fun i => childpid i > 0) (redirect mode pfd fds)

/-- A stream that is open in the parent: its descriptor, its child and its pipe. -/
structure Stream where
  fd : ℕ
  pid : ℕ
  pipe : ℕ
  deriving DecidableEq, Repr

/-- `childpid` is not allocated before the first call; `pipes` counts the pipes made so far. -/
structure State where
  fds : Table File
  childpid : Option (ℕ → ℕ)
  streams : List Stream
  pipes : ℕ

def State.pids (s : State) : ℕ → ℕ := s.childpid.getD fun _ => 0

/-- How `calloc`, `fork` and `fdopen` turn out. -/
inductive Outcome where
  | callocFails
  | forkFails
  | fdopenFails
  | succeeds (pid : ℕ)
  deriving DecidableEq, Repr

inductive Action where
  | popen (type : List Char) (outcome : Outcome)
  | pclose (fd : ℕ)
  deriving DecidableEq, Repr

/-- The calls after `pipe`; pid 0 is what `fork` returns in the child, not here. -/
def popenPiped (s : State) (mode : Mode) (pfd : Pfd) (fds : Table File) : Outcome → Option State
  | .callocFails => none
  | .forkFails => some { s with fds := fds, pipes := s.pipes + 1 }
  | .fdopenFails => some { s with fds := close fds (pfd.of mode.childEnd), pipes := s.pipes + 1 }
  | .succeeds pid =>
    if pid = 0 then none
    else
      let fd := pfd.of mode.parentEnd
      some
        { fds := close fds (pfd.of mode.childEnd)
          childpid := some (Function.update s.pids fd pid)
          streams := ⟨fd, pid, s.pipes⟩ :: s.streams
          pipes := s.pipes + 1 }

def popen (maxfd : ℕ) (s : State) (type : List Char) (outcome : Outcome) : Option State :=
  match parseType type with
  | none => some s
  | some mode =>
    if s.childpid = none ∧ outcome = .callocFails then some s
    else
      let s := { s with childpid := some s.pids }
      match pipe maxfd s.fds s.pipes with
      | none => some s
      | some (pfd, fds) => popenPiped s mode pfd fds outcome

/-- Without an entry the call fails; `fclose` closes the descriptor whether it succeeds or not. -/
def pclose (s : State) (fd : ℕ) : State :=
  match s.childpid with
  | none => s
  | some childpid =>
    if childpid fd = 0 then s
    else
      { s with
        fds := close s.fds fd
        childpid := some (Function.update childpid fd 0)
        streams := s.streams.filter fun st => st.fd ≠ fd }

def next (maxfd : ℕ) (s : State) : Action → Option State
  | .popen type outcome => popen maxfd s type outcome
  | .pclose fd => some (pclose s fd)

def start (opened : Table ℕ) : State := ⟨fun fd => (opened fd).map .other, none, [], 0⟩

/-! ## A new pipe and the child's descriptors -/

section Child

variable {maxfd p : ℕ} {mode : Mode} {pfd : Pfd} {fds fds' : Table File}

/-- A new pipe takes two free descriptors and leaves the others alone. -/
structure Piped (maxfd : ℕ) (fds : Table File) (p : ℕ) (pfd : Pfd) (fds' : Table File) : Prop where
  free : ∀ e, fds (pfd.of e) = none
  below : ∀ e, pfd.of e < maxfd
  ends : ∀ e, fds' (pfd.of e) = some (.pipe e p)
  same : ∀ i, (∀ e, i ≠ pfd.of e) → fds' i = fds i
  distinct : pfd.r ≠ pfd.w

theorem piped_of_pipe (h : pipe maxfd fds p = some (pfd, fds')) : Piped maxfd fds p pfd fds' := by
  obtain ⟨⟨r, fds₁⟩, h₁, h⟩ := Option.bind_eq_some_iff.mp h
  obtain ⟨⟨w, fds₂⟩, h₂, heq⟩ := Option.map_eq_some_iff.mp h
  obtain ⟨rfl, rfl⟩ := Prod.mk.inj heq
  obtain ⟨hr, hfree, rfl⟩ := openLowest_eq_some h₁
  obtain ⟨hw, hfree', rfl⟩ := openLowest_eq_some h₂
  have hne : w ≠ r := by
    rintro rfl
    simp at hfree'
  rw [update_of_ne hne] at hfree'
  constructor
  · intro e
    cases e with
    | read => exact hfree
    | write => exact hfree'
  · intro e
    cases e with
    | read => exact hr
    | write => exact hw
  · intro e
    cases e with
    | read => simp [Pfd.of, hne.symm]
    | write => simp [Pfd.of]
  · intro i hi
    have hiw : i ≠ w := hi .write
    have hir : i ≠ r := hi .read
    rw [update_of_ne hiw, update_of_ne hir]
  · exact hne.symm

theorem parentEnd_ne (h : Piped maxfd fds p pfd fds') (mode : Mode) :
    pfd.of mode.parentEnd ≠ pfd.of mode.childEnd := by
  cases mode with
  | r => exact h.distinct
  | w => exact h.distinct.symm

theorem redirect_eq (mode : Mode) (pfd : Pfd) (fds : Table File) :
    redirect mode pfd fds =
      if pfd.of mode.childEnd ≠ mode.target then
        close (dup2 (close fds (pfd.of mode.parentEnd)) (pfd.of mode.childEnd) mode.target)
          (pfd.of mode.childEnd)
      else close fds (pfd.of mode.parentEnd) := by
  cases mode <;> rfl

theorem redirect_target (h : Piped maxfd fds p pfd fds') (mode : Mode) :
    redirect mode pfd fds' mode.target = some (.pipe mode.childEnd p) := by
  have hend : close fds' (pfd.of mode.parentEnd) (pfd.of mode.childEnd) =
      some (.pipe mode.childEnd p) := by
    rw [close_of_ne (parentEnd_ne h mode).symm]
    exact h.ends _
  rw [redirect_eq]
  split
  · rename_i hne
    rw [close_of_ne (Ne.symm hne), dup2_self]
    exact hend
  · rename_i heq
    rw [← not_not.mp heq]
    exact hend

/-- The other descriptors of the child are those the parent had before the pipe. -/
theorem redirect_other (h : Piped maxfd fds p pfd fds') {i : ℕ} {f : File} (hi : i ≠ mode.target)
    (hf : redirect mode pfd fds' i = some f) : fds i = some f := by
  have hold : i ≠ pfd.of mode.parentEnd ∧ i ≠ pfd.of mode.childEnd ∧ fds' i = some f := by
    rw [redirect_eq] at hf
    split at hf
    · obtain ⟨hchild, hf⟩ := close_eq_some.mp hf
      rw [dup2_of_ne hi] at hf
      obtain ⟨hparent, hf⟩ := close_eq_some.mp hf
      exact ⟨hparent, hchild, hf⟩
    · rename_i heq
      obtain ⟨hparent, hf⟩ := close_eq_some.mp hf
      exact ⟨hparent, fun hc => hi (hc.trans (not_not.mp heq)), hf⟩
  obtain ⟨hparent, hchild, hf⟩ := hold
  rw [← hf]
  refine (h.same i fun e => ?_).symm
  cases mode <;> cases e <;> assumption

end Child

/-! ## The table of children -/

structure Inv (maxfd : ℕ) (s : State) : Prop where
  stream : ∀ st ∈ s.streams, s.pids st.fd = st.pid
  child : ∀ st ∈ s.streams, st.pid ≠ 0
  opened : ∀ st ∈ s.streams, s.fds st.fd ≠ none ∧ st.fd < maxfd
  older : ∀ st ∈ s.streams, st.pipe < s.pipes
  entry : ∀ fd, s.pids fd ≠ 0 → ∃ st ∈ s.streams, st.fd = fd
  ends : ∀ fd e p, s.fds fd = some (.pipe e p) →
    p < s.pipes ∧ ∀ st ∈ s.streams, st.pipe = p → fd = st.fd

theorem inv_start (maxfd : ℕ) (opened : Table ℕ) : Inv maxfd (start opened) where
  stream := by simp [start]
  child := by simp [start]
  opened := by simp [start]
  older := by simp [start]
  entry := by simp [start, State.pids]
  ends fd e p h := by simp [start] at h

section Table

variable {maxfd : ℕ} {s t : State} {mode : Mode} {pfd : Pfd} {fds : Table File}

theorem Inv.pids_free (h : Inv maxfd s) {fd : ℕ} (hfree : s.fds fd = none) : s.pids fd = 0 := by
  by_contra hne
  obtain ⟨st, hst, rfl⟩ := h.entry fd hne
  exact (h.opened st hst).1 hfree

theorem Inv.allocate (h : Inv maxfd s) : Inv maxfd { s with childpid := some s.pids } :=
  ⟨h.stream, h.child, h.opened, h.older, h.entry, h.ends⟩

/-- The ends of the new pipe may stay open, whole or in part, without a stream. -/
theorem Inv.leak (h : Inv maxfd s) (hp : Piped maxfd s.fds s.pipes pfd fds) {fds' : Table File}
    (hfds : ∀ i, fds' i = fds i ∨ fds' i = none ∧ ∃ e, i = pfd.of e) :
    Inv maxfd { s with fds := fds', pipes := s.pipes + 1 } := by
  constructor
  · exact h.stream
  · exact h.child
  · intro st hst
    obtain ⟨hopen, hbelow⟩ := h.opened st hst
    have hne : ∀ e, st.fd ≠ pfd.of e := fun e heq => hopen (heq ▸ hp.free e)
    refine ⟨?_, hbelow⟩
    obtain hsame | ⟨-, e, he⟩ := hfds st.fd
    · show fds' st.fd ≠ none
      rw [hsame, hp.same _ hne]
      exact hopen
    · exact absurd he (hne e)
  · intro st hst
    exact Nat.lt_succ_of_lt (h.older st hst)
  · exact h.entry
  · intro fd e p hf
    have hf : fds fd = some (.pipe e p) := by
      obtain hsame | ⟨hnone, -⟩ := hfds fd
      · rw [← hsame]
        exact hf
      · cases hnone.symm.trans hf
    by_cases hnew : ∃ e', fd = pfd.of e'
    · obtain ⟨e', rfl⟩ := hnew
      obtain ⟨rfl, rfl⟩ : e' = e ∧ s.pipes = p := by simpa using (hp.ends e').symm.trans hf
      refine ⟨Nat.lt_succ_self _, fun st hst heq => ?_⟩
      exact absurd heq (Nat.ne_of_lt (h.older st hst))
    · rw [hp.same fd fun e' he => hnew ⟨e', he⟩] at hf
      exact ⟨Nat.lt_succ_of_lt (h.ends fd e p hf).1, (h.ends fd e p hf).2⟩

theorem Inv.remember (h : Inv maxfd s) (st : Stream) (hpid : st.pid ≠ 0) (hnew : s.pids st.fd = 0)
    (hopen : s.fds st.fd ≠ none ∧ st.fd < maxfd) (holder : st.pipe < s.pipes)
    (honly : ∀ fd e, s.fds fd = some (.pipe e st.pipe) → fd = st.fd) :
    Inv maxfd { s with
      childpid := some (Function.update s.pids st.fd st.pid), streams := st :: s.streams } := by
  have hother : ∀ st' ∈ s.streams, st'.fd ≠ st.fd := by
    intro st' hst' heq
    exact h.child st' hst' (by rw [← h.stream st' hst', heq, hnew])
  constructor
  · intro st' hst'
    obtain rfl | hst' := List.mem_cons.mp hst'
    · exact update_self ..
    · exact (update_of_ne (hother st' hst') ..).trans (h.stream st' hst')
  · intro st' hst'
    obtain rfl | hst' := List.mem_cons.mp hst'
    · exact hpid
    · exact h.child st' hst'
  · intro st' hst'
    obtain rfl | hst' := List.mem_cons.mp hst'
    · exact hopen
    · exact h.opened st' hst'
  · intro st' hst'
    obtain rfl | hst' := List.mem_cons.mp hst'
    · exact holder
    · exact h.older st' hst'
  · intro fd hfd
    by_cases heq : fd = st.fd
    · exact ⟨st, List.mem_cons_self, heq.symm⟩
    · have hfd : Function.update s.pids st.fd st.pid fd ≠ 0 := hfd
      rw [update_of_ne heq] at hfd
      obtain ⟨st', hst', rfl⟩ := h.entry fd hfd
      exact ⟨st', List.mem_cons_of_mem _ hst', rfl⟩
  · intro fd e p hf
    refine ⟨(h.ends fd e p hf).1, fun st' hst' hp => ?_⟩
    obtain rfl | hst' := List.mem_cons.mp hst'
    · exact honly fd e (hp ▸ hf)
    · exact (h.ends fd e p hf).2 st' hst' hp

theorem Inv.popenPiped (h : Inv maxfd s) (hp : Piped maxfd s.fds s.pipes pfd fds) {outcome : Outcome}
    (ht : popenPiped s mode pfd fds outcome = some t) : Inv maxfd t := by
  have hclose : ∀ i, close fds (pfd.of mode.childEnd) i = fds i ∨
      close fds (pfd.of mode.childEnd) i = none ∧ ∃ e, i = pfd.of e := by
    intro i
    by_cases hi : i = pfd.of mode.childEnd
    · exact .inr ⟨by rw [hi, close_self], _, hi⟩
    · exact .inl (close_of_ne hi)
  cases outcome with
  | callocFails => cases ht
  | forkFails =>
    obtain rfl := Option.some.inj ht
    exact h.leak hp fun i => .inl rfl
  | fdopenFails =>
    obtain rfl := Option.some.inj ht
    exact h.leak hp hclose
  | succeeds pid =>
    simp only [PopenStreams.popenPiped] at ht
    split at ht
    · cases ht
    · rename_i hpid
      obtain rfl := Option.some.inj ht
      have hfd : close fds (pfd.of mode.childEnd) (pfd.of mode.parentEnd) =
          some (.pipe mode.parentEnd s.pipes) := by
        rw [close_of_ne (parentEnd_ne hp mode)]
        exact hp.ends _
      refine (h.leak hp hclose).remember ⟨pfd.of mode.parentEnd, pid, s.pipes⟩ hpid
        (h.pids_free (hp.free _)) ⟨by simp [hfd], hp.below _⟩ (Nat.lt_succ_self _) ?_
      intro fd e hf
      obtain ⟨hne, hf⟩ := close_eq_some.mp hf
      by_contra hother
      have hold : s.fds fd = some (.pipe e s.pipes) := by
        rw [← hf]
        refine (hp.same fd fun e' => ?_).symm
        cases mode <;> cases e' <;> assumption
      exact absurd (h.ends fd e s.pipes hold).1 (Nat.lt_irrefl _)

theorem Inv.popen (h : Inv maxfd s) {type : List Char} {outcome : Outcome}
    (ht : popen maxfd s type outcome = some t) : Inv maxfd t := by
  unfold PopenStreams.popen at ht
  split at ht
  · exact Option.some.inj ht ▸ h
  · split at ht
    · exact Option.some.inj ht ▸ h
    · dsimp only at ht
      split at ht
      · exact Option.some.inj ht ▸ h.allocate
      · rename_i hpipe
        exact h.allocate.popenPiped (piped_of_pipe hpipe) ht

theorem Inv.pclose (h : Inv maxfd s) (fd : ℕ) : Inv maxfd (pclose s fd) := by
  unfold PopenStreams.pclose
  split
  · exact h
  · rename_i childpid hchildpid
    have hpids : s.pids = childpid := by simp [State.pids, hchildpid]
    split
    · exact h
    · have hmem : ∀ st, st ∈ s.streams.filter (fun st => st.fd ≠ fd) ↔ st ∈ s.streams ∧ st.fd ≠ fd := by
        simp
      constructor
      · intro st hst
        obtain ⟨hst, hne⟩ := (hmem st).mp hst
        refine (update_of_ne hne ..).trans ?_
        rw [← hpids]
        exact h.stream st hst
      · exact fun st hst => h.child st ((hmem st).mp hst).1
      · intro st hst
        obtain ⟨hst, hne⟩ := (hmem st).mp hst
        refine ⟨?_, (h.opened st hst).2⟩
        show close s.fds fd st.fd ≠ none
        rw [close_of_ne hne]
        exact (h.opened st hst).1
      · exact fun st hst => h.older st ((hmem st).mp hst).1
      · intro i hi
        have hi : Function.update childpid fd 0 i ≠ 0 := hi
        by_cases heq : i = fd
        · simp [heq] at hi
        · rw [update_of_ne heq, ← hpids] at hi
          obtain ⟨st, hst, rfl⟩ := h.entry i hi
          exact ⟨st, (hmem st).mpr ⟨hst, heq⟩, rfl⟩
      · intro i e p hf
        obtain ⟨-, hf⟩ := close_eq_some.mp hf
        refine ⟨(h.ends i e p hf).1, fun st hst => ?_⟩
        exact (h.ends i e p hf).2 st ((hmem st).mp hst).1

theorem Inv.next (h : Inv maxfd s) {a : Action} (ht : next maxfd s a = some t) : Inv maxfd t := by
  cases a with
  | popen type outcome => exact h.popen ht
  | pclose fd => exact Option.some.inj ht ▸ h.pclose fd

/-! ## The child at `execl` -/

theorem Inv.swept (h : Inv maxfd s) {fd : ℕ} (hfd : s.pids fd ≠ 0) : fd < maxfd := by
  obtain ⟨st, hst, rfl⟩ := h.entry fd hfd
  exact (h.opened st hst).2

theorem Inv.childFds_eq (h : Inv maxfd s) (mode : Mode) (pfd : Pfd) (fds : Table File) (i : ℕ) :
    childFds maxfd s.pids mode pfd fds i =
      if s.pids i = 0 then redirect mode pfd fds i else none := by
  rw [childFds, sweep_apply]
  by_cases hi : s.pids i = 0
  · simp [hi]
  · simp [hi, h.swept hi, Nat.pos_of_ne_zero hi]

/-- The new child has its end of the pipe exactly when no earlier stream is on its descriptor. -/
theorem Inv.child_target (h : Inv maxfd s) (mode : Mode)
    (hp : pipe maxfd s.fds s.pipes = some (pfd, fds)) :
    childFds maxfd s.pids mode pfd fds mode.target = some (.pipe mode.childEnd s.pipes) ↔
      s.pids mode.target = 0 := by
  rw [h.childFds_eq]
  split
  · rename_i hfree
    exact ⟨fun _ => hfree, fun _ => redirect_target (piped_of_pipe hp) mode⟩
  · rename_i hused
    constructor
    · intro hf
      cases hf
    · exact fun hfree => absurd hfree hused

theorem Inv.child_earlier (h : Inv maxfd s) (mode : Mode)
    (hp : pipe maxfd s.fds s.pipes = some (pfd, fds)) {fd p : ℕ} {e : End}
    (hf : childFds maxfd s.pids mode pfd fds fd = some (.pipe e p)) :
    ∀ st ∈ s.streams, st.pipe ≠ p := by
  intro st hst heq
  rw [h.childFds_eq] at hf
  split at hf
  · rename_i hfree
    by_cases hi : fd = mode.target
    · subst hi
      rw [redirect_target (piped_of_pipe hp)] at hf
      obtain ⟨rfl, rfl⟩ : mode.childEnd = e ∧ s.pipes = p := by simpa using hf
      exact absurd heq (Nat.ne_of_lt (h.older st hst))
    · have hold := redirect_other (piped_of_pipe hp) hi hf
      obtain rfl := (h.ends fd e p hold).2 st hst heq
      exact h.child st hst (by rw [← h.stream st hst, hfree])
  · cases hf

end Table

/-- In every state: what a child started now has at `execl`, and what the table holds. -/
structure Disciplined (maxfd : ℕ) (s : State) : Prop where
  target : ∀ mode pfd fds, pipe maxfd s.fds s.pipes = some (pfd, fds) →
    (childFds maxfd s.pids mode pfd fds mode.target = some (.pipe mode.childEnd s.pipes) ↔
      s.pids mode.target = 0)
  earlier : ∀ mode pfd fds, pipe maxfd s.fds s.pipes = some (pfd, fds) → ∀ fd e p,
    childFds maxfd s.pids mode pfd fds fd = some (.pipe e p) → ∀ st ∈ s.streams, st.pipe ≠ p
  entries : ∀ fd, s.pids fd ≠ 0 ↔ ∃ st ∈ s.streams, st.fd = fd
  own : ∀ st ∈ s.streams, s.pids st.fd = st.pid

theorem popen_disciplined (maxfd : ℕ) (opened : Table ℕ) {s : State}
    (h : Run (next maxfd) anyStep (start opened) s) : Disciplined maxfd s := by
  have hinv : Inv maxfd s := h.invariant (inv_start maxfd opened) fun _ _ _ hs _ ht => hs.next ht
  constructor
  · exact fun mode _ _ hp => hinv.child_target mode hp
  · exact fun mode _ _ hp _ _ _ hf => hinv.child_earlier mode hp hf
  · intro fd
    constructor
    · exact hinv.entry fd
    · rintro ⟨st, hst, rfl⟩
      rw [hinv.stream st hst]
      exact hinv.child st hst
  · exact hinv.stream

def stdin2 : Table ℕ := fun fd => if fd = 0 ∨ fd = 2 then some fd else none

/-- With descriptor 1 closed at first, two streams are opened and the first one is closed again. -/
theorem popen_disciplined_closed_output :
    ∃ s, s.streams = [⟨3, 101, 1⟩] ∧ s.pids 1 = 0 ∧ s.pids 3 = 101 ∧ Disciplined 8 s := by
  obtain ⟨s, hrun, hs⟩ := followAllowed_reaches (fun _ _ => true) (next 8) (start stdin2)
    [.popen ['r'] (.succeeds 100), .popen ['r'] (.succeeds 101), .pclose 1]
    (fun s => s.streams = [⟨3, 101, 1⟩] && s.pids 1 = 0 && s.pids 3 = 101) (by decide +kernel)
  simp only [Bool.and_eq_true, decide_eq_true_eq] at hs
  exact ⟨s, hs.1.1, hs.1.2, hs.2, popen_disciplined 8 stdin2 (hrun.mono fun _ _ _ => trivial)⟩

/-- The first stream is on descriptor 1: the child of the second one closes it after `dup2` and has
no standard output. -/
theorem second_child_without_output :
    ∃ s pfd fds, Run (next 8) anyStep (start stdin2) s ∧ s.streams = [⟨1, 100, 0⟩] ∧
      pipe 8 s.fds s.pipes = some (pfd, fds) ∧ childFds 8 s.pids .r pfd fds 1 = none := by
  obtain ⟨s, hrun, hs⟩ := followAllowed_reaches (fun _ _ => true) (next 8) (start stdin2)
    [.popen ['r'] (.succeeds 100)]
    (fun s => s.streams = [⟨1, 100, 0⟩] && (pipe 8 s.fds s.pipes).any fun (pfd, fds) =>
      childFds 8 s.pids .r pfd fds 1 = none) (by decide +kernel)
  simp only [Bool.and_eq_true, decide_eq_true_eq, Option.any_eq_true] at hs
  obtain ⟨hstreams, ⟨pfd, fds⟩, hpipe, hnone⟩ := hs
  exact ⟨s, pfd, fds, hrun.mono fun _ _ _ => trivial, hstreams, hpipe, hnone⟩

end PopenStreams
