import Mathlib.Data.List.Infix
import LinuxProgramming.CStrings
import LinuxProgramming.Interleaving

/-! # Transfer through shared memory with two binary semaphores

The writer reads blocks of its input into the segment and the reader writes them to its output.
Two semaphores give the turn to one of them at a time; a block of length 0 ends the transfer, and
the turn after it lets the writer remove the semaphores and the segment. -/
namespace SharedTransfer

open CStrings Interleaving

inductive WriterPc where
  | reserve
  | read
  | release
  | test
  | lastReserve
  | removeSems
  | detach
  | removeShm
  | done
  | failed
  deriving DecidableEq, Repr

inductive ReaderPc where
  | semget
  | shmget
  | shmat
  | reserve
  | test
  | write
  | release
  | detach
  | lastRelease
  | done
  | failed
  deriving DecidableEq, Repr

structure Sems where
  write : ℕ
  read : ℕ
  deriving DecidableEq, Repr

/-- `sems` and `shm` are gone once they are removed; `cnt` and `buf` are the segment. -/
structure State where
  sems : Option Sems
  shm : Bool
  cnt : ℕ
  buf : List Byte
  wpc : WriterPc
  rpc : ReaderPc
  remaining : List Byte
  sent : List Byte
  received : List Byte
  deriving DecidableEq, Repr

inductive Action where
  | writer (n : ℕ)
  | reader
  | writerEintr
  | readerEintr
  deriving DecidableEq, Repr

def Action.isEintr : Action → Bool
  | .writerEintr | .readerEintr => true
  | _ => false

/-- `reserveSem`: it waits while the semaphore is 0 and fails when the set is gone. -/
def reserveWrite (s : State) (pc : WriterPc) : Option State :=
  match s.sems with
  | none => some { s with wpc := .failed }
  | some v => if v.write = 0 then none else some { s with sems := some ⟨v.write - 1, v.read⟩, wpc := pc }

def reserveRead (s : State) (pc : ReaderPc) : Option State :=
  match s.sems with
  | none => some { s with rpc := .failed }
  | some v => if v.read = 0 then none else some { s with sems := some ⟨v.write, v.read - 1⟩, rpc := pc }

def releaseRead (s : State) (pc : WriterPc) : State :=
  match s.sems with
  | none => { s with wpc := .failed }
  | some v => { s with sems := some ⟨v.write, v.read + 1⟩, wpc := pc }

def releaseWrite (s : State) (pc : ReaderPc) : State :=
  match s.sems with
  | none => { s with rpc := .failed }
  | some v => { s with sems := some ⟨v.write + 1, v.read⟩, rpc := pc }

/-- The possible results of `read`: 0 at the end of the input, else any number of bytes that are
there and fit. -/
def Reads (size : ℕ) (remaining : List Byte) (n : ℕ) : Prop :=
  remaining = [] ∧ n = 0 ∨ 1 ≤ n ∧ n ≤ size ∧ n ≤ remaining.length

instance (size : ℕ) (remaining : List Byte) (n : ℕ) : Decidable (Reads size remaining n) :=
  inferInstanceAs (Decidable (_ ∨ _))

def writerStep (size : ℕ) (s : State) (n : ℕ) : Option State :=
  match s.wpc with
  | .reserve => reserveWrite s .read
  | .read =>
    if Reads size s.remaining n then
      some { s with
        cnt := n
        buf := s.remaining.take n ++ s.buf.drop n
        remaining := s.remaining.drop n
        sent := s.sent ++ s.remaining.take n
        wpc := .release }
    else none
  | .release => some (releaseRead s .test)
  | .test => some { s with wpc := if s.cnt = 0 then .lastReserve else .reserve }
  | .lastReserve => reserveWrite s .removeSems
  | .removeSems =>
    match s.sems with
    | none => some { s with wpc := .failed }
    | some _ => some { s with sems := none, wpc := .detach }
  | .detach => some { s with wpc := .removeShm }
  | .removeShm => some (if s.shm then { s with shm := false, wpc := .done } else { s with wpc := .failed })
  | .done | .failed => none

def readerStep (s : State) : Option State :=
  match s.rpc with
  | .semget => some { s with rpc := if s.sems = none then .failed else .shmget }
  | .shmget => some { s with rpc := if s.shm then .shmat else .failed }
  | .shmat => some { s with rpc := if s.shm then .reserve else .failed }
  | .reserve => reserveRead s .test
  | .test => some { s with rpc := if s.cnt = 0 then .detach else .write }
  | .write => some { s with received := s.received ++ s.buf.take s.cnt, rpc := .release }
  | .release => some (releaseWrite s .reserve)
  | .detach => some { s with rpc := .lastRelease }
  | .lastRelease => some (releaseWrite s .done)
  | .done | .failed => none

/-- An interrupted `semop` is called again. -/
def next (size : ℕ) (s : State) : Action → Option State
  | .writer n => writerStep size s n
  | .reader => readerStep s
  | .writerEintr => if s.wpc = .reserve ∨ s.wpc = .lastReserve then some s else none
  | .readerEintr => if s.rpc = .reserve then some s else none

/-- The writer has initialised the semaphores and attached the segment, whatever is in it. -/
def start (input : List Byte) (cnt : ℕ) (buf : List Byte) : State :=
  ⟨some ⟨1, 0⟩, true, cnt, buf, .reserve, .semget, input, [], []⟩

/-! ## Whose turn it is -/

def WriterWaits (s : State) : Prop :=
  s.wpc = .test ∨ s.wpc = .reserve ∧ s.cnt ≠ 0 ∨ s.wpc = .lastReserve ∧ s.cnt = 0

def ReaderWaits (s : State) : Prop :=
  s.rpc = .semget ∨ s.rpc = .shmget ∨ s.rpc = .shmat ∨ s.rpc = .reserve

/-- The block in the segment is all that has not arrived. -/
structure InFlight (size : ℕ) (s : State) : Prop where
  sent : s.sent = s.received ++ s.buf.take s.cnt
  fits : s.cnt ≤ size
  ended : s.cnt = 0 → s.remaining = []

inductive Turn (size : ℕ) (s : State) : Prop
  | writerMay (hsems : s.sems = some ⟨1, 0⟩) (hshm : s.shm = true) (hr : ReaderWaits s)
      (hw : s.wpc = .reserve ∨ s.wpc = .test ∧ s.cnt ≠ 0) (heq : s.sent = s.received)
  | writerReads (hsems : s.sems = some ⟨0, 0⟩) (hshm : s.shm = true) (hr : ReaderWaits s)
      (hw : s.wpc = .read) (heq : s.sent = s.received)
  | writerReleases (hsems : s.sems = some ⟨0, 0⟩) (hshm : s.shm = true) (hr : ReaderWaits s)
      (hw : s.wpc = .release) (hblock : InFlight size s)
  | readerMay (hsems : s.sems = some ⟨0, 1⟩) (hshm : s.shm = true) (hr : ReaderWaits s)
      (hw : WriterWaits s) (hblock : InFlight size s)
  | readerCopies (hsems : s.sems = some ⟨0, 0⟩) (hshm : s.shm = true)
      (hr : s.rpc = .test ∨ s.rpc = .write ∧ s.cnt ≠ 0) (hw : WriterWaits s)
      (hblock : InFlight size s)
  | readerReleases (hsems : s.sems = some ⟨0, 0⟩) (hshm : s.shm = true) (hr : s.rpc = .release)
      (hw : WriterWaits s) (hcnt : s.cnt ≠ 0) (heq : s.sent = s.received)
  | readerEnds (hsems : s.sems = some ⟨0, 0⟩) (hshm : s.shm = true)
      (hr : s.rpc = .detach ∨ s.rpc = .lastRelease) (hw : WriterWaits s) (hcnt : s.cnt = 0)
      (hend : s.remaining = []) (heq : s.sent = s.received)
  | writerMayEnd (hsems : s.sems = some ⟨1, 0⟩) (hshm : s.shm = true) (hr : s.rpc = .done)
      (hw : WriterWaits s) (hcnt : s.cnt = 0) (hend : s.remaining = []) (heq : s.sent = s.received)
  | writerEnds (hr : s.rpc = .done) (hend : s.remaining = []) (heq : s.sent = s.received)
      (hw : s.wpc = .removeSems ∧ s.sems = some ⟨0, 0⟩ ∧ s.shm = true ∨
        (s.wpc = .detach ∨ s.wpc = .removeShm) ∧ s.sems = none ∧ s.shm = true ∨
        s.wpc = .done ∧ s.sems = none ∧ s.shm = false)

structure Inv (size : ℕ) (input : List Byte) (s : State) : Prop where
  whole : input = s.sent ++ s.remaining
  turn : Turn size s

/-! ## What is left to do -/

def writerLeft (cnt : ℕ) : WriterPc → ℕ
  | .reserve => 41
  | .read => 40
  | .release => if cnt = 0 then 20 else 47
  | .test => if cnt = 0 then 10 else 42
  | .lastReserve => 9
  | .removeSems => 8
  | .detach => 7
  | .removeShm => 6
  | .done | .failed => 0

def readerLeft : ReaderPc → ℕ
  | .semget => 13
  | .shmget => 12
  | .shmat => 11
  | .reserve => 10
  | .test => 13
  | .write => 12
  | .release => 11
  | .detach => 9
  | .lastRelease => 8
  | .done | .failed => 0

def left (s : State) : ℕ :=
  10 * s.remaining.length + writerLeft s.cnt s.wpc + readerLeft s.rpc + 4 * (s.sems.elim 0 Sems.read)

section Steps

variable {size n : ℕ} {input : List Byte} {s t : State}

/-- The state after the writer's test of `cnt`. -/
def tested (s : State) : State := { s with wpc := if s.cnt = 0 then .lastReserve else .reserve }

theorem writerWaits_tested (s : State) : WriterWaits (tested s) := by
  by_cases hcnt : s.cnt = 0
  · exact .inr (.inr ⟨by simp [tested, hcnt], hcnt⟩)
  · exact .inr (.inl ⟨by simp [tested, hcnt], hcnt⟩)

theorem left_tested (hw : s.wpc = .test) : left (tested s) < left s := by
  by_cases hcnt : s.cnt = 0 <;> simp [left, writerLeft, readerLeft, tested, hw, hcnt]

/-- A writer that waits for its turn can only test `cnt`. -/
theorem waits_step (hw : WriterWaits s) {r : ℕ} (hsems : s.sems = some ⟨0, r⟩)
    (ht : writerStep size s n = some t) : s.wpc = .test ∧ t = tested s := by
  rcases hw with hw | ⟨hw, -⟩ | ⟨hw, -⟩
  · simp only [writerStep, hw, Option.some.injEq] at ht
    exact ⟨hw, ht.symm⟩
  · simp [writerStep, hw, reserveWrite, hsems] at ht
  · simp [writerStep, hw, reserveWrite, hsems] at ht

/-- The state after a `read` of `n` bytes. -/
def filled (s : State) (n : ℕ) : State :=
  { s with
    cnt := n
    buf := s.remaining.take n ++ s.buf.drop n
    remaining := s.remaining.drop n
    sent := s.sent ++ s.remaining.take n
    wpc := .release }

theorem read_step (hw : s.wpc = .read) (ht : writerStep size s n = some t) :
    t = filled s n ∧ Reads size s.remaining n := by
  simp only [writerStep, hw] at ht
  split at ht
  · exact ⟨(Option.some.inj ht).symm, ‹_›⟩
  · cases ht

theorem left_filled (hw : s.wpc = .read) (hn : Reads size s.remaining n) :
    left (filled s n) < left s := by
  rcases hn with ⟨hrem, rfl⟩ | ⟨hpos, -, hlen⟩
  · simp [left, writerLeft, filled, hw, hrem]
  · have hne : n ≠ 0 := by omega
    simp only [left, writerLeft, filled, hw, hne, if_false, List.length_drop]
    omega

theorem inFlight_filled (heq : s.sent = s.received) (hn : Reads size s.remaining n) :
    InFlight size (filled s n) := by
  have hlen : n ≤ size ∧ n ≤ s.remaining.length := by
    rcases hn with ⟨-, rfl⟩ | ⟨-, hfits, hlen⟩
    · exact ⟨Nat.zero_le _, Nat.zero_le _⟩
    · exact ⟨hfits, hlen⟩
  constructor
  · have htake : (s.remaining.take n).length = n := by simpa using hlen.2
    simp only [filled, heq]
    rw [List.take_left' htake]
  · exact hlen.1
  · intro hz
    rcases hn with ⟨hrem, -⟩ | ⟨hpos, -, -⟩
    · simp [filled, hrem]
    · have hz : n = 0 := hz
      omega

theorem writer_turn (h : Inv size input s) (ht : writerStep size s n = some t) :
    Inv size input t ∧ left t < left s := by
  obtain ⟨hwhole, hturn⟩ := h
  cases hturn with
  | writerMay hsems hshm hr hw heq =>
    rcases hw with hw | ⟨hw, hcnt⟩
    · simp [writerStep, hw, reserveWrite, hsems] at ht
      subst ht
      refine ⟨⟨hwhole, .writerReads rfl hshm hr rfl heq⟩, ?_⟩
      simp [left, writerLeft, readerLeft, hsems, hw]
    · simp [writerStep, hw, hcnt] at ht
      subst ht
      refine ⟨⟨hwhole, .writerMay hsems hshm hr (.inl rfl) heq⟩, ?_⟩
      simp [left, writerLeft, readerLeft, hsems, hw, hcnt]
  | writerReads hsems hshm hr hw heq =>
    obtain ⟨rfl, hn⟩ := read_step hw ht
    have hwhole' : input = (filled s n).sent ++ (filled s n).remaining := by
      simp [filled, hwhole, List.append_assoc]
    exact ⟨⟨hwhole', .writerReleases hsems hshm hr rfl (inFlight_filled heq hn)⟩,
      left_filled hw hn⟩
  | writerReleases hsems hshm hr hw hblock =>
    simp [writerStep, hw, releaseRead, hsems] at ht
    subst ht
    refine ⟨⟨hwhole, .readerMay rfl hshm hr (.inl rfl) ⟨hblock.sent, hblock.fits, hblock.ended⟩⟩, ?_⟩
    simp only [left, writerLeft, hsems, hw, Option.elim_some]
    split <;> omega
  | readerMay hsems hshm hr hw hblock =>
    obtain ⟨hw, rfl⟩ := waits_step hw hsems ht
    exact ⟨⟨hwhole, .readerMay hsems hshm hr (writerWaits_tested s)
      ⟨hblock.sent, hblock.fits, hblock.ended⟩⟩, left_tested hw⟩
  | readerCopies hsems hshm hr hw hblock =>
    obtain ⟨hw, rfl⟩ := waits_step hw hsems ht
    exact ⟨⟨hwhole, .readerCopies hsems hshm hr (writerWaits_tested s)
      ⟨hblock.sent, hblock.fits, hblock.ended⟩⟩, left_tested hw⟩
  | readerReleases hsems hshm hr hw hcnt heq =>
    obtain ⟨hw, rfl⟩ := waits_step hw hsems ht
    exact ⟨⟨hwhole, .readerReleases hsems hshm hr (writerWaits_tested s) hcnt heq⟩, left_tested hw⟩
  | readerEnds hsems hshm hr hw hcnt hend heq =>
    obtain ⟨hw, rfl⟩ := waits_step hw hsems ht
    exact ⟨⟨hwhole, .readerEnds hsems hshm hr (writerWaits_tested s) hcnt hend heq⟩, left_tested hw⟩
  | writerMayEnd hsems hshm hr hw hcnt hend heq =>
    rcases hw with hw | ⟨-, hne⟩ | ⟨hw, -⟩
    · simp only [writerStep, hw, Option.some.injEq] at ht
      subst ht
      exact ⟨⟨hwhole, .writerMayEnd hsems hshm hr (writerWaits_tested s) hcnt hend heq⟩,
        left_tested hw⟩
    · exact absurd hcnt hne
    · simp [writerStep, hw, reserveWrite, hsems] at ht
      subst ht
      refine ⟨⟨hwhole, .writerEnds hr hend heq (.inl ⟨rfl, rfl, hshm⟩)⟩, ?_⟩
      simp [left, writerLeft, readerLeft, hsems, hw]
  | writerEnds hr hend heq hw =>
    rcases hw with ⟨hw, hsems, hshm⟩ | ⟨hw | hw, hsems, hshm⟩ | ⟨hw, -, -⟩
    · simp [writerStep, hw, hsems] at ht
      subst ht
      refine ⟨⟨hwhole, .writerEnds hr hend heq (.inr (.inl ⟨.inl rfl, rfl, hshm⟩))⟩, ?_⟩
      simp [left, writerLeft, readerLeft, hsems, hw]
    · simp [writerStep, hw] at ht
      subst ht
      refine ⟨⟨hwhole, .writerEnds hr hend heq (.inr (.inl ⟨.inr rfl, hsems, hshm⟩))⟩, ?_⟩
      simp [left, writerLeft, readerLeft, hsems, hw]
    · simp [writerStep, hw, hshm] at ht
      subst ht
      refine ⟨⟨hwhole, .writerEnds hr hend heq (.inr (.inr ⟨rfl, hsems, rfl⟩))⟩, ?_⟩
      simp [left, writerLeft, readerLeft, hsems, hw]
    · simp [writerStep, hw] at ht

/-- A reader that waits for its turn gets it when there is one, or is still starting. -/
theorem reader_waits (hr : ReaderWaits s) {v : Sems} (hsems : s.sems = some v) (hshm : s.shm = true)
    (ht : readerStep s = some t) :
    (∃ pc, t = { s with rpc := pc } ∧ ReaderWaits t ∧ left t < left s) ∨
    v.read ≠ 0 ∧ s.rpc = .reserve ∧ t = { s with sems := some ⟨v.write, v.read - 1⟩, rpc := .test } := by
  rcases hr with hr | hr | hr | hr
  · have hstep : readerStep s = some { s with rpc := .shmget } := by simp [readerStep, hr, hsems]
    obtain rfl := Option.some.inj (hstep.symm.trans ht)
    exact .inl ⟨_, rfl, .inr (.inl rfl), by simp [left, readerLeft, hr]⟩
  · have hstep : readerStep s = some { s with rpc := .shmat } := by simp [readerStep, hr, hshm]
    obtain rfl := Option.some.inj (hstep.symm.trans ht)
    exact .inl ⟨_, rfl, .inr (.inr (.inl rfl)), by simp [left, readerLeft, hr]⟩
  · have hstep : readerStep s = some { s with rpc := .reserve } := by simp [readerStep, hr, hshm]
    obtain rfl := Option.some.inj (hstep.symm.trans ht)
    exact .inl ⟨_, rfl, .inr (.inr (.inr rfl)), by simp [left, readerLeft, hr]⟩
  · simp only [readerStep, hr, reserveRead, hsems] at ht
    split at ht
    · cases ht
    · exact .inr ⟨‹_›, hr, (Option.some.inj ht).symm⟩

theorem reader_turn (h : Inv size input s) (ht : readerStep s = some t) :
    Inv size input t ∧ left t < left s := by
  obtain ⟨hwhole, hturn⟩ := h
  cases hturn with
  | writerMay hsems hshm hr hw heq =>
    obtain ⟨pc, rfl, hr', hless⟩ | ⟨hne, -, -⟩ := reader_waits hr hsems hshm ht
    · exact ⟨⟨hwhole, .writerMay hsems hshm hr' hw heq⟩, hless⟩
    · exact absurd rfl hne
  | writerReads hsems hshm hr hw heq =>
    obtain ⟨pc, rfl, hr', hless⟩ | ⟨hne, -, -⟩ := reader_waits hr hsems hshm ht
    · exact ⟨⟨hwhole, .writerReads hsems hshm hr' hw heq⟩, hless⟩
    · exact absurd rfl hne
  | writerReleases hsems hshm hr hw hblock =>
    obtain ⟨pc, rfl, hr', hless⟩ | ⟨hne, -, -⟩ := reader_waits hr hsems hshm ht
    · exact ⟨⟨hwhole, .writerReleases hsems hshm hr' hw ⟨hblock.sent, hblock.fits, hblock.ended⟩⟩,
        hless⟩
    · exact absurd rfl hne
  | readerMay hsems hshm hr hw hblock =>
    obtain ⟨pc, rfl, hr', hless⟩ | ⟨-, hpc, rfl⟩ := reader_waits hr hsems hshm ht
    · exact ⟨⟨hwhole, .readerMay hsems hshm hr' hw ⟨hblock.sent, hblock.fits, hblock.ended⟩⟩, hless⟩
    · refine ⟨⟨hwhole, .readerCopies rfl hshm (.inl rfl) hw
        ⟨hblock.sent, hblock.fits, hblock.ended⟩⟩, ?_⟩
      simp [left, writerLeft, readerLeft, hsems, hpc]
  | readerCopies hsems hshm hr hw hblock =>
    rcases hr with hr | ⟨hr, hcnt⟩
    · by_cases hcnt : s.cnt = 0
      · have hstep : readerStep s = some { s with rpc := .detach } := by simp [readerStep, hr, hcnt]
        obtain rfl := Option.some.inj (hstep.symm.trans ht)
        have heq : s.sent = s.received := by simpa [hcnt] using hblock.sent
        refine ⟨⟨hwhole, .readerEnds hsems hshm (.inl rfl) hw hcnt (hblock.ended hcnt) heq⟩, ?_⟩
        simp [left, writerLeft, readerLeft, hr]
      · simp [readerStep, hr, hcnt] at ht
        subst ht
        refine ⟨⟨hwhole, .readerCopies hsems hshm (.inr ⟨rfl, hcnt⟩) hw
          ⟨hblock.sent, hblock.fits, hblock.ended⟩⟩, ?_⟩
        simp [left, writerLeft, readerLeft, hr]
    · simp [readerStep, hr] at ht
      subst ht
      refine ⟨⟨hwhole, .readerReleases hsems hshm rfl hw hcnt hblock.sent⟩, ?_⟩
      simp [left, writerLeft, readerLeft, hr]
  | readerReleases hsems hshm hr hw hcnt heq =>
    simp [readerStep, hr, releaseWrite, hsems] at ht
    subst ht
    have hw' : s.wpc = .reserve ∨ s.wpc = .test ∧ s.cnt ≠ 0 := by
      rcases hw with hw | ⟨hw, -⟩ | ⟨-, hz⟩
      · exact .inr ⟨hw, hcnt⟩
      · exact .inl hw
      · exact absurd hz hcnt
    refine ⟨⟨hwhole, .writerMay rfl hshm (.inr (.inr (.inr rfl))) hw' heq⟩, ?_⟩
    simp [left, writerLeft, readerLeft, hsems, hr]
  | readerEnds hsems hshm hr hw hcnt hend heq =>
    rcases hr with hr | hr
    · simp [readerStep, hr] at ht
      subst ht
      refine ⟨⟨hwhole, .readerEnds hsems hshm (.inr rfl) hw hcnt hend heq⟩, ?_⟩
      simp [left, writerLeft, readerLeft, hr]
    · simp [readerStep, hr, releaseWrite, hsems] at ht
      subst ht
      refine ⟨⟨hwhole, .writerMayEnd rfl hshm rfl hw hcnt hend heq⟩, ?_⟩
      simp [left, writerLeft, readerLeft, hsems, hr]
  | writerMayEnd hsems hshm hr hw hcnt hend heq => simp [readerStep, hr] at ht
  | writerEnds hr hend heq hw => simp [readerStep, hr] at ht

theorem inv_next {a : Action} (h : Inv size input s) (ht : next size s a = some t) :
    Inv size input t := by
  cases a with
  | writer n => exact (writer_turn h ht).1
  | reader => exact (reader_turn h ht).1
  | writerEintr =>
    simp only [next] at ht
    split at ht
    · exact Option.some.inj ht ▸ h
    · cases ht
  | readerEintr =>
    simp only [next] at ht
    split at ht
    · exact Option.some.inj ht ▸ h
    · cases ht

theorem left_next {a : Action} (h : Inv size input s) (ha : a.isEintr = false)
    (ht : next size s a = some t) : left t < left s := by
  cases a with
  | writer n => exact (writer_turn h ht).2
  | reader => exact (reader_turn h ht).2
  | writerEintr => cases ha
  | readerEintr => cases ha

theorem writerStep_test (hw : s.wpc = .test) : writerStep size s 0 = some (tested s) := by
  simp only [writerStep, hw]
  rfl

/-- A reader that waits can go on unless it waits for the semaphore. -/
theorem reader_waits_enabled (hr : ReaderWaits s) (h : ∀ v, s.sems = some v → v.read ≠ 0) :
    ∃ t, readerStep s = some t := by
  rcases hr with hr | hr | hr | hr
  · exact ⟨_, by simp only [readerStep, hr]; rfl⟩
  · exact ⟨_, by simp only [readerStep, hr]; rfl⟩
  · exact ⟨_, by simp only [readerStep, hr]; rfl⟩
  · cases hsems : s.sems with
    | none => exact ⟨_, by simp only [readerStep, hr, reserveRead, hsems]; rfl⟩
    | some v =>
      refine ⟨{ s with sems := some ⟨v.write, v.read - 1⟩, rpc := .test }, ?_⟩
      simp only [readerStep, hr, reserveRead, hsems]
      exact if_neg (h v hsems)

theorem enabled (h : Inv size input s) (hsize : 0 < size) :
    (s.wpc = .done ∧ s.rpc = .done) ∨
      (∃ n t, writerStep size s n = some t) ∨ ∃ t, readerStep s = some t := by
  cases h.turn with
  | writerMay hsems _ _ hw _ =>
    right; left
    rcases hw with hw | ⟨hw, -⟩
    · exact ⟨0, { s with sems := some ⟨0, 0⟩, wpc := .read },
        by simp [writerStep, hw, reserveWrite, hsems]⟩
    · exact ⟨0, _, writerStep_test hw⟩
  | writerReads _ _ _ hw _ =>
    right; left
    have hreads : ∃ n, Reads size s.remaining n := by
      by_cases hrem : s.remaining = []
      · exact ⟨0, .inl ⟨hrem, rfl⟩⟩
      · exact ⟨1, .inr ⟨le_rfl, hsize, List.length_pos_iff.mpr hrem⟩⟩
    obtain ⟨n, hn⟩ := hreads
    refine ⟨n, filled s n, ?_⟩
    simp only [writerStep, hw]
    exact if_pos hn
  | writerReleases _ _ _ hw _ =>
    right; left
    exact ⟨0, _, by simp only [writerStep, hw]; rfl⟩
  | readerMay hsems _ hr _ _ =>
    right; right
    refine reader_waits_enabled hr ?_
    intro v hv
    obtain rfl := Option.some.inj (hsems.symm.trans hv)
    exact Nat.one_ne_zero
  | readerCopies _ _ hr _ _ =>
    right; right
    rcases hr with hr | ⟨hr, -⟩ <;> exact ⟨_, by simp only [readerStep, hr]; rfl⟩
  | readerReleases _ _ hr _ _ _ =>
    right; right
    exact ⟨_, by simp only [readerStep, hr]; rfl⟩
  | readerEnds _ _ hr _ _ _ _ =>
    right; right
    rcases hr with hr | hr <;> exact ⟨_, by simp only [readerStep, hr]; rfl⟩
  | writerMayEnd hsems _ _ hw hcnt _ _ =>
    right; left
    rcases hw with hw | ⟨-, hne⟩ | ⟨hw, -⟩
    · exact ⟨0, _, writerStep_test hw⟩
    · exact absurd hcnt hne
    · exact ⟨0, { s with sems := some ⟨0, 0⟩, wpc := .removeSems },
        by simp [writerStep, hw, reserveWrite, hsems]⟩
  | writerEnds hr _ _ hw =>
    rcases hw with ⟨hw, hsems, -⟩ | ⟨hw | hw, -, -⟩ | ⟨hw, -, -⟩
    · exact .inr (.inl ⟨0, _, by simp only [writerStep, hw, hsems]; rfl⟩)
    · exact .inr (.inl ⟨0, _, by simp only [writerStep, hw]; rfl⟩)
    · exact .inr (.inl ⟨0, _, by simp only [writerStep, hw]; rfl⟩)
    · exact .inl ⟨hw, hr⟩

end Steps

/-! ## Whole runs -/

/-- What a state of the transfer guarantees. -/
structure Exact (size : ℕ) (input : List Byte) (s : State) : Prop where
  /-- All that was read has been written, but at most the block in the segment. -/
  behind : s.sent = s.received ∨ s.sent = s.received ++ s.buf.take s.cnt ∧ s.cnt ≤ size
  /-- The segment is filled only when the reader is through with the block before. -/
  overwrites : s.wpc = .read → s.sent = s.received ∧ ReaderWaits s
  removed : s.sems = none ∨ s.shm = false → s.rpc = .done
  finished : s.wpc = .done → s.rpc = .done →
    s.received = input ∧ s.sems = none ∧ s.shm = false
  running : s.wpc ≠ .failed ∧ s.rpc ≠ .failed

section Runs

variable {size : ℕ} {input : List Byte} {s : State}

theorem inv_start (size : ℕ) (input : List Byte) (cnt : ℕ) (buf : List Byte) :
    Inv size input (start input cnt buf) where
  whole := rfl
  turn := .writerMay rfl rfl (.inl rfl) (.inl rfl) rfl

theorem ReaderWaits.ne_failed (h : ReaderWaits s) : s.rpc ≠ .failed := by
  rcases h with h | h | h | h <;> simp [h]

theorem WriterWaits.ne (h : WriterWaits s) : s.wpc ≠ .failed ∧ s.wpc ≠ .done ∧ s.wpc ≠ .read := by
  rcases h with h | ⟨h, -⟩ | ⟨h, -⟩ <;> simp [h]

/-- Before the end both resources are there, and the writer fills the segment in its turn only. -/
theorem exact_of_waits {v : Sems} (hsems : s.sems = some v) (hshm : s.shm = true)
    (hbehind : s.sent = s.received ∨ s.sent = s.received ++ s.buf.take s.cnt ∧ s.cnt ≤ size)
    (hread : s.wpc = .read → s.sent = s.received ∧ ReaderWaits s)
    (hw : s.wpc ≠ .failed ∧ s.wpc ≠ .done) (hr : s.rpc ≠ .failed) : Exact size input s where
  behind := hbehind
  overwrites := hread
  removed h := by simp [hsems, hshm] at h
  finished h := absurd h hw.2
  running := ⟨hw.1, hr⟩

theorem Inv.exact (h : Inv size input s) : Exact size input s := by
  cases h.turn with
  | writerMay hsems hshm hr hw heq =>
    have hw : s.wpc ≠ .failed ∧ s.wpc ≠ .done ∧ s.wpc ≠ .read := by
      rcases hw with hw | ⟨hw, -⟩ <;> simp [hw]
    exact exact_of_waits hsems hshm (.inl heq) (fun h => absurd h hw.2.2) ⟨hw.1, hw.2.1⟩ hr.ne_failed
  | writerReads hsems hshm hr hw heq =>
    exact exact_of_waits hsems hshm (.inl heq) (fun _ => ⟨heq, hr⟩) (by simp [hw]) hr.ne_failed
  | writerReleases hsems hshm hr hw hblock =>
    exact exact_of_waits hsems hshm (.inr ⟨hblock.sent, hblock.fits⟩) (by simp [hw]) (by simp [hw])
      hr.ne_failed
  | readerMay hsems hshm hr hw hblock =>
    exact exact_of_waits hsems hshm (.inr ⟨hblock.sent, hblock.fits⟩) (fun h => absurd h hw.ne.2.2)
      ⟨hw.ne.1, hw.ne.2.1⟩ hr.ne_failed
  | readerCopies hsems hshm hr hw hblock =>
    have hr : s.rpc ≠ .failed := by rcases hr with hr | ⟨hr, -⟩ <;> simp [hr]
    exact exact_of_waits hsems hshm (.inr ⟨hblock.sent, hblock.fits⟩) (fun h => absurd h hw.ne.2.2)
      ⟨hw.ne.1, hw.ne.2.1⟩ hr
  | readerReleases hsems hshm hr hw hcnt heq =>
    exact exact_of_waits hsems hshm (.inl heq) (fun h => absurd h hw.ne.2.2) ⟨hw.ne.1, hw.ne.2.1⟩
      (by simp [hr])
  | readerEnds hsems hshm hr hw hcnt hend heq =>
    have hr : s.rpc ≠ .failed := by rcases hr with hr | hr <;> simp [hr]
    exact exact_of_waits hsems hshm (.inl heq) (fun h => absurd h hw.ne.2.2) ⟨hw.ne.1, hw.ne.2.1⟩ hr
  | writerMayEnd hsems hshm hr hw hcnt hend heq =>
    exact exact_of_waits hsems hshm (.inl heq) (fun h => absurd h hw.ne.2.2) ⟨hw.ne.1, hw.ne.2.1⟩
      (by simp [hr])
  | writerEnds hr hend heq hw =>
    have hinput : s.received = input := by rw [h.whole, hend, heq, List.append_nil]
    constructor
    · exact .inl heq
    · intro hread
      rcases hw with ⟨hw, -⟩ | ⟨hw | hw, -⟩ | ⟨hw, -⟩ <;> simp [hw] at hread
    · exact fun _ => hr
    · intro hdone _
      rcases hw with ⟨hw, -⟩ | ⟨hw | hw, -⟩ | ⟨-, hsems, hshm⟩
      · simp [hw] at hdone
      · simp [hw] at hdone
      · simp [hw] at hdone
      · exact ⟨hinput, hsems, hshm⟩
    · rcases hw with ⟨hw, -⟩ | ⟨hw | hw, -⟩ | ⟨hw, -⟩ <;> simp [hw, hr]

theorem Inv.finishes (h : Inv size input s) (hsize : 0 < size) :
    Finishes (next size) (fun _ a => a.isEintr = false)
      (fun s => s.wpc = .done ∧ s.rpc = .done) s := by
  refine finishes_of_work left (I := Inv size input) ?_ ?_ h
  · intro s hs
    obtain hdone | ⟨n, t, ht⟩ | ⟨t, ht⟩ := enabled hs hsize
    · exact .inl hdone
    · exact .inr ⟨.writer n, t, rfl, ht⟩
    · exact .inr ⟨.reader, t, rfl, ht⟩
  · exact fun s a t hs ha ht => ⟨inv_next hs ht, left_next hs ha ht⟩

/-- The transfer is exact in every state, and from every state it comes to its end unless the
calls of `semop` are interrupted for ever. -/
theorem transfer_exact (size : ℕ) (hsize : 0 < size) (input : List Byte) (cnt : ℕ)
    (buf : List Byte) {s : State} (h : Run (next size) anyStep (start input cnt buf) s) :
    Exact size input s ∧
      Finishes (next size) (fun _ a => a.isEintr = false)
        (fun s => s.wpc = .done ∧ s.rpc = .done) s := by
  have hinv : Inv size input s :=
    h.invariant (inv_start size input cnt buf) fun _ _ _ hs _ ht => inv_next hs ht
  exact ⟨hinv.exact, hinv.finishes hsize⟩

/-- The reader is about to write the second of two blocks and the writer waits, interrupted. -/
theorem transfer_exact_second_block :
    ∃ s, s.received = [1, 2] ∧ s.sent = [1, 2, 3] ∧ s.rpc = .write ∧ Exact 2 [1, 2, 3] s := by
  obtain ⟨s, hrun, hs⟩ := followAllowed_reaches (fun _ _ => true) (next 2) (start [1, 2, 3] 0 [0, 0])
    [.reader, .reader, .reader, .readerEintr, .writer 0, .writer 2, .writer 0, .reader, .reader,
      .writer 0, .reader, .reader, .writer 0, .writer 1, .writer 0, .writer 0, .writerEintr, .reader,
      .reader]
    (fun s => s.received = [1, 2] && s.sent = [1, 2, 3] && s.rpc = .write) (by decide +kernel)
  simp only [Bool.and_eq_true, decide_eq_true_eq] at hs
  have hany : Run (next 2) anyStep (start [1, 2, 3] 0 [0, 0]) s :=
    hrun.mono fun _ _ _ => trivial
  exact ⟨s, hs.1.1, hs.1.2, hs.2, (transfer_exact 2 (by decide) [1, 2, 3] 0 [0, 0] hany).1⟩

end Runs

end SharedTransfer
