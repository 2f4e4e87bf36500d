import LinuxProgramming.CalldSteps
import LinuxProgramming.TextLines

/-! # The Systems and Devices files, byte by byte

`request` over the one Systems stream that all clients share: a call goes to the offset kept for
the client, reads lines up to one whose device is free and keeps the offset behind it. The log of
a client is not in the code: it lists the matching lines that have been looked at since the
client's offset was last set to 0, with the lock table at that moment. -/
namespace CalldFiles

open CStrings TextLines
open Calld (Name Pid Lock ErrMsg pidOf findLine lockSet)

def maxLine : ℕ := 4096

def white : List Byte := [space, 9, newline]

/-! ## One line -/

/-- A line may be passed over, and `log_quit` ends the daemon where a field is missing. -/
inductive Parsed (α : Type) where
  | skip
  | missing (field : List Byte)
  | entry (a : α)
  deriving DecidableEq

def Parsed.ofExcept {α : Type} : Except (List Byte) α → Parsed α
  | .error field => .missing field
  | .ok a => .entry a

/-- `strtok(NULL, delims)` for the field. -/
def token (delims field s : List Byte) : Except (List Byte) (List Byte × List Byte) :=
  match strtok delims s with
  | none => .error field
  | some r => .ok r

structure Systems where
  name : Name
  time : Name
  type : Name
  class' : Name
  phone : Name
  login : Name
  deriving DecidableEq

structure Devices where
  type : Name
  line : Name
  line2 : Name
  class' : Name
  dialer : Name
  deriving DecidableEq

def sysFields (name s : List Byte) : Except (List Byte) Systems := do
  let time ← token white (ascii "time") s
  let type ← token white (ascii "type") time.2
  let class' ← token white (ascii "class") type.2
  let phone ← token white (ascii "phone") class'.2
  let login ← token [newline] (ascii "login") phone.2
  return ⟨name, time.1, type.1, class'.1, phone.1, login.1⟩

def devFields (type s : List Byte) : Except (List Byte) Devices := do
  let line ← token white (ascii "line") s
  let line2 ← token white (ascii "line2") line.2
  let class' ← token white (ascii "class") line2.2
  let dialer ← token white (ascii "dialer") class'.2
  return ⟨type, line.1, line2.1, class'.1, dialer.1⟩

/-- What `sys_next` and `dev_next` do with a line. -/
def parseLine {α : Type} (first : List Byte) (fields : List Byte → List Byte → Except (List Byte) α)
    (line : List Byte) : Parsed α :=
  match strtok white (cstr line) with
  | none => if line.headD 0 = newline then .skip else .missing first
  | some (t, s) => if t.headD 0 = 35 then .skip else .ofExcept (fields t s)

def sysLine : List Byte → Parsed Systems := parseLine (ascii "name") sysFields
def devLine : List Byte → Parsed Devices := parseLine (ascii "type") devFields

/-! ## The Devices file -/

inductive Found where
  | missing (field : List Byte) (devlineno : ℕ)
  | notFound
  | found (dev : Devices)

/-- `dev_find`, over what `fgets` returns. -/
def devFind (sys : Systems) : List (List Byte) → ℕ → Found
  | [], _ => .notFound
  | line :: lines, devlineno =>
    match devLine line with
    | .skip => devFind sys lines (devlineno + 1)
    | .missing field => .missing field (devlineno + 1)
    | .entry dev =>
      if sys.type = dev.type ∧ sys.class' = dev.class' then .found dev
      else devFind sys lines (devlineno + 1)

/-! ## The Systems file -/

inductive Verdict where
  | noDevice
  | locked
  | started
  deriving DecidableEq, Repr

/-- A matching line at the offset `line`, looked at under the lock table `lock`. -/
structure Exam where
  line : ℕ
  lock : List Lock
  verdict : Verdict
  deriving DecidableEq

/-- What the daemon dies of: `log_quit`, `log_sys` or a stream that has not been opened. -/
inductive Quit where
  | missingSystems (field : List Byte) (lineno : ℕ)
  | missingDevices (field : List Byte) (lineno : ℕ)
  | fseek
  | fork
  | nullStream
  deriving DecidableEq

def Quit.text : Quit → Option (List Byte)
  | .missingSystems field lineno =>
    some (ascii "missing `" ++ field ++ ascii "' in Systems file, line " ++ decimal lineno)
  | .missingDevices field lineno =>
    some (ascii "missing `" ++ field ++ ascii "' in Devices file, line " ++ decimal lineno)
  | .fseek => some (ascii "fseek error")
  | .fork => some (ascii "fork error")
  | .nullStream => none

inductive Outcome where
  | started (line : Name)
  | refused (errmsg : ErrMsg)
  | quit (q : Quit)
  deriving DecidableEq

/-- The variables of the loop of `request`: the position of the stream, its line number, and what
the client and the daemon keep. -/
structure Scan where
  posn : ℕ
  syslineno : ℕ
  foundone : ℕ
  lock : List Lock
  errmsg : Option ErrMsg
  log : List Exam
  deriving DecidableEq

namespace Scan

def past (s : Scan) (line : List Byte) : Scan :=
  { s with posn := s.posn + line.length, syslineno := s.syslineno + 1 }

def examined (s : Scan) (o : ℕ) (verdict : Verdict) : Scan :=
  { s with foundone := s.foundone + 1, log := s.log ++ [⟨o, s.lock, verdict⟩] }

end Scan

structure Tried where
  sysftell : Option ℕ
  scan : Scan
  outcome : Outcome
  deriving DecidableEq

def wanted (sysname speed : Name) (sys : Systems) : Bool :=
  sysname = sys.name && (speed = [] || speed = sys.class')

/-- What `sys_next` finds: the entry, the offset at which its line starts and the lines behind it. -/
inductive SysNext where
  | eof (s : Scan)
  | missing (field : List Byte) (s : Scan)
  | entry (sys : Systems) (o : ℕ) (s : Scan) (lines : List (List Byte))

/-- `sys_next`, over what `fgets` returns. -/
def sysNext : List (List Byte) → Scan → SysNext
  | [], s => .eof s
  | line :: lines, s =>
    match sysLine line with
    | .skip => sysNext lines (s.past line)
    | .missing field => .missing field (s.past line)
    | .entry sys => .entry sys s.posn (s.past line) lines

/-- The body of the loop of `request` for the entry whose line starts at `o`; `go` is the rest of
the loop. -/
def tryOne (devices : List (List Byte)) (sysname speed : Name) (sys : Systems) (o : ℕ) (s : Scan)
    (go : Scan → Tried) : Tried :=
  if wanted sysname speed sys then
    match devFind sys devices 0 with
    | .missing field devlineno => ⟨none, s, .quit (.missingDevices field devlineno)⟩
    | .notFound =>
      ⟨some s.posn, s.examined o .noDevice, .refused (.noDevice sys.type sys.class')⟩
    | .found dev =>
      let lock := findLine s.lock dev.line
      let pid := pidOf lock dev.line
      if pid ≠ 0 then
        go { s.examined o .locked with lock := lock, errmsg := some (.locked dev.line pid) }
      else ⟨some s.posn, { s.examined o .started with lock := lock }, .started dev.line⟩
  else go s

def gaveUp (sysname : Name) (s : Scan) : Tried :=
  ⟨none, s, .refused
    (if s.foundone = 0 then .notFound sysname else s.errmsg.getD (.unable sysname))⟩

/-- The loop of `request` over the lines that `fgets` returns from the client's offset on. -/
def tryLines (devices : List (List Byte)) (sysname speed : Name) : List (List Byte) → Scan → Tried
  | [], s => gaveUp sysname s
  | line :: lines, s =>
    match sysLine line with
    | .skip => tryLines devices sysname speed lines (s.past line)
    | .missing field => ⟨none, s.past line, .quit (.missingSystems field (s.past line).syslineno)⟩
    | .entry sys =>
      tryOne devices sysname speed sys s.posn (s.past line) (tryLines devices sysname speed lines)

/-- The loop calls `sys_next` and does its body with what that finds. -/
theorem tryLines_eq (devices : List (List Byte)) (sysname speed : Name) (lines : List (List Byte))
    (s : Scan) :
    tryLines devices sysname speed lines s =
      match sysNext lines s with
      | .eof s => gaveUp sysname s
      | .missing field s => ⟨none, s, .quit (.missingSystems field s.syslineno)⟩
      | .entry sys o s lines =>
        tryOne devices sysname speed sys o s (tryLines devices sysname speed lines) := by
  induction lines generalizing s with
  | nil => rfl
  | cons line lines ih =>
    rw [tryLines, sysNext]
    cases sysLine line with
    | skip => exact ih (s.past line)
    | missing field => rfl
    | entry sys => rfl

/-! ## The daemon -/

structure Files where
  systems : List Byte
  devices : List Byte

/-- What `request` reads and writes of a `Client`; `sysftell` is nothing where it is -1. There is a
log once the offset has been set to 0. -/
structure Client where
  sysname : Name
  speed : Name
  sysftell : Option ℕ
  foundone : ℕ
  pid : Pid
  log : Option (List Exam)

structure State where
  /-- The position of the Systems stream, once it has been opened. -/
  fpsys : Option ℕ
  syslineno : ℕ
  client : ℕ → Client
  lock : List Lock
  dead : Option Quit

/-- `loop` takes a request of a client, `request` is called for it, then or later, and the locks
change in any way between the calls. -/
inductive Action where
  | arrive (i : ℕ) (sysname speed : Name)
  | request (i : ℕ) (fork : Option Pid)
  | locks (lock : List Lock)

/-- `request` from the offset `posn` on; at 0 the line numbers start again. -/
def requestAt (files : Files) (s : State) (c : Client) (posn : ℕ) : Tried :=
  tryLines (fgetsAll maxLine files.devices) c.sysname c.speed
    (fgetsAll maxLine (files.systems.drop posn))
    ⟨posn, if posn = 0 then 0 else s.syslineno, c.foundone, s.lock, none, c.log.getD []⟩

namespace State

def setClient (s : State) (i : ℕ) (c : Client) : State :=
  { s with client := Function.update s.client i c }

/-- The stream, the locks and the client after the loop of `request`. -/
def after (s : State) (i : ℕ) (t : Tried) : State :=
  setClient
    { s with fpsys := some t.scan.posn, syslineno := t.scan.syslineno, lock := t.scan.lock } i
    { s.client i with
      sysftell := t.sysftell
      foundone := t.scan.foundone
      log := (s.client i).log.map fun _ => t.scan.log }

/-- `lock_set` for the child that has been forked. -/
def forked (s : State) (i : ℕ) (line : Name) (pid : Pid) : State :=
  setClient { s with lock := lockSet s.lock line pid } i { s.client i with pid := pid }

end State

def request (files : Files) (s : State) (i : ℕ) (fork : Option Pid) : State :=
  match (s.client i).sysftell with
  | none => { s with dead := some .fseek }
  | some posn =>
    if posn ≠ 0 ∧ s.fpsys = none then { s with dead := some .nullStream }
    else
      let t := requestAt files s (s.client i) posn
      match t.outcome with
      | .quit q => { s with dead := some q }
      | .refused _ => s.after i t
      | .started line =>
        match fork with
        | none => { s with dead := some .fork }
        | some pid => (s.after i t).forked i line pid

def next (files : Files) (s : State) (a : Action) : Option State :=
  if s.dead.isSome then none
  else
    match a with
    | .arrive i sysname speed =>
      some (s.setClient i { s.client i with
        sysname := sysname, speed := speed, sysftell := some 0, foundone := 0, log := some [] })
    | .request i fork => some (request files s i fork)
    | .locks lock => some { s with lock := lock }

end CalldFiles
