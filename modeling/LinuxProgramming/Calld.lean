import LinuxProgramming.CStrings
import LinuxProgramming.Interleaving

/-! # The dialer daemon

One process that serves its clients in a loop, forks a child for each dial and learns the
fate of the children from the handler of `SIGCHLD`. The handler may run between any two
steps of the loop. `request` is one step: the handler touches nothing that it reads, except
that it may have run before. -/
namespace Calld

open CStrings

abbrev Name := List Byte
abbrev Pid := ℕ

/-! ## Files, locks and requests -/

structure Systems where
  name : Name
  type : Name
  class' : Name
  deriving DecidableEq, Repr

structure Devices where
  type : Name
  line : Name
  class' : Name
  deriving DecidableEq, Repr

/-- The lines of the Systems and of the Devices file. -/
structure Files where
  systems : List Systems
  devices : List Devices

structure Lock where
  line : Name
  pid : Pid
  deriving DecidableEq, Repr

/-- The process ID in the entry of a line; 0 where there is no entry yet. -/
def pidOf : List Lock → Name → Pid
  | [], _ => 0
  | l :: ls, line => if l.line = line then l.pid else pidOf ls line

def findLine (lock : List Lock) (line : Name) : List Lock :=
  if lock.any fun l => l.line = line then lock else lock ++ [⟨line, 0⟩]

def setFirst : List Lock → Name → Pid → List Lock
  | [], _, _ => []
  | l :: ls, line, pid => if l.line = line then ⟨l.line, pid⟩ :: ls else l :: setFirst ls line pid

def lockSet (lock : List Lock) (line : Name) (pid : Pid) : List Lock :=
  setFirst (findLine lock line) line pid

def lockRel : List Lock → Pid → List Lock
  | [], _ => []
  | l :: ls, pid => if l.pid = pid then ⟨l.line, 0⟩ :: ls else l :: lockRel ls pid

inductive ErrMsg where
  | notFound (sysname : Name)
  | noDevice (type class' : Name)
  | locked (line : Name) (pid : Pid)
  | unable (sysname : Name)
  deriving DecidableEq, Repr

/-- One `Client`. `conn` counts the connections and `argsOf` is the one whose request the
options were last taken from; the code keeps neither. -/
structure Slot where
  fd : Option ℕ
  pid : Pid
  childdone : ℕ
  sysftell : Option ℕ
  foundone : ℕ
  speed : Name
  sysname : Name
  conn : ℕ
  argsOf : Option ℕ
  deriving DecidableEq, Repr

def devFind (devices : List Devices) (sys : Systems) : Option Devices :=
  devices.find? fun d => d.type = sys.type && d.class' = sys.class'

/-- What the loop of `request` ends with: a free line, or a message for the client. -/
structure Tried where
  sysftell : Option ℕ
  foundone : ℕ
  lock : List Lock
  outcome : Name ⊕ ErrMsg
  deriving DecidableEq, Repr

def tryFrom (devices : List Devices) (sysname speed : Name) :
    List Systems → ℕ → ℕ → List Lock → Option ErrMsg → Tried
  | [], _, foundone, lock, errmsg =>
    ⟨none, foundone, lock,
      .inr (if foundone = 0 then .notFound sysname else errmsg.getD (.unable sysname))⟩
  | sys :: rest, posn, foundone, lock, errmsg =>
    if sys.name = sysname ∧ (speed = [] ∨ speed = sys.class') then
      match devFind devices sys with
      | none => ⟨some (posn + 1), foundone + 1, lock, .inr (.noDevice sys.type sys.class')⟩
      | some dev =>
        let lock := findLine lock dev.line
        let pid := pidOf lock dev.line
        if pid = 0 then ⟨some (posn + 1), foundone + 1, lock, .inl dev.line⟩
        else tryFrom devices sysname speed rest (posn + 1) (foundone + 1) lock
          (some (.locked dev.line pid))
    else tryFrom devices sysname speed rest (posn + 1) foundone lock errmsg

/-- `none` where `fseek` fails. -/
def request (files : Files) (cliptr : Slot) (lock : List Lock) : Option Tried :=
  cliptr.sysftell.map fun posn =>
    tryFrom files.devices cliptr.sysname cliptr.speed (files.systems.drop posn) posn
      cliptr.foundone lock none

/-! ## The daemon, its children and its clients -/

inductive Fate where
  | running
  | exited (status : ℕ)
  | killed
  deriving DecidableEq, Repr

/-- A child from its `fork` on. `owner` is the connection whose slot it was forked for, `noted`
the slot in which `client_sigchld` stored its status: the connection, whether it was open, and
the value. -/
structure Child where
  pid : Pid
  line : Name
  owner : ℕ
  argsOf : Option ℕ
  fate : Fate
  reaped : Bool
  noted : Option (ℕ × Bool × ℕ)
  deriving DecidableEq, Repr

inductive Pc where
  | top
  | select
  | scan (i : ℕ) (rset : List ℕ)
  | start (i : ℕ) (rset : List ℕ)
  -- child_done
  | flagClear
  | doneScan (i : ℕ)
  | doneCompare (i : ℕ)
  | doneOk (i : ℕ)
  | doneFail (i : ℕ)
  | doneRel (i : ℕ)
  | doneRequest (i : ℕ)
  | doneAgain
  -- after log_sys or log_quit
  | dead
  deriving DecidableEq, Repr

structure State where
  client : List Slot
  maxi : ℤ
  lock : List Lock
  chldFlag : Bool
  /-- `child_done` was called after an interrupted `select`. -/
  intr : Bool
  pc : Pc
  /-- The handler has been entered and has not yet waited; no other `SIGCHLD` interrupts it. -/
  handling : Bool
  pending : Bool
  children : List Child
  nconn : ℕ
  errors : List (ℕ × ErrMsg)

/-- What the system answers to the loop. -/
inductive Answer where
  | ok
  | fail
  | eintr
  | listen (fd : ℕ) (fresh : List Slot)
  | ready (rset : List ℕ)
  | eof
  | data (sysname speed : Name)
  | pid (p : Pid)
  deriving DecidableEq, Repr

def nalloc : ℕ := 10

namespace State

def modifySlot (s : State) (i : ℕ) (f : Slot → Slot) : State :=
  { s with client := s.client.modify i f }

def modifyChild (s : State) (c : ℕ) (f : Child → Child) : State :=
  { s with children := s.children.modify c f }

def goto (s : State) (pc : Pc) : State := { s with pc := pc }

def release (s : State) (pid : Pid) : State := { s with lock := lockRel s.lock pid }

end State

/-- The new entries are memory of any contents, marked as available. -/
def clientAlloc (client fresh : List Slot) : List Slot :=
  client ++ fresh.map fun slot => { slot with fd := none }

def clientAdd (s : State) (fd : ℕ) (fresh : List Slot) : Option State :=
  let occupy (client : List Slot) (i : ℕ) : State :=
    { s with
      client := client.modify i fun slot => { slot with fd := some fd, conn := s.nconn }
      nconn := s.nconn + 1
      maxi := max s.maxi i }
  match s.client.findIdx? fun slot => slot.fd = none with
  | some i => some (occupy s.client i)
  | none =>
    if fresh.length = nalloc then some (occupy (clientAlloc s.client fresh) s.client.length) else none

def clientDel (client : List Slot) (fd : ℕ) : List Slot :=
  match client.findIdx? fun slot => slot.fd = some fd with
  | some i => client.modify i fun slot => { slot with fd := none }
  | none => client

def cliDone (s : State) (clifd : ℕ) : State := { s with client := clientDel s.client clifd }

/-- The status of a child is stored in the first entry with its process ID. -/
def clientSigchld (s : State) (c : ℕ) (pid : Pid) (stat : ℕ) : State :=
  match s.client.findIdx? fun slot => slot.pid = pid with
  | some i =>
    match s.client[i]? with
    | some slot =>
      (s.modifySlot i fun slot => { slot with childdone := stat }).modifyChild c
        fun child => { child with noted := some (slot.conn, slot.fd.isSome, stat) }
    | none => s.goto .dead
  | none => s.goto .dead

/-- `request` for the entry `i`, and what its caller does when it fails. -/
def tryRequest (files : Files) (s : State) (i : ℕ) (slot : Slot) (fd : ℕ) (ans : Answer) (pc : Pc) :
    Option State :=
  match request files slot s.lock with
  | none => some (s.goto .dead)
  | some tried =>
    let s := { s with lock := tried.lock }
    let s := s.modifySlot i fun slot =>
      { slot with sysftell := tried.sysftell, foundone := tried.foundone }
    match tried.outcome, ans with
    | _, .fail => some (s.goto .dead)
    | .inl line, .pid p =>
      if p = 0 ∨ s.children.any (fun c => c.pid = p && !c.reaped) then none
      else some ({ s.modifySlot i fun slot => { slot with pid := p } with
        children := s.children ++ [⟨p, line, slot.conn, slot.argsOf, .running, false, none⟩]
        lock := lockSet s.lock line p
        pc := pc })
    | .inr errmsg, .ok => some ((cliDone { s with errors := s.errors ++ [(slot.conn, errmsg)] } fd).goto pc)
    | _, _ => none

def childDone (files : Files) (s : State) (ans : Answer) : Pc → Option State
  | .flagClear => some ({ s with chldFlag := false }.goto (.doneScan 0))
  | .doneScan i =>
    if s.maxi < i then some (s.goto .doneAgain)
    else s.client[i]?.map fun slot =>
      if slot.fd = none ∨ slot.childdone = 0 then s.goto (.doneScan (i + 1)) else s.goto (.doneCompare i)
  | .doneCompare i =>
    s.client[i]?.map fun slot => if slot.childdone = 1 then s.goto (.doneOk i) else s.goto (.doneFail i)
  | .doneOk i => some ((s.modifySlot i fun slot => { slot with childdone := 0 }).goto (.doneScan (i + 1)))
  | .doneFail i => some ((s.modifySlot i fun slot => { slot with childdone := 0 }).goto (.doneRel i))
  | .doneRel i => s.client[i]?.map fun slot => (s.release slot.pid).goto (.doneRequest i)
  | .doneRequest i =>
    s.client[i]?.bind fun slot => slot.fd.bind fun fd =>
      tryRequest files s i slot fd ans (.doneScan (i + 1))
  | .doneAgain =>
    some (if s.chldFlag then s.goto .flagClear
      else s.goto (if s.intr then .top else .select))
  | _ => none

def loop (files : Files) (s : State) (ans : Answer) : Pc → Option State
  | .top =>
    some (if s.chldFlag then { s with intr := false }.goto .flagClear else s.goto .select)
  | .select =>
    match ans with
    | .eintr => some ({ s with intr := true }.goto .flagClear)
    | .listen fd fresh =>
      if s.client.any fun slot => slot.fd = some fd then none
      else (clientAdd s fd fresh).map fun s => s.goto .top
    | .ready rset => some (s.goto (.scan 0 rset))
    | .fail => some (s.goto .dead)
    | _ => none
  | .scan i rset =>
    if s.maxi < i then some (s.goto .top)
    else s.client[i]?.bind fun slot =>
      match slot.fd with
      | none => some (s.goto (.scan (i + 1) rset))
      | some clifd =>
        if clifd ∉ rset then some (s.goto (.scan (i + 1) rset))
        else match ans with
          | .fail => some (s.goto .dead)
          | .eof => some ((cliDone (s.release slot.pid) clifd).goto (.scan (i + 1) rset))
          | .data sysname speed =>
            some ((s.modifySlot i fun slot =>
              { slot with
                sysname := sysname
                speed := speed
                childdone := 0
                sysftell := some 0
                foundone := 0
                argsOf := some slot.conn }).goto (.start i rset))
          | _ => none
  | .start i rset =>
    s.client[i]?.bind fun slot => slot.fd.bind fun fd =>
      tryRequest files s i slot fd ans (.scan (i + 1) rset)
  | pc => childDone files s ans pc

/-- The handler from `waitpid` on, which takes any child that has terminated. Until it returns
nothing else runs in the process. -/
def sigChld (s : State) (c : ℕ) : Option State :=
  s.children[c]?.bind fun child =>
    if child.reaped then none
    else
      let s := { s.modifyChild c fun child => { child with reaped := true } with handling := false }
      match child.fate with
      | .running => none
      | .exited status => some (clientSigchld s c child.pid (status + 1))
      | .killed => some s

inductive Action where
  | run (ans : Answer)
  | terminate (c : ℕ) (fate : Fate)
  | deliver
  | handle (c : ℕ)
  | waitFails
  deriving DecidableEq, Repr

def next (files : Files) (s : State) : Action → Option State
  | .run ans => if s.handling then none else loop files s ans s.pc
  | .terminate c fate =>
    s.children[c]?.bind fun child =>
      if child.fate = .running ∧ fate ≠ .running then
        some { s.modifyChild c fun child => { child with fate := fate } with pending := true }
      else none
  | .deliver =>
    if s.pending ∧ !s.handling ∧ s.pc ≠ .dead then
      some { s with pending := false, chldFlag := true, handling := true }
    else none
  | .handle c => if s.handling ∧ s.pc ≠ .dead then sigChld s c else none
  -- there is no child to wait for
  | .waitFails =>
    if s.handling ∧ s.children.all fun c => c.reaped then some (s.goto .dead) else none

def initial : State :=
  ⟨[], -1, [], false, false, .top, false, false, [], 0, []⟩

end Calld
