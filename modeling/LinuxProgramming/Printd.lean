import LinuxProgramming.Interleaving
import LinuxProgramming.DoublyLinked
import LinuxProgramming.Volumes

/-! # The print spooling daemon

The threads of the daemon share a queue of jobs under `joblock`, the job counter and the
spool directory. A control point stands before each statement that touches them. What the
system and the printer answer is chosen by the environment. The daemon may die anywhere;
the spool directory and the job number file are what is left of it. -/
namespace Printd

open CStrings ByteFiles Interleaving DoublyLinked Volumes

abbrev Addr := ℕ
abbrev Name := List Byte

inductive Dir where
  | data
  | reqs
  deriving DecidableEq, Repr

abbrev Path := Dir × Name

def filenmsz : ℕ := 64
def ioBufsz : ℕ := 8192
def sizeofPrintreq : ℕ := 336
def eio : ℕ := 5

def longMax : ℤ := 2 ^ 63 - 1
def longMin : ℤ := -2 ^ 63

def toLong (n : ℤ) : ℤ := Int.bmod n (2 ^ 64)

/-- `atol` gives the nearest `long`. -/
def atolLong (s : List Byte) : ℤ := max longMin (min (atol s) longMax)

def htonl (n : ℤ) : ℤ :=
  let m := (n % 2 ^ 32).toNat
  ((m % 2 ^ 8) * 2 ^ 24 + (m / 2 ^ 8 % 2 ^ 8) * 2 ^ 16 + (m / 2 ^ 16 % 2 ^ 8) * 2 ^ 8 + m / 2 ^ 24 : ℕ)

/-! ## Requests and responses -/

/-- `ntohl` of a `long` in memory: its low four bytes in the other order. -/
def swapLong : List Byte → List Byte
  | b₀ :: b₁ :: b₂ :: b₃ :: _ :: _ :: _ :: _ :: rest => b₃ :: b₂ :: b₁ :: b₀ :: 0 :: 0 :: 0 :: 0 :: rest
  | bs => bs

theorem length_swapLong (bs : List Byte) : (swapLong bs).length = bs.length := by
  unfold swapLong
  split <;> simp

/-- `struct printreq` as it stands in memory: size, flags, user name and job name. -/
structure PrintReq where
  image : List Byte
  length_eq : image.length = sizeofPrintreq
  deriving DecidableEq

def leNat : List Byte → ℕ
  | [] => 0
  | b :: bs => b.toNat + 256 * leNat bs

namespace PrintReq

def size (r : PrintReq) : ℕ := leNat (r.image.take 8)

def toHost (r : PrintReq) : PrintReq where
  image := swapLong (r.image.take 8) ++ swapLong ((r.image.drop 8).take 8) ++ r.image.drop 16
  length_eq := by
    have := r.length_eq
    simp only [sizeofPrintreq] at this ⊢
    simp only [List.length_append, length_swapLong, List.length_take, List.length_drop]
    omega

/-- `req.flags |= PR_TEXT`. -/
def setText (r : PrintReq) : PrintReq where
  image := r.image.set 8 (r.image.getD 8 0 ||| 1)
  length_eq := by rw [List.length_set, r.length_eq]

end PrintReq

def blankReq : PrintReq := ⟨List.replicate sizeofPrintreq 0, by simp⟩

inductive Msg where
  | strerror (errnum : ℤ)
  | requestId (jobid : ℤ)
  deriving DecidableEq, Repr

/-- `struct printresp`; a field that is never assigned is `none`. -/
structure PrintResp where
  retcode : ℤ
  jobid : Option ℤ
  msg : Msg
  deriving DecidableEq, Repr

def failure (errnum : ℕ) (jobid : Option ℤ) : PrintResp :=
  ⟨htonl errnum, jobid, .strerror (htonl errnum)⟩

def success (jobid : ℤ) : PrintResp := ⟨0, some (htonl jobid), .requestId jobid⟩

def dataPath (jobid : ℤ) : Path := (.data, decimalInt jobid)
def reqsPath (jobid : ℤ) : Path := (.reqs, decimalInt jobid)

/-- `strncmp(buf, "%!PS", 4) == 0`. -/
def isPostscript (buf : List Byte) : Bool := buf.take 4 = [37, 33, 80, 83]

/-! ## Threads and what they share -/

inductive Tid where
  | main
  | printer
  | client (n : ℕ)
  deriving DecidableEq, Repr

structure Job where
  jobid : ℤ
  req : PrintReq
  deriving DecidableEq

/-- What clients are told and what becomes of their jobs, over all lives of the daemon. -/
inductive Event where
  | accepted (client : ℕ) (resp : PrintResp) (jobid : ℤ) (data req : List Byte)
  | rejected (client : ℕ) (resp : PrintResp)
  | succeeded (jobid : ℤ)
  | cancelled (jobid : ℤ)
  deriving DecidableEq

/-- What happens to the nodes of the queue in one life of the daemon. -/
inductive QueueEvent where
  | added (jp : Addr) (job : Job)
  | succeeded (jp : Addr)
  | unopened (jp : Addr)
  | unstated (jp : Addr)
  | freed (jp : Addr)
  deriving DecidableEq

/-- The control points of `add_job`. -/
inductive AddPc where
  | malloc (req : PrintReq) (jobid : ℤ)
  | lock (jp : Addr)
  | prev (jp : Addr)
  | link (jp : Addr)
  | tail (jp : Addr)
  | unlock
  | signal
  deriving DecidableEq

/-- A client's transfer: the request, the open data file and the bytes stored so far. -/
structure Transfer where
  req : PrintReq
  jobid : ℤ
  first : Bool
  inode : ℕ
  data : List Byte
  deriving DecidableEq

inductive Pc where
  | down
  -- build_qonstart
  | opendir
  | readdir (names : List Name)
  | openReq (name : Name) (names : List Name)
  | readReq (name : Name) (inode : ℕ) (names : List Name)
  | dropReq (name : Name) (names : List Name)
  | dropData (name : Name) (names : List Name)
  | queueing (a : AddPc) (names : List Name)
  | accepting
  -- client_thread
  | header
  | jobnoLock (req : PrintReq)
  | jobnoTake (req : PrintReq)
  | jobnoWrap (req : PrintReq) (jobid : ℤ)
  | jobnoUnlock (req : PrintReq) (jobid : ℤ)
  | creatData (req : PrintReq) (jobid : ℤ)
  | receive (x : Transfer)
  | writeData (x : Transfer) (buf : List Byte)
  | creatReq (req : PrintReq) (jobid : ℤ) (data : List Byte)
  | writeReq (req : PrintReq) (jobid : ℤ) (data : List Byte) (inode : ℕ)
  | reply (req : PrintReq) (jobid : ℤ) (data : List Byte)
  | reject (resp : PrintResp) (jobid : Option ℤ) (paths : List Path)
  | cleanup (jobid : Option ℤ) (paths : List Path)
  | adding (a : AddPc)
  | exited
  -- printer_thread
  | printerLock
  | test
  | waiting
  | removeNext (jp : Addr)
  | removePrev (jp : Addr)
  | pickedUnlock (jp : Addr)
  | updateSprintf (jp : Addr)
  | updateWrite (jp : Addr) (buf : List Byte)
  | openData (jp : Addr)
  | fstatData (jp : Addr)
  | socket (jp : Addr)
  | connect (jp : Addr)
  | sendHeaders (jp : Addr)
  | sendFile (jp : Addr)
  | printerStatus (jp : Addr)
  | unlinkData (jp : Addr)
  | unlinkReq (jp : Addr)
  | free (jp : Addr)
  | replaceLock (jp : Addr)
  | replacePrev (jp : Addr)
  | replaceNext (jp : Addr)
  | replaceLink (jp : Addr)
  | replaceHead (jp : Addr)
  | replaceUnlock
  deriving DecidableEq

structure Shared where
  spool : Volume Path
  jobno : List Byte
  history : List Event
  nextjob : ℤ
  lock : Option Tid
  jobwait : Bool
  links : Links Addr
  jobs : Addr → Job
  live : Addr → Bool
  log : List QueueEvent
  accepts : Bool

/-- What the system answers to the call at a control point. -/
inductive Answer where
  | ok
  | err (errnum : ℕ)
  | count (n : ℕ)
  | bytes (bs junk : List Byte)
  | addr (a : Addr)
  | names (l : List Name)
  deriving DecidableEq, Repr

namespace Shared

def setHead (s : Shared) (p : Option Addr) : Shared := { s with links := { s.links with head := p } }
def setTail (s : Shared) (p : Option Addr) : Shared := { s with links := { s.links with tail := p } }

def setNext (s : Shared) (a : Addr) (p : Option Addr) : Shared :=
  { s with links := { s.links with next := Function.update s.links.next a p } }

def setPrev (s : Shared) (a : Addr) (p : Option Addr) : Shared :=
  { s with links := { s.links with prev := Function.update s.links.prev a p } }

def unlink (s : Shared) (p : Path) : Answer → Option Shared
  | .ok => some { s with spool := s.spool.unlink p }
  | .err _ => some s
  | _ => none

def noted (s : Shared) (e : Event) : Shared := { s with history := s.history ++ [e] }
def logged (s : Shared) (e : QueueEvent) : Shared := { s with log := s.log ++ [e] }

def take (s : Shared) (t : Tid) : Option Shared :=
  if s.lock = none then some { s with lock := some t } else none

def release (s : Shared) : Shared := { s with lock := none }

end Shared

/-! ## Functions of the daemon -/

def jobFileName : List Byte := "/var/spool/printer/jobno".toUTF8.toList

/-- The job number file is read over the name buffer, whose rest is not cleared. -/
def initRequest (jobno junk : List Byte) : ℤ :=
  let n := min filenmsz jobno.length
  if n = 0 then 1
  else atolLong (jobno.take n ++ (jobFileName ++ 0 :: junk).drop n)

/-- `none` at the end of `add_job`. -/
def addJob (s : Shared) (t : Tid) (ans : Answer) : AddPc → Option (Shared × Option AddPc)
  | .malloc req jobid =>
    match ans with
    | .addr jp =>
      if s.live jp then none
      else
        let s := { s with
          live := Function.update s.live jp true
          jobs := Function.update s.jobs jp ⟨jobid, req⟩ }
        some (s.setNext jp none, some (.lock jp))
    | _ => none
  | .lock jp => (s.take t).map fun s => (s, some (.prev jp))
  | .prev jp => some (s.setPrev jp s.links.tail, some (.link jp))
  | .link jp =>
    match s.links.tail with
    | none => some (s.setHead (some jp), some (.tail jp))
    | some a => some (s.setNext a (some jp), some (.tail jp))
  | .tail jp => some ((s.setTail (some jp)).logged (.added jp (s.jobs jp)), some .unlock)
  | .unlock => some (s.release, some .signal)
  | .signal => some ({ s with jobwait := false }, none)

def buildQonstart (s : Shared) (ans : Answer) : Pc → Option (Shared × Pc)
  | .opendir =>
    match ans with
    | .names l =>
      if l.Perm ((s.spool.names.filter fun p => p.1 = .reqs).map Prod.snd) then some (s, .readdir l)
      else none
    | .err _ => some ({ s with accepts := true }, .accepting)
    | _ => none
  | .readdir [] => some ({ s with accepts := true }, .accepting)
  | .readdir (name :: names) => some (s, .openReq name names)
  | .openReq name names =>
    match ans with
    | .ok => (s.spool.inode (.reqs, name)).map fun i => (s, .readReq name i names)
    | .err _ => some (s, .readdir names)
    | _ => none
  | .readReq name i names =>
    let nr : Option ℕ := match ans with
      | .ok => some sizeofPrintreq
      | .count n => some n
      | .err _ => some 0
      | _ => none
    nr.map fun nr =>
      let buf := (s.spool.content i).take (min nr sizeofPrintreq)
      if h : buf.length = sizeofPrintreq then
        (s, .queueing (.malloc ⟨buf, h⟩ (atolLong name)) names)
      else (s, .dropReq name names)
  | .dropReq name names => (s.unlink (.reqs, name) ans).map fun s => (s, .dropData name names)
  | .dropData name names => (s.unlink (.data, name) ans).map fun s => (s, .readdir names)
  | .queueing a names =>
    (addJob s .main ans a).map fun r =>
      (r.1, match r.2 with | some a => .queueing a names | none => .readdir names)
  | _ => none

def getNewjobno (s : Shared) (t : Tid) : Pc → Option (Shared × Pc)
  | .jobnoLock req => (s.take t).map fun s => (s, .jobnoTake req)
  | .jobnoTake req => some ({ s with nextjob := toLong (s.nextjob + 1) }, .jobnoWrap req s.nextjob)
  | .jobnoWrap req jobid =>
    some (if s.nextjob ≤ 0 then { s with nextjob := 1 } else s, .jobnoUnlock req jobid)
  | .jobnoUnlock req jobid => some (s.release, .creatData req jobid)
  | _ => none

def clientThread (s : Shared) (n : ℕ) (ans : Answer) : Pc → Option (Shared × Pc)
  | .down => if s.accepts then some (s, .header) else none
  | .header =>
    match ans with
    | .bytes bs _ =>
      if h : bs.length = sizeofPrintreq then some (s, .jobnoLock (PrintReq.toHost ⟨bs, h⟩))
      else if bs.length < sizeofPrintreq then some (s, .reject (failure eio (some 0)) none [])
      else none
    | .err e => some (s, .reject (failure e (some 0)) none [])
    | _ => none
  | .creatData req jobid =>
    match ans with
    | .ok =>
      let (spool, i) := s.spool.creat (dataPath jobid)
      some ({ s with spool := spool }, .receive ⟨req, jobid, true, i, []⟩)
    -- n is still the result of treadn, so the error is EIO whatever creat said
    | .err _ => some (s, .reject (failure eio (some 0)) (some jobid) [])
    | _ => none
  | .receive x =>
    match ans with
    | .bytes bs junk =>
      if bs.length > ioBufsz then none
      else if bs = [] then some (s, .creatReq x.req x.jobid x.data)
      else
        let req := if x.first && !isPostscript (bs ++ junk) then x.req.setText else x.req
        some (s, .writeData { x with req := req, first := false } bs)
    | .err _ => some (s, .creatReq x.req x.jobid x.data)
    | _ => none
  | .writeData x buf =>
    match ans with
    | .ok =>
      some ({ s with spool := s.spool.write x.inode x.data.length buf },
        .receive { x with data := x.data ++ buf })
    | .count k =>
      if k < buf.length then
        some ({ s with spool := s.spool.write x.inode x.data.length (buf.take k) },
          .reject (failure eio none) (some x.jobid) [dataPath x.jobid])
      else none
    | .err e => some (s, .reject (failure e none) (some x.jobid) [dataPath x.jobid])
    | _ => none
  | .creatReq req jobid data =>
    match ans with
    | .ok =>
      let (spool, i) := s.spool.creat (reqsPath jobid)
      some ({ s with spool := spool }, .writeReq req jobid data i)
    | .err _ => some (s, .reject (failure eio (some 0)) (some jobid) [dataPath jobid])
    | _ => none
  | .writeReq req jobid data i =>
    match ans with
    | .ok => some ({ s with spool := s.spool.write i 0 req.image }, .reply req jobid data)
    | .count k =>
      if k < sizeofPrintreq then
        some ({ s with spool := s.spool.write i 0 (req.image.take k) },
          .reject (failure eio (some 0)) (some jobid) [reqsPath jobid, dataPath jobid])
      else none
    | .err e =>
      some (s, .reject (failure e (some 0)) (some jobid) [reqsPath jobid, dataPath jobid])
    | _ => none
  | .reply req jobid data =>
    some (s.noted (.accepted n (success jobid) jobid data req.image), .adding (.malloc req jobid))
  | .reject resp jobid paths => some (s.noted (.rejected n resp), .cleanup jobid paths)
  | .cleanup _ [] => some (s, .exited)
  | .cleanup jobid (p :: paths) => (s.unlink p ans).map fun s => (s, .cleanup jobid paths)
  | .adding a =>
    (addJob s (.client n) ans a).map fun r =>
      (r.1, match r.2 with | some a => .adding a | none => .exited)
  | pc => getNewjobno s (.client n) pc

def removeJob (s : Shared) : Pc → Option (Shared × Pc)
  | .removeNext target =>
    match s.links.next target with
    | some a => some (s.setPrev a (s.links.prev target), .removePrev target)
    | none => some (s.setTail (s.links.prev target), .removePrev target)
  | .removePrev target =>
    match s.links.prev target with
    | some a => some (s.setNext a (s.links.next target), .pickedUnlock target)
    | none => some (s.setHead (s.links.next target), .pickedUnlock target)
  | _ => none

def replaceJob (s : Shared) : Pc → Option (Shared × Pc)
  | .replaceLock jp => (s.take .printer).map fun s => (s, .replacePrev jp)
  | .replacePrev jp => some (s.setPrev jp none, .replaceNext jp)
  | .replaceNext jp => some (s.setNext jp s.links.head, .replaceLink jp)
  | .replaceLink jp =>
    match s.links.head with
    | none => some (s.setTail (some jp), .replaceHead jp)
    | some a => some (s.setPrev a (some jp), .replaceHead jp)
  | .replaceHead jp => some (s.setHead (some jp), .replaceUnlock)
  | .replaceUnlock => some (s.release, .printerLock)
  | _ => none

/-- The calls of `printer_thread` whose failure defers the job. -/
def orDefer (s : Shared) (jp : Addr) (pc : Pc) : Answer → Option (Shared × Pc)
  | .ok => some (s, pc)
  | .err _ => some (s, .replaceLock jp)
  | _ => none

def updateJobno (s : Shared) (ans : Answer) : Pc → Option (Shared × Pc)
  | .updateSprintf jp => some (s, .updateWrite jp (decimalInt s.nextjob))
  | .updateWrite jp buf =>
    match ans with
    | .ok => some ({ s with jobno := pwrite s.jobno 0 buf }, .openData jp)
    | .count k => some ({ s with jobno := pwrite s.jobno 0 (buf.take k) }, .openData jp)
    | _ => none
  | _ => none

def printerThread (s : Shared) (ans : Answer) : Pc → Option (Shared × Pc)
  | .printerLock => (s.take .printer).map fun s => (s, .test)
  | .test =>
    match s.links.head with
    | none => some ({ s.release with jobwait := true }, .waiting)
    | some jp => some (s, .removeNext jp)
  | .waiting =>
    -- a wake-up may come without a signal
    if s.jobwait then some ({ s with jobwait := false }, .waiting)
    else (s.take .printer).map fun s => (s, .test)
  | .pickedUnlock jp => some (s.release, .updateSprintf jp)
  | .openData jp =>
    let path := dataPath (s.jobs jp).jobid
    match ans with
    | .ok => (s.spool.inode path).map fun _ => (s, .fstatData jp)
    | .err _ => some ((s.noted (.cancelled (s.jobs jp).jobid)).logged (.unopened jp), .free jp)
    | _ => none
  | .fstatData jp =>
    match ans with
    | .ok => some (s, .socket jp)
    | .err _ => some ((s.noted (.cancelled (s.jobs jp).jobid)).logged (.unstated jp), .free jp)
    | _ => none
  | .socket jp => orDefer s jp (.connect jp) ans
  | .connect jp => orDefer s jp (.sendHeaders jp) ans
  | .sendHeaders jp => orDefer s jp (.sendFile jp) ans
  | .sendFile jp => orDefer s jp (.printerStatus jp) ans
  | .printerStatus jp =>
    match ans with
    | .ok => some ((s.noted (.succeeded (s.jobs jp).jobid)).logged (.succeeded jp), .unlinkData jp)
    | .err _ => some (s, .replaceLock jp)
    | _ => none
  | .unlinkData jp => (s.unlink (dataPath (s.jobs jp).jobid) ans).map fun s => (s, .unlinkReq jp)
  | .unlinkReq jp => (s.unlink (reqsPath (s.jobs jp).jobid) ans).map fun s => (s, .free jp)
  | .free jp =>
    some ({ s with live := Function.update s.live jp false }.logged (.freed jp), .printerLock)
  | pc => ((removeJob s pc).or (replaceJob s pc)).or (updateJobno s ans pc)

def act (s : Shared) (t : Tid) (pc : Pc) (ans : Answer) : Option (Shared × Pc) :=
  match t with
  | .main => buildQonstart s ans pc
  | .printer => printerThread s ans pc
  | .client n => clientThread s n ans pc

/-! ## Lives of the daemon -/

abbrev Daemon := World Tid Shared Pc

inductive Action where
  | crash
  | restart (junk : List Byte)
  | run (t : Tid) (ans : Answer)
  deriving DecidableEq, Repr

def boot (s : Shared) (junk : List Byte) : Shared :=
  { s with
    nextjob := initRequest s.jobno junk
    lock := none
    jobwait := false
    links := ⟨none, none, s.links.next, s.links.prev⟩
    live := fun _ => false
    log := []
    accepts := false }

def started : Tid → Pc
  | .main => .opendir
  | .printer => .printerLock
  | .client _ => .down

def next (w : Daemon) : Action → Option Daemon
  | .crash => some ⟨{ w.shared with accepts := false }, fun _ => .down⟩
  | .restart junk =>
    if w.thread .main = .down then some ⟨boot w.shared junk, started⟩ else none
  | .run t ans => w.next act (t, ans)

def initial (spool : Volume Path) (jobno : List Byte) : Daemon :=
  ⟨⟨spool, jobno, [], 0, none, false, ⟨none, none, fun _ => none, fun _ => none⟩,
    fun _ => ⟨0, blankReq⟩, fun _ => false, [], false⟩, fun _ => .down⟩

end Printd
