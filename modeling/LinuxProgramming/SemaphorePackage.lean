import LinuxProgramming.Interleaving
import LinuxProgramming.SysVSemaphores

/-! # The semaphore routines over System V sets

`sem_create`, `sem_open`, `sem_op` and `sem_close`, one control point for each system call.
Any number of processes run them, and any of them may exit anywhere; `err_sys` and
`err_dump` are exits. -/
namespace SemaphorePackage

open Interleaving SysVSemaphores

def bigCount : ℤ := 10000
def ipcPrivate : Key := 0

def opLock : List Sembuf := [⟨2, 0, false⟩, ⟨2, 1, true⟩]
def opEndcreate : List Sembuf := [⟨1, -1, true⟩, ⟨2, -1, true⟩]
def opOpen : List Sembuf := [⟨1, -1, true⟩]
def opClose : List Sembuf := [⟨2, 0, false⟩, ⟨2, 1, true⟩, ⟨1, 1, true⟩]
def opUnlock : List Sembuf := [⟨2, -1, true⟩]
def opOp (value : ℤ) : List Sembuf := [⟨0, value, true⟩]

/-- The system call a process makes next; `blocked` tells a `semop` that waits already. -/
inductive Pc where
  | idle
  | createGet (key : Key) (initval : ℤ)
  | createLock (key : Key) (initval : ℤ) (id : SemId) (blocked : Bool)
  | createGetval (initval : ℤ) (id : SemId)
  | createSetval0 (initval : ℤ) (id : SemId)
  | createSetval1 (id : SemId)
  | createEnd (id : SemId)
  | openGet (key : Key)
  | openOp (id : SemId)
  | op (id : SemId) (value : ℤ)
  | closeOp (id : SemId)
  | closeGetval (id : SemId)
  | closeRm (id : SemId)
  | closeUnlock (id : SemId)
  | exited
  deriving DecidableEq, Repr

/-- A call, the next system call of the running one, its failure, or the end of the process. -/
inductive Act where
  | create (key : Key) (initval : ℤ)
  | «open» (key : Key)
  | op (id : SemId) (value : ℤ)
  | close (id : SemId)
  | go
  | fail
  | exit
  deriving DecidableEq, Repr

/-- What has ever happened to a set: an open was counted, a `sem_create` completed. -/
structure Marks where
  counted : Bool
  created : Bool
  deriving DecidableEq, Repr

def Marks.none : Marks := ⟨false, false⟩

/-- The kernel, with the completed opens that no close has followed yet and the marks of
each set. -/
structure Shared (ι : Type*) where
  kernel : Kernel ι
  opens : ι → SemId → ℕ
  marks : SemId → Marks

variable {ι : Type*} [DecidableEq ι]

namespace Shared

def setOpens (s : Shared ι) (p : ι) (id : SemId) (n : ℕ) : Shared ι :=
  { s with opens := Function.update s.opens p (Function.update (s.opens p) id n) }

def mark (s : Shared ι) (id : SemId) (m : Marks) : Shared ι :=
  { s with marks := Function.update s.marks id m }

def opened (s : Shared ι) (p : ι) (id : SemId) : Shared ι :=
  (s.setOpens p id (s.opens p id + 1)).mark id { s.marks id with counted := true }

def closed (s : Shared ι) (p : ι) (id : SemId) : Shared ι := s.setOpens p id (s.opens p id - 1)

def nowCreated (s : Shared ι) (id : SemId) : Shared ι :=
  s.mark id { s.marks id with created := true }

def perform (s : Shared ι) (p : ι) (id : SemId) (set : SemSet) (val : ℕ → ℤ)
    (ops : List Sembuf) : Shared ι :=
  { s with kernel := (s.kernel.setVal id set val).setAdj p id (undone (s.kernel.adj p id) ops) }

def leave (s : Shared ι) (p : ι) : Shared ι :=
  { s with kernel := s.kernel.exit p, opens := Function.update s.opens p fun _ => 0 }

end Shared

/-- `semop` inside a call whose failure is `err_sys`. -/
def semopOr (s : Shared ι) (p : ι) (id : SemId) (ops : List Sembuf)
    (k : Shared ι → Shared ι × Pc) : Option (Shared ι × Pc) :=
  match s.kernel.sets id with
  | none => some (s.leave p, .exited)
  | some set =>
    match semop set.val ops with
    | .done val => some (k (s.perform p id set val ops))
    | .wait => none
    | .range => some (s.leave p, .exited)

def semCreate (s : Shared ι) (p : ι) : Pc → Option (Shared ι × Pc)
  | .createGet key initval =>
    let (kernel, id) := s.kernel.semget key
    some ({ s with kernel := kernel }, .createLock key initval id false)
  | .createLock key initval id blocked =>
    match s.kernel.sets id with
    -- EINVAL goes back to semget; the removal of a set one waits for is EIDRM
    | none => if blocked then some (s.leave p, .exited) else some (s, .createGet key initval)
    | some set =>
      match semop set.val opLock with
      | .done val => some (s.perform p id set val opLock, .createGetval initval id)
      | .wait => if blocked then none else some (s, .createLock key initval id true)
      | .range => some (s.leave p, .exited)
  | .createGetval initval id =>
    match s.kernel.sets id with
    | none => some (s.leave p, .exited)
    | some set =>
      if set.val 1 = 0 then some (s, .createSetval0 initval id) else some (s, .createEnd id)
  | .createSetval0 initval id =>
    match s.kernel.sets id with
    | none => some (s.leave p, .exited)
    | some set =>
      if 0 ≤ initval ∧ initval ≤ semvmx then
        some ({ s with kernel := s.kernel.setval id set 0 initval }, .createSetval1 id)
      else some (s.leave p, .exited)
  | .createSetval1 id =>
    match s.kernel.sets id with
    | none => some (s.leave p, .exited)
    | some set => some ({ s with kernel := s.kernel.setval id set 1 bigCount }, .createEnd id)
  | .createEnd id =>
    semopOr s p id opEndcreate fun s => ((s.opened p id).nowCreated id, .idle)
  | _ => none

def semOpen (s : Shared ι) (p : ι) : Pc → Option (Shared ι × Pc)
  | .openGet key =>
    match s.kernel.byKey key with
    | none => some (s, .idle)
    | some id => some (s, .openOp id)
  | .openOp id => semopOr s p id opOpen fun s => (s.opened p id, .idle)
  | _ => none

def semOp (s : Shared ι) (p : ι) : Pc → Option (Shared ι × Pc)
  | .op id value =>
    if value = 0 then some (s.leave p, .exited)
    else semopOr s p id (opOp value) fun s => (s, .idle)
  | _ => none

def semRm (s : Shared ι) (p : ι) (id : SemId) : Shared ι × Pc :=
  match s.kernel.sets id with
  | none => (s.leave p, .exited)
  | some set => ({ s with kernel := s.kernel.rmid id set }, .idle)

def semClose (s : Shared ι) (p : ι) : Pc → Option (Shared ι × Pc)
  | .closeOp id => semopOr s p id opClose fun s => (s.closed p id, .closeGetval id)
  | .closeGetval id =>
    match s.kernel.sets id with
    | none => some (s.leave p, .exited)
    | some set =>
      if set.val 1 > bigCount then some (s.leave p, .exited)
      else if set.val 1 = bigCount then some (s, .closeRm id)
      else some (s, .closeUnlock id)
  | .closeRm id => some (semRm s p id)
  | .closeUnlock id => semopOr s p id opUnlock fun s => (s, .idle)
  | _ => none

def validKey (key : Key) : Bool := key ≠ ipcPrivate && key ≠ -1

/-- One action of process `p`. -/
def act (s : Shared ι) (p : ι) (pc : Pc) (a : Act) : Option (Shared ι × Pc) :=
  match a, pc with
  | _, .exited => none
  | .exit, _ => some (s.leave p, .exited)
  | .create key initval, .idle =>
    some (s, if validKey key then .createGet key initval else .idle)
  | .open key, .idle => some (s, if validKey key then .openGet key else .idle)
  | .op id value, .idle => some (s, .op id value)
  | .close id, .idle => some (s, .closeOp id)
  | .fail, .createGet _ _ => some (s, .idle)
  | .fail, .openGet _ => some (s, .idle)
  | .go, pc => (((semCreate s p pc).or (semOpen s p pc)).or (semOp s p pc)).or (semClose s p pc)
  | _, _ => none

abbrev Procs (ι : Type*) := World ι (Shared ι) Pc

def initial : Procs ι :=
  ⟨⟨Kernel.initial, fun _ _ => 0, fun _ => .none⟩, fun _ => .idle⟩

/-- Between the `semop` that takes the lock and the one that gives it back. -/
def Pc.inside (id : SemId) : Pc → Bool
  | .createGetval _ i | .createSetval0 _ i | .createSetval1 i | .createEnd i
  | .closeGetval i | .closeRm i | .closeUnlock i => i = id
  | _ => false

end SemaphorePackage
