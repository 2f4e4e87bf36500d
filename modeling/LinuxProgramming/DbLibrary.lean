import LinuxProgramming.SyscallPrograms

/-! # The database library: a model of db.c

Every function takes the handle and gives it back changed. The two descriptors keep their
own file offsets, which the handle carries as `idxpos` and `datpos`. System calls other
than a seek to a negative offset and a short read are taken to succeed. `nhash` and
`hashoff` are set once by db_open and are constants here. Loops over index records run for
at most `fuel` rounds. -/
namespace DbLibrary

open CStrings ByteFiles SyscallPrograms

def idxlenSz : ℕ := 4
def sep : Byte := 58

def ptrSz : ℕ := 6
def ptrMax : ℕ := 999999
def nhash : ℕ := 137
def freeOff : ℕ := 0
def hashOff : ℕ := ptrSz

def idxlenMin : ℕ := 6
def idxlenMax : ℕ := 1024
def datlenMin : ℕ := 2
def datlenMax : ℕ := 1024

def dbInsert : ℤ := 1
def dbReplace : ℤ := 2
def dbStoreFlag : ℤ := 3

inductive Fd where
  | idx
  | dat
  deriving DecidableEq, Repr

inductive DbFn where
  | readptr
  | readidx
  | readdat
  | writedat
  | writeidx
  | writeptr
  | store
  deriving DecidableEq, Repr

/-- The function whose err_dump or err_quit ends the process, and the rest of its message. -/
structure Fatal where
  fn : DbFn
  text : String
  deriving DecidableEq, Repr

abbrev Act := Prog Fd Fatal

def fatal {α : Type} (fn : DbFn) (text : String) : Act α := .abort ⟨fn, text⟩

structure DB where
  idxbuf : List Byte := []
  datbuf : List Byte := []
  idxoff : ℤ := 0
  idxlen : ℕ := 0
  datoff : ℤ := 0
  datlen : ℕ := 0
  ptrval : ℤ := 0
  ptroff : ℤ := 0
  chainoff : ℤ := 0
  cntDelok : ℕ := 0
  cntDelerr : ℕ := 0
  cntFetchok : ℕ := 0
  cntFetcherr : ℕ := 0
  cntNextrec : ℕ := 0
  cntStor1 : ℕ := 0
  cntStor2 : ℕ := 0
  cntStor3 : ℕ := 0
  cntStor4 : ℕ := 0
  cntStorerr : ℕ := 0
  idxpos : ℕ := 0
  datpos : ℕ := 0
  deriving DecidableEq, Repr

/-! ## System calls on a handle's descriptors -/

def DB.pos (db : DB) : Fd → ℕ
  | .idx => db.idxpos
  | .dat => db.datpos

def DB.seekTo (db : DB) : Fd → ℕ → DB
  | .idx, n => { db with idxpos := n }
  | .dat, n => { db with datpos := n }

inductive Whence where
  | set
  | fromEnd
  deriving DecidableEq, Repr

/-- lseek, with the err_dump that follows it everywhere when it returns -1. -/
def lseek (db : DB) (fd : Fd) (offset : ℤ) (whence : Whence) (fn : DbFn) (text : String) :
    Act DB :=
  match whence with
  | .set => if offset < 0 then fatal fn text else .ret (db.seekTo fd offset.toNat)
  | .fromEnd => .size fd fun n =>
      if n + offset < 0 then fatal fn text else .ret (db.seekTo fd (n + offset).toNat)

def readFd (db : DB) (fd : Fd) (n : ℕ) : Act (List Byte × DB) :=
  .read fd (db.pos fd) n fun bs => .ret (bs, db.seekTo fd (db.pos fd + bs.length))

def writeFd (db : DB) (fd : Fd) (bs : List Byte) : Act DB :=
  .write fd (db.pos fd) bs (.ret (db.seekTo fd (db.pos fd + bs.length)))

def lockw (fd : Fd) (m : LockMode) (offset len : ℕ) : Act Unit :=
  .lock fd m offset len (.ret ())

def unLock (fd : Fd) (offset len : ℕ) : Act Unit := .unlock fd offset len (.ret ())

/-- A lock set and released in one function, around the statements between. -/
def withLock {α : Type} (fd : Fd) (m : LockMode) (offset len : ℕ) (body : Act α) : Act α := do
  lockw fd m offset len
  let a ← body
  unLock fd offset len
  return a

def sizeT (n : ℤ) : ℕ := (n % 2 ^ 64).toNat

/-! ## Reading -/

def signedChar (c : Byte) : ℤ := if c.toNat < 128 then c.toNat else (c.toNat : ℤ) - 256

def hashLoop : List Byte → ℕ → ℕ → ℕ
  | [], _, hval => hval
  | c :: key, i, hval => hashLoop key (i + 1) ((hval + signedChar c * i) % 2 ^ 64).toNat

/-- Each char times its 1-based index, summed in an unsigned long. -/
def dbHash (key : List Byte) : ℕ := hashLoop key 1 0 % nhash

def dbReadptr (db : DB) (offset : ℤ) : Act (ℤ × DB) := do
  let db ← lseek db .idx offset .set .readptr "lseek error to ptr field"
  let (asciiptr, db) ← readFd db .idx ptrSz
  if asciiptr.length ≠ ptrSz then fatal .readptr "read error of ptr field"
  else return (atol asciiptr, db)

/-- The part of _db_readidx behind the read of the index record into `idxbuf`. -/
def parseIdxbuf (db : DB) (buf : List Byte) : Act (ℤ × DB) :=
  if buf.getD (db.idxlen - 1) 0 ≠ newline then fatal .readidx "missing newline"
  else
    let buf := buf.set (db.idxlen - 1) 0
    match strchr sep buf with
    | none => fatal .readidx "missing first separator"
    | some i =>
      let buf := buf.set i 0
      let ptr1 := i + 1
      match strchr sep (buf.drop ptr1) with
      | none => fatal .readidx "missing second separator"
      | some j =>
        let buf := buf.set (ptr1 + j) 0
        let ptr2 := ptr1 + j + 1
        if (strchr sep (buf.drop ptr2)).isSome then fatal .readidx "too many separators"
        else
          let db := { db with
            idxbuf := buf
            datoff := atol (buf.drop ptr1)
            datlen := sizeT (atol (buf.drop ptr2)) }
          if db.datoff < 0 then fatal .readidx "starting offset < 0"
          else if db.datlen = 0 ∨ db.datlen > datlenMax then fatal .readidx "invalid length"
          else .ret (db.ptrval, db)

def readRecord (db : DB) (offset : ℤ) : Act (ℤ × DB) := do
  let db := { db with idxoff := db.idxpos }
  let (iov, db) ← readFd db .idx (ptrSz + idxlenSz)
  if iov.length ≠ ptrSz + idxlenSz then
    if iov.length = 0 ∧ offset = 0 then return (-1, db)
    else fatal .readidx "readv error of index record"
  else
    let db := { db with
      ptrval := atol (iov.take ptrSz)
      idxlen := sizeT (atol (iov.drop ptrSz)) }
    if db.idxlen < idxlenMin ∨ db.idxlen > idxlenMax then fatal .readidx "invalid length"
    else
      let (buf, db) ← readFd db .idx db.idxlen
      if buf.length ≠ db.idxlen then fatal .readidx "read error of index record"
      else parseIdxbuf db buf

/-- Offset 0 means the current offset; only then is end of file no error. -/
def dbReadidx (db : DB) (offset : ℤ) : Act (ℤ × DB) := do
  let db ← (if offset = 0 then .ret db else lseek db .idx offset .set .readidx "lseek error")
  readRecord db offset

def findLoop (key : List Byte) : ℕ → DB → ℤ → Act (ℤ × DB)
  | 0, db, offset => if offset = 0 then .ret (-1, db) else .hang
  | fuel + 1, db, offset =>
    if offset = 0 then .ret (-1, db)
    else do
      let (nextoffset, db) ← dbReadidx db offset
      if cstr db.idxbuf = key then return (0, db)
      else findLoop key fuel { db with ptroff := offset } nextoffset

def chainOff (key : List Byte) : ℕ := dbHash key * ptrSz + hashOff

/-- Returns with the hash chain locked; -1 when the record is not found. -/
def dbFindAndLock (fuel : ℕ) (db : DB) (key : List Byte) (writelock : Bool) :
    Act (ℤ × DB) := do
  let db := { db with chainoff := chainOff key, ptroff := chainOff key }
  lockw .idx (if writelock then .write else .read) (chainOff key) 1
  let (offset, db) ← dbReadptr db db.ptroff
  findLoop key fuel db offset

def dbReaddat (db : DB) : Act (List Byte × DB) := do
  let db ← lseek db .dat db.datoff .set .readdat "lseek error"
  let (buf, db) ← readFd db .dat db.datlen
  if buf.length ≠ db.datlen then fatal .readdat "read error"
  else if buf.getD (db.datlen - 1) 0 ≠ newline then fatal .readdat "missing newline"
  else
    let db := { db with datbuf := buf.set (db.datlen - 1) 0 }
    return (cstr db.datbuf, db)

/-- `none` is the NULL pointer. -/
def dbFetch (fuel : ℕ) (db : DB) (key : List Byte) : Act (Option (List Byte) × DB) := do
  let (rc, db) ← dbFindAndLock fuel db key false
  let (ptr, db) ← (
    if rc < 0 then .ret (none, { db with cntFetcherr := db.cntFetcherr + 1 })
    else do
      let (data, db) ← dbReaddat db
      return (some data, { db with cntFetchok := db.cntFetchok + 1 }))
  unLock .idx db.chainoff.toNat 1
  return (ptr, db)

/-! ## Writing -/

/-- If we are appending, lock up to the end of the file around the seek and the write. -/
def appendLocked {α : Type} (whence : Whence) (fd : Fd) (start : ℕ) (body : Act α) : Act α :=
  match whence with
  | .set => body
  | .fromEnd => withLock fd .write start 0 body

def dbWritedat (db : DB) (data : List Byte) (offset : ℤ) (whence : Whence) : Act DB :=
  appendLocked whence .dat 0 do
    let db ← lseek db .dat offset whence .writedat "lseek error"
    let db := { db with datoff := db.datpos, datlen := data.length + 1 }
    writeFd db .dat (data ++ [newline])

/-- Offset of the first index record, behind the hash table and its newline. -/
def recordsOff : ℕ := (nhash + 1) * ptrSz + 1

def dbWriteidx (db : DB) (key : List Byte) (offset : ℤ) (whence : Whence) (ptrval : ℤ) :
    Act DB :=
  let db := { db with ptrval := ptrval }
  if ptrval < 0 ∨ ptrval > ptrMax then fatal .writeidx "invalid ptr"
  else
    let text := key ++ [sep] ++ decimalInt db.datoff ++ [sep] ++ decimal db.datlen ++ [newline]
    let db := { db with idxbuf := text ++ [0] }
    let len := text.length
    if len < idxlenMin ∨ len > idxlenMax then fatal .writeidx "invalid length"
    else
      let asciiptrlen := padLeft ptrSz (decimalInt ptrval) ++ padLeft idxlenSz (decimal len)
      appendLocked whence .idx recordsOff do
        let db ← lseek db .idx offset whence .writeidx "lseek error"
        let db := { db with idxoff := db.idxpos }
        writeFd db .idx (asciiptrlen ++ text)

def dbWriteptr (db : DB) (offset ptrval : ℤ) : Act DB :=
  if ptrval < 0 ∨ ptrval > ptrMax then fatal .writeptr "invalid ptr"
  else do
    let db ← lseek db .idx offset .set .writeptr "lseek error to ptr field"
    writeFd db .idx (padLeft ptrSz (decimalInt ptrval))

def blankKey (buf : List Byte) : List Byte :=
  List.replicate (cstr buf).length space ++ buf.drop (cstr buf).length

def dbDodelete (db : DB) : Act DB :=
  let db := { db with
    datbuf := List.replicate (db.datlen - 1) space ++ [0]
    idxbuf := blankKey db.idxbuf }
  withLock .idx .write freeOff 1 do
    let db ← dbWritedat db (cstr db.datbuf) db.datoff .set
    let (freeptr, db) ← dbReadptr db freeOff
    let saveptr := db.ptrval
    let db ← dbWriteidx db (cstr db.idxbuf) db.idxoff .set freeptr
    let db ← dbWriteptr db freeOff db.idxoff
    dbWriteptr db db.ptroff saveptr

def dbDelete (fuel : ℕ) (db : DB) (key : List Byte) : Act (ℤ × DB) := do
  let (rc, db) ← dbFindAndLock fuel db key true
  let (rc, db) ← (
    if rc = 0 then do
      let db ← dbDodelete db
      return ((0 : ℤ), { db with cntDelok := db.cntDelok + 1 })
    else .ret (-1, { db with cntDelerr := db.cntDelerr + 1 }))
  unLock .idx db.chainoff.toNat 1
  return (rc, db)

def findfreeLoop (keylen datlen : ℕ) : ℕ → DB → ℤ → ℤ → Act (ℤ × ℤ × DB)
  | 0, db, saveoffset, offset => if offset = 0 then .ret (offset, saveoffset, db) else .hang
  | fuel + 1, db, saveoffset, offset =>
    if offset = 0 then .ret (offset, saveoffset, db)
    else do
      let (nextoffset, db) ← dbReadidx db offset
      if (cstr db.idxbuf).length = keylen ∧ db.datlen = datlen then
        return (offset, saveoffset, db)
      else findfreeLoop keylen datlen fuel db offset nextoffset

/-- On success the record is off the free list and the handle names its two places. -/
def dbFindfree (fuel : ℕ) (db : DB) (keylen datlen : ℕ) : Act (ℤ × DB) :=
  withLock .idx .write freeOff 1 do
    let (offset, db) ← dbReadptr db freeOff
    let (offset, saveoffset, db) ← findfreeLoop keylen datlen fuel db freeOff offset
    if offset = 0 then return (-1, db)
    else
      let db ← dbWriteptr db saveoffset db.ptrval
      return (0, db)

/-- Append a data record and an index record and put the record first on its chain. -/
def storeAppend (db : DB) (key data : List Byte) (ptrval : ℤ) : Act DB := do
  let db ← dbWritedat db data 0 .fromEnd
  let db ← dbWriteidx db key 0 .fromEnd ptrval
  dbWriteptr db db.chainoff db.idxoff

/-- Fill the free record the handle names and put it first on its chain. -/
def storeReuse (db : DB) (key data : List Byte) (ptrval : ℤ) : Act DB := do
  let db ← dbWritedat db data db.datoff .set
  let db ← dbWriteidx db key db.idxoff .set ptrval
  dbWriteptr db db.chainoff db.idxoff

def storeAbsent (fuel : ℕ) (db : DB) (key data : List Byte) (flag : ℤ) : Act (ℤ × DB) :=
  if flag = dbReplace then .ret (-1, { db with cntStorerr := db.cntStorerr + 1 })
  else do
    let (ptrval, db) ← dbReadptr db db.chainoff
    let (rc, db) ← dbFindfree fuel db key.length (data.length + 1)
    if rc < 0 then do
      let db ← storeAppend db key data ptrval
      return (0, { db with cntStor1 := db.cntStor1 + 1 })
    else do
      let db ← storeReuse db key data ptrval
      return (0, { db with cntStor2 := db.cntStor2 + 1 })

def storePresent (db : DB) (key data : List Byte) (flag : ℤ) : Act (ℤ × DB) :=
  if flag = dbInsert then .ret (1, { db with cntStorerr := db.cntStorerr + 1 })
  else if data.length + 1 ≠ db.datlen then do
    let db ← dbDodelete db
    let (ptrval, db) ← dbReadptr db db.chainoff
    let db ← storeAppend db key data ptrval
    return (0, { db with cntStor3 := db.cntStor3 + 1 })
  else do
    let db ← dbWritedat db data db.datoff .set
    return (0, { db with cntStor4 := db.cntStor4 + 1 })

def dbStore (fuel : ℕ) (db : DB) (key data : List Byte) (flag : ℤ) : Act (ℤ × DB) :=
  if flag ≠ dbInsert ∧ flag ≠ dbReplace ∧ flag ≠ dbStoreFlag then .ret (-1, db)
  else if data.length + 1 < datlenMin ∨ data.length + 1 > datlenMax then
    fatal .store "invalid data length"
  else do
    let (rc, db) ← dbFindAndLock fuel db key true
    let (rc, db) ← (
      if rc < 0 then storeAbsent fuel db key data flag else storePresent db key data flag)
    unLock .idx db.chainoff.toNat 1
    return (rc, db)

/-! ## Opening and scanning -/

def dbRewind (db : DB) : DB := { db with idxpos := recordsOff, idxoff := recordsOff }

/-- The free list pointer and the hash table, all zero, and a newline. -/
def initHash : List Byte :=
  (List.replicate (nhash + 1) (padLeft ptrSz (decimal 0))).flatten ++ [newline]

/-- db_open of files that exist or are created; O_TRUNC empties both. -/
def dbOpen (creat trunc : Bool) : Act DB := do
  if trunc then .truncate .idx (.truncate .dat (.ret ()))
  let db : DB := {}
  let db ← (
    if creat && trunc then do
      lockw .idx .write 0 0
      let size ← .size .idx .ret
      let db ← (if size = 0 then writeFd db .idx initHash else .ret db)
      unLock .idx 0 0
      return db
    else .ret db)
  return dbRewind db

def isBlank (key : List Byte) : Bool := key.all (· = space)

def nextrecLoop : ℕ → DB → Act (Option (List Byte) × DB)
  | 0, _ => .hang
  | fuel + 1, db => do
    let (ptr, db) ← dbReadidx db 0
    if ptr < 0 then return (none, db)
    else if isBlank (cstr db.idxbuf) then nextrecLoop fuel db
    else return (some (cstr db.idxbuf), db)

def dbNextrec (fuel : ℕ) (db : DB) : Act (Option (List Byte × List Byte) × DB) :=
  withLock .idx .read freeOff 1 do
    let (key, db) ← nextrecLoop fuel db
    match key with
    | none => return (none, db)
    | some key =>
      let (data, db) ← dbReaddat db
      return (some (key, data), { db with cntNextrec := db.cntNextrec + 1 })

/-! ## Calls -/

/-- A C string argument: bytes without a NUL. -/
abbrev CString := { s : List Byte // (0 : Byte) ∉ s }

inductive Call where
  | fetch (key : CString)
  | store (key data : CString) (flag : ℤ)
  | delete (key : CString)
  | rewind
  | nextrec
  deriving DecidableEq

inductive Result where
  | status (rc : ℤ)
  | data (ptr : Option (List Byte))
  | record (ptr : Option (List Byte × List Byte))
  | unit
  deriving DecidableEq, Repr

def exec (fuel : ℕ) : Call → DB → Act (Result × DB)
  | .fetch key, db => do
    let (ptr, db) ← dbFetch fuel db key.1
    return (.data ptr, db)
  | .store key data flag, db => do
    let (rc, db) ← dbStore fuel db key.1 data.1 flag
    return (.status rc, db)
  | .delete key, db => do
    let (rc, db) ← dbDelete fuel db key.1
    return (.status rc, db)
  | .rewind, db => .ret (.unit, dbRewind db)
  | .nextrec, db => do
    let (ptr, db) ← dbNextrec fuel db
    return (.record ptr, db)

end DbLibrary
