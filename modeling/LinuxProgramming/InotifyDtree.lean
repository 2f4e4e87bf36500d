import LinuxProgramming.CStrings
import LinuxProgramming.Interleaving
import LinuxProgramming.Pathnames
import LinuxProgramming.DirectoryTrees

/-! # The directory cache of the inotify monitor

The monitor keeps the pathnames of all directories of some trees, each with the watch on it,
up to date with the events that the kernel queues. A tree that is not one of the monitored
ones stands for the rest of the file system. The monitor takes one step for each system call
of the walk through a new subtree and for each event; changes of the file system may come
between any two steps. -/
namespace InotifyDtree

open CStrings Pathnames DirectoryTrees

abbrev Path := List Byte

def slash : Byte := 47
def pathMax : ℕ := 4096
def nameMax : ℕ := 255

def snprintf (size : ℕ) (s : Path) : Path := s.take (size - 1)

/-! ## Watches and events -/

inductive Kind where
  | create
  | movedFrom
  | movedTo
  | deleteSelf
  | moveSelf
  | ignored
  | unmount
  | overflow
  deriving DecidableEq, Repr

/-- `wd` is `none` where the code has -1. -/
structure Event where
  wd : Option ℕ
  kind : Kind
  isDir : Bool
  cookie : ℕ
  name : Path
  deriving DecidableEq, Repr

/-- A slot of the cache; it is unused where `wd` is `none`. -/
structure Watch where
  wd : Option ℕ
  path : Path
  deriving DecidableEq, Repr

/-- What is left to do of the calls of `nftw`: a whole subtree, an entry found in a directory,
a directory that has been opened, and one whose entries are to be read. -/
inductive Job where
  | subtree (path : Path)
  | visit (path : Path)
  | watch (path : Path) (i : ℕ)
  | list (path : Path) (i : ℕ)
  deriving DecidableEq, Repr

inductive Pc where
  | read
  | next
  | reread
  | walk (jobs : List Job)
  | exited
  deriving DecidableEq, Repr

structure State where
  dirs : Dirs ℕ Path
  watches : List (ℕ × ℕ)
  nextWd : ℕ
  cookie : ℕ
  queue : List Event
  cache : List Watch
  rootDirPaths : List (Option Path)
  buf : List Event
  firstTry : Bool
  pc : Pc

def pathOf (names : List Path) (l : Loc Path) : Path := joined slash (names.getD l.tree []) l.comps

def monitored (names : List Path) (l : Loc Path) : Bool := l.tree < names.length

def lookup (names : List Path) (dirs : Dirs ℕ Path) (path : Path) : Option ℕ :=
  (dirs.find? fun d => monitored names d.2 && pathOf names d.2 = path).map Prod.fst

def idAt (dirs : Dirs ℕ Path) (l : Loc Path) : Option ℕ := (dirs.find? fun d => d.2 = l).map Prod.fst

def wdOf (watches : List (ℕ × ℕ)) (i : ℕ) : Option ℕ :=
  (watches.find? fun w => w.2 = i).map Prod.fst

def entries (dirs : Dirs ℕ Path) (i : ℕ) : List Path :=
  dirs.filterMap fun d =>
    if dirs.any fun e => e.1 = i && d.2.comps ≠ [] && e.2 = d.2.parent then d.2.comps.getLast? else none

/-! ## The cache -/

def emptySlot : Watch := ⟨none, []⟩

def allocIncr : ℕ := 200

def findWatch (cache : List Watch) (wd : ℕ) : Option ℕ := cache.findIdx? fun w => w.wd = some wd

def markCacheSlotEmpty (cache : List Watch) (slot : ℕ) : List Watch := cache.set slot emptySlot

def findEmptyCacheSlot (cache : List Watch) : List Watch × ℕ :=
  match cache.findIdx? fun w => w.wd = none with
  | some slot => (cache, slot)
  | none => (cache ++ List.replicate allocIncr emptySlot, cache.length)

def addWatchToCache (cache : List Watch) (wd : ℕ) (pathname : Path) : List Watch :=
  let (cache, slot) := findEmptyCacheSlot cache
  cache.set slot ⟨some wd, pathname.take pathMax⟩

def pathnameInCache (cache : List Watch) (pathname : Path) : Bool :=
  cache.any fun w => w.wd ≠ none && w.path = pathname

def rewriteCachedPaths (cache : List Watch) (oldPathPrefix oldName newPathPrefix newName : Path) :
    List Watch :=
  let fullPath := snprintf pathMax (oldPathPrefix ++ slash :: oldName)
  let newPrefix := snprintf pathMax (newPathPrefix ++ slash :: newName)
  cache.map fun w =>
    if inSubtree slash fullPath w.path then
      { w with path := snprintf pathMax (newPrefix ++ w.path.drop fullPath.length) }
    else w

/-- The cache and the watches that are left, the events of the watches that were removed, and
whether all went well. -/
structure Zapped where
  cache : List Watch
  watches : List (ℕ × ℕ)
  events : List Event
  ok : Bool

def ignoredEvent (wd : ℕ) : Event := ⟨some wd, .ignored, false, 0, []⟩

def zapSubtree (path : Path) : List Watch → List (ℕ × ℕ) → Zapped
  | [], watches => ⟨[], watches, [], true⟩
  | w :: cache, watches =>
    match w.wd with
    | some wd =>
      if inSubtree slash path w.path then
        -- inotify_rm_watch
        if watches.any fun x => x.1 = wd then
          let z := zapSubtree path cache (watches.filter fun x => x.1 ≠ wd)
          ⟨emptySlot :: z.cache, z.watches, ignoredEvent wd :: z.events, z.ok⟩
        else ⟨w :: cache, watches, [], false⟩
      else
        let z := zapSubtree path cache watches
        { z with cache := w :: z.cache }
    | none =>
      let z := zapSubtree path cache watches
      { z with cache := w :: z.cache }

def isRootDirPath (rootDirPaths : List (Option Path)) (path : Path) : Bool :=
  rootDirPaths.any fun r => r = some path

def zapFirst : List (Option Path) → Path → List (Option Path)
  | [], _ => []
  | r :: rs, path => if r = some path then none :: rs else r :: zapFirst rs path

/-! ## Walking a subtree -/

namespace State

def resume (s : State) : State := { s with pc := if s.buf = [] then .read else .next }

def consume (s : State) (rest : List Event) : State :=
  { s with buf := rest, firstTry := true }.resume

/-- A new inotify file descriptor; what was queued and read for the old one is dropped. -/
def reinitialize (s : State) : State :=
  { s with
    watches := []
    nextWd := 1
    queue := []
    cache := []
    buf := []
    firstTry := true
    pc := .walk ((s.rootDirPaths.filterMap id).map Job.subtree) }

def exit (s : State) : State := { s with pc := .exited }

end State

def Job.isSubtree : Job → Bool
  | .subtree _ => true
  | _ => false

/-- A new watch for the directory, if there is none yet; and the cache, if it has no slot. -/
def traverseTree (names : List Path) (s : State) (pathname : Path) : Option State :=
  if pathMax ≤ pathname.length then none
  else match lookup names s.dirs pathname with
    | none => some s
    | some i =>
      match wdOf s.watches i with
      | some wd =>
        some (if (findWatch s.cache wd).isSome then s
          else { s with cache := addWatchToCache s.cache wd pathname })
      | none =>
        let wd := s.nextWd
        let s := { s with watches := s.watches ++ [(wd, i)], nextWd := wd + 1 }
        some (if (findWatch s.cache wd).isSome then s
          else { s with cache := addWatchToCache s.cache wd pathname })

def walkStep (names : List Path) (s : State) : List Job → State
  | [] => s.resume
  | .subtree path :: jobs =>
    if pathMax ≤ path.length then { s with pc := .walk jobs }
    else match lookup names s.dirs path with
      | none => { s with pc := .walk jobs }
      | some i => { s with pc := .walk (.watch path i :: jobs) }
  | .visit path :: jobs =>
    -- an error other than ENOENT ends the walk
    if pathMax ≤ path.length then { s with pc := .walk (jobs.dropWhile fun j => !j.isSubtree) }
    else match lookup names s.dirs path with
      | none => { s with pc := .walk jobs }
      | some i => { s with pc := .walk (.watch path i :: jobs) }
  | .watch path i :: jobs =>
    match traverseTree names s path with
    | none => s.exit
    | some s => { s with pc := .walk (.list path i :: jobs) }
  | .list path i :: jobs =>
    { s with pc := .walk ((entries s.dirs i).map (fun n => .visit (path ++ slash :: n)) ++ jobs) }

/-! ## Events -/

def watchSubtree (s : State) (path : Path) : State := { s with pc := .walk [.subtree path] }

def zapAndConsume (s : State) (path : Path) (rest : List Event) : State :=
  let z := zapSubtree path s.cache s.watches
  let s := { s with cache := z.cache, watches := z.watches, queue := s.queue ++ z.events }
  if z.ok then s.consume rest else s.reinitialize

def zapRootDirPath (s : State) (path : Path) (continue' : State → State) : State :=
  let s := { s with rootDirPaths := zapFirst s.rootDirPaths path }
  if s.rootDirPaths.all fun r => r = none then s.exit else continue' s

def handleEvent (s : State) (ev : Event) (rest : List Event) (slot : ℕ) (path : Path) : State :=
  match ev.kind with
  | .create | .movedTo =>
    if ev.isDir then
      let fullPath := snprintf (pathMax + nameMax) (path ++ slash :: ev.name)
      if pathnameInCache s.cache fullPath then s.consume rest
      else watchSubtree (s.consume rest) fullPath
    else s.consume rest
  | .deleteSelf =>
    let clear (s : State) : State :=
      { s with cache := markCacheSlotEmpty s.cache slot }.consume rest
    if isRootDirPath s.rootDirPaths path then zapRootDirPath s path clear else clear s
  | .movedFrom =>
    if ev.isDir then
      let fullPath := snprintf (pathMax + nameMax) (path ++ slash :: ev.name)
      match rest with
      | [] =>
        if s.firstTry then { s with pc := .reread } else zapAndConsume s fullPath rest
      | nextEv :: rest' =>
        if nextEv.kind = .movedTo ∧ nextEv.cookie = ev.cookie then
          match nextEv.wd.bind fun wd => findWatch s.cache wd with
          | none => s.reinitialize
          | some nextSlot =>
            { s with
              cache := rewriteCachedPaths s.cache path ev.name
                (s.cache.getD nextSlot emptySlot).path nextEv.name }.consume rest'
        else zapAndConsume s fullPath rest
    else s.consume rest
  | .unmount => { s with cache := markCacheSlotEmpty s.cache slot }.consume rest
  | .moveSelf =>
    if isRootDirPath s.rootDirPaths path then
      zapRootDirPath s path fun s => zapAndConsume s path rest
    else s.consume rest
  | .ignored | .overflow => s.consume rest

def processNextInotifyEvent (s : State) (ev : Event) (rest : List Event) : State :=
  match ev.kind with
  | .ignored => s.consume rest
  | .overflow => s.reinitialize
  | _ =>
    match ev.wd.bind fun wd => findWatch s.cache wd with
    | none => s.reinitialize
    | some slot => handleEvent s ev rest slot (s.cache.getD slot emptySlot).path

/-! ## The file system and the monitor together -/

def dirEvent (wd : ℕ) (kind : Kind) (cookie : ℕ) (name : Path) : Event := ⟨some wd, kind, true, cookie, name⟩

def notify (s : State) (i : Option ℕ) (kind : Kind) (cookie : ℕ) (name : Path) : List Event :=
  match i.bind fun i => wdOf s.watches i with
  | some wd => [dirEvent wd kind cookie name]
  | none => []

def vanish (s : State) (i : Option ℕ) : State :=
  match i.bind fun i => wdOf s.watches i with
  | some wd =>
    { s with
      watches := s.watches.filter fun w => w.1 ≠ wd
      queue := s.queue ++ [dirEvent wd .deleteSelf 0 [], ignoredEvent wd] }
  | none => s

def validName (n : Path) : Bool :=
  n ≠ [] && !n.contains slash && !n.contains 0 && n ≠ [46] && n ≠ [46, 46] && n.length ≤ nameMax

inductive Action where
  | mkdir (l : Loc Path) (n : Path) (i : ℕ)
  | rmdir (l : Loc Path)
  | rename (src dst : Loc Path)
  | read (k : ℕ)
  | reread (k : ℕ)
  | step
  deriving DecidableEq, Repr

def nameOf (l : Loc Path) : Path := l.comps.getLast?.getD []

def mkdirStep (s : State) (l : Loc Path) (n : Path) (i : ℕ) : Option State :=
  if validName n then
    (mkdir s.dirs i l n).map fun dirs =>
      { s with dirs := dirs, queue := s.queue ++ notify s (idAt s.dirs l) .create 0 n }
  else none

def rmdirStep (s : State) (l : Loc Path) : Option State :=
  (rmdir s.dirs l).map fun dirs => vanish { s with dirs := dirs } (idAt s.dirs l)

/-- The two events are adjacent and share a cookie; a directory that was replaced goes after
them. -/
def renameStep (s : State) (src dst : Loc Path) : Option State :=
  if validName (nameOf dst) then
    (rename s.dirs src dst).map fun dirs =>
      vanish
        { s with
          dirs := dirs
          cookie := s.cookie + 1
          queue := s.queue ++
            notify s (idAt s.dirs src.parent) .movedFrom s.cookie (nameOf src) ++
            notify s (idAt s.dirs dst.parent) .movedTo s.cookie (nameOf dst) }
        (idAt s.dirs dst)
  else none

/-- The first `read` takes any number of events, as many as its buffer holds; the second one,
after an event that hangs, is interrupted when there is none. -/
def next (names : List Path) (s : State) : Action → Option State
  | .mkdir l n i => mkdirStep s l n i
  | .rmdir l => rmdirStep s l
  | .rename src dst => renameStep s src dst
  | .read k =>
    if s.pc = .read ∧ 0 < k ∧ k ≤ s.queue.length then
      some { s with buf := s.queue.take k, queue := s.queue.drop k, firstTry := true, pc := .next }
    else none
  | .reread k =>
    if s.pc = .reread ∧ k ≤ s.queue.length ∧ (0 < k ∨ s.queue = []) then
      some { s with
        buf := s.buf ++ s.queue.take k
        queue := s.queue.drop k
        firstTry := false
        pc := .next }
    else none
  | .step =>
    match s.pc with
    | .next =>
      match s.buf with
      | [] => none
      | ev :: rest => some (processNextInotifyEvent s ev rest)
    | .walk jobs => some (walkStep names s jobs)
    | _ => none

def start (names : List Path) (dirs : Dirs ℕ Path) : State :=
  ⟨dirs, [], 1, 1, [], [], names.map some, [], true, .walk (names.map Job.subtree)⟩

end InotifyDtree
