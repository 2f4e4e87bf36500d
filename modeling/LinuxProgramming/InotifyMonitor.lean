import LinuxProgramming.InotifyDtree

/-! # Processing one inotify event

Here the file system is what it answers: the directories that the `k`-th call of `nftw` visits and
the result of the `k`-th call on the inotify instance, for all `k`. The operations on watches and on
the cache are recorded. Messages, and the checks and dumps of the cache that can be switched on, are
left out; `inotify_init` and allocations succeed. -/
namespace InotifyMonitor

open CStrings Pathnames InotifyDtree

/-- The bits of the mask that are looked at. -/
structure Mask where
  create : Bool
  movedFrom : Bool
  movedTo : Bool
  deleteSelf : Bool
  moveSelf : Bool
  unmount : Bool
  qOverflow : Bool
  ignored : Bool
  isDir : Bool
  deriving DecidableEq, Repr

def Mask.onWatch (mask : Mask) : Bool :=
  mask.create || mask.movedFrom || mask.movedTo || mask.deleteSelf || mask.moveSelf || mask.unmount

/-- `wd` is `none` where the code has -1, and `len` is the size of the padded name. An event without a
watch descriptor, or that says that the watch is gone, is no event on a watched directory. -/
structure Event where
  wd : Option ℕ
  mask : Mask
  cookie : ℕ
  len : ℕ
  name : Path
  watched : wd = none ∨ mask.ignored = true → mask.onWatch = false
  deriving DecidableEq, Repr

/-- `sizeof(struct inotify_event) + ev->len`. -/
def Event.size (ev : Event) : ℕ := 16 + ev.len

inductive AddReply where
  | watch (wd : ℕ)
  | enoent
  | failed
  deriving DecidableEq, Repr

/-- `nftw` gives the pathnames that it visits, each with whether it is a directory. -/
structure World where
  nftw : ℕ → Path → List (Path × Bool)
  addWatch : ℕ → Path → AddReply
  rmWatch : ℕ → ℕ → Bool

/-- `addWatch` is recorded with whether `IN_MOVE_SELF` is asked for. -/
inductive Op where
  | nftw (path : Path)
  | addWatch (path : Path) (moveSelf : Bool)
  | rmWatch (wd : ℕ)
  | addWatchToCache (wd : ℕ) (path : Path)
  | markCacheSlotEmpty (slot : ℕ)
  | rewriteCachedPaths (oldPathPrefix oldName newPathPrefix newName : Path)
  | zapRootDirPath (path : Path)
  | freeCache
  deriving DecidableEq, Repr

structure Monitor where
  cache : List Watch
  rootDirPaths : List (Option Path)
  ignoreRootDirs : ℕ
  nftwCalls : ℕ
  inotifyCalls : ℕ
  ops : List Op
  deriving DecidableEq, Repr

def Monitor.record (m : Monitor) (op : Op) : Monitor := { m with ops := m.ops ++ [op] }

/-! ## Watches -/

def findWatch (cache : List Watch) (wd : Option ℕ) : Option ℕ := cache.findIdx? fun w => w.wd = wd

/-- An error other than `ENOENT` ends the process. -/
def traverseTree (w : World) (m : Monitor) (pathname : Path) (isDir : Bool) :
    Except Monitor Monitor :=
  if isDir = false then .ok m
  else
    let reply := w.addWatch m.inotifyCalls pathname
    let m := { m.record (.addWatch pathname (isRootDirPath m.rootDirPaths pathname)) with
      inotifyCalls := m.inotifyCalls + 1 }
    match reply with
    | .enoent => .ok m
    | .failed => .error m
    | .watch wd =>
      if (findWatch m.cache (some wd)).isSome then .ok m
      else .ok { m.record (.addWatchToCache wd pathname) with
        cache := addWatchToCache m.cache wd pathname }

def watchSubtree (w : World) (m : Monitor) (path : Path) : Except Monitor Monitor :=
  (w.nftw m.nftwCalls path).foldlM (fun m entry => traverseTree w m entry.1 entry.2)
    { m.record (.nftw path) with nftwCalls := m.nftwCalls + 1 }

/-- The loop over the slots from `j` on; whether all watches could be removed. -/
def zapLoop (w : World) (path : Path) : List Watch → ℕ → Monitor → Bool × Monitor
  | [], _, m => (true, m)
  | slot :: slots, j, m =>
    match slot.wd with
    | none => zapLoop w path slots (j + 1) m
    | some wd =>
      if inSubtree slash path slot.path then
        let removed := w.rmWatch m.inotifyCalls wd
        let m := { m.record (.rmWatch wd) with inotifyCalls := m.inotifyCalls + 1 }
        if removed then
          zapLoop w path slots (j + 1)
            { m.record (.markCacheSlotEmpty j) with cache := markCacheSlotEmpty m.cache j }
        else (false, m)
      else zapLoop w path slots (j + 1) m

def zapSubtree (w : World) (m : Monitor) (path : Path) : Bool × Monitor :=
  zapLoop w path m.cache 0 m

def zapRootDirPath (m : Monitor) (path : Path) : Except Monitor Monitor :=
  let m := { m.record (.zapRootDirPath path) with
    rootDirPaths := zapFirst m.rootDirPaths path
    ignoreRootDirs := m.ignoreRootDirs + 1 }
  if m.ignoreRootDirs = m.rootDirPaths.length then .error m else .ok m

def reinitialize (w : World) (m : Monitor) : Except Monitor Monitor :=
  (m.rootDirPaths.filterMap id).foldlM (watchSubtree w) { m.record .freeCache with cache := [] }

/-! ## One event -/

/-- What the caller sees: the events that were consumed, the value `INOTIFY_READ_BUF_LEN`, or -1. The
process may also end, or use the slot of an event that has none. -/
inductive Reply where
  | consumed (events : List Event)
  | discarded
  | hanging
  | exited
  | undefined
  deriving DecidableEq, Repr

def finish (reply : Reply) : Except Monitor Monitor → Reply × Monitor
  | .ok m => (reply, m)
  | .error m => (.exited, m)

def rebuild (w : World) (m : Monitor) : Reply × Monitor := finish .discarded <| reinitialize w m

def withSlot (m : Monitor) (evCacheSlot : Option ℕ) (body : ℕ → Path → Reply × Monitor) :
    Reply × Monitor :=
  match evCacheSlot with
  | none => (.undefined, m)
  | some slot => body slot (m.cache.getD slot emptySlot).path

def clearSlot (m : Monitor) (slot : ℕ) : Monitor :=
  { m.record (.markCacheSlotEmpty slot) with cache := markCacheSlotEmpty m.cache slot }

def zapOrRebuild (w : World) (ev : Event) (m : Monitor) (path : Path) : Reply × Monitor :=
  let r := zapSubtree w m path
  if r.1 then (.consumed [ev], r.2) else rebuild w r.2

def entryPath (path : Path) (ev : Event) : Path :=
  snprintf (pathMax + nameMax) (path ++ slash :: ev.name)

def moveOut (w : World) (m : Monitor) (ev : Event) (evCacheSlot : Option ℕ) : Reply × Monitor :=
  withSlot m evCacheSlot fun _ path => zapOrRebuild w ev m (entryPath path ev)

/-- `nextEv` ends a rename that starts with `ev`. -/
def Event.matches (ev nextEv : Event) : Bool := nextEv.mask.movedTo && nextEv.cookie = ev.cookie

def renamed (w : World) (m : Monitor) (ev nextEv : Event) (evCacheSlot : Option ℕ) :
    Reply × Monitor :=
  match findWatch m.cache nextEv.wd with
  | none => rebuild w m
  | some nextEvCacheSlot =>
    withSlot m evCacheSlot fun _ path =>
      let newPath := (m.cache.getD nextEvCacheSlot emptySlot).path
      (.consumed [ev, nextEv],
        { m.record (.rewriteCachedPaths path ev.name newPath nextEv.name) with
          cache := rewriteCachedPaths m.cache path ev.name newPath nextEv.name })

/-- A directory is moved from its place; `nextEv` is the next event in the buffer. -/
def movedFrom (w : World) (m : Monitor) (ev : Event) (nextEv : Option Event) (firstTry : Bool)
    (evCacheSlot : Option ℕ) : Reply × Monitor :=
  match nextEv with
  | some nextEv =>
    if ev.matches nextEv then renamed w m ev nextEv evCacheSlot else moveOut w m ev evCacheSlot
  | none => if firstTry then (.hanging, m) else moveOut w m ev evCacheSlot

/-- The branches in front of the one for `IN_MOVED_FROM`. -/
def Event.arrives (ev : Event) : Bool := ev.mask.isDir && (ev.mask.create || ev.mask.movedTo)

def Event.departs (ev : Event) : Bool := ev.mask.movedFrom && ev.mask.isDir

def handle (w : World) (m : Monitor) (ev : Event) (nextEv : Option Event) (firstTry : Bool)
    (evCacheSlot : Option ℕ) : Reply × Monitor :=
  if ev.arrives then
    withSlot m evCacheSlot fun _ path =>
      let fullPath := entryPath path ev
      if pathnameInCache m.cache fullPath then (.consumed [ev], m)
      else finish (.consumed [ev]) (watchSubtree w m fullPath)
  else if ev.mask.deleteSelf then
    withSlot m evCacheSlot fun slot path =>
      if isRootDirPath m.rootDirPaths path then
        finish (.consumed [ev]) ((zapRootDirPath m path).map fun m => clearSlot m slot)
      else (.consumed [ev], clearSlot m slot)
  else if ev.departs then movedFrom w m ev nextEv firstTry evCacheSlot
  else if ev.mask.qOverflow then rebuild w m
  else if ev.mask.unmount then
    withSlot m evCacheSlot fun slot _ => (.consumed [ev], clearSlot m slot)
  else if ev.mask.moveSelf then
    withSlot m evCacheSlot fun _ path =>
      if isRootDirPath m.rootDirPaths path then
        match zapRootDirPath m path with
        | .error m => (.exited, m)
        | .ok m => zapOrRebuild w ev m path
      else (.consumed [ev], m)
  else (.consumed [ev], m)

/-- `IN_Q_OVERFLOW` and `IN_IGNORED` have no slot. -/
def processNextInotifyEvent (w : World) (m : Monitor) (ev : Event) (nextEv : Option Event)
    (firstTry : Bool) : Reply × Monitor :=
  if ev.wd ≠ none ∧ ev.mask.ignored = false then
    match findWatch m.cache ev.wd with
    | none => rebuild w m
    | some evCacheSlot => handle w m ev nextEv firstTry (some evCacheSlot)
  else handle w m ev nextEv firstTry none

end InotifyMonitor
