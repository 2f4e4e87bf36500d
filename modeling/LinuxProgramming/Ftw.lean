import LinuxProgramming.CStrings

/-! # The tree walk of `ftw4`

All levels of the recursion share one buffer for the pathname, which is extended behind a saved
pointer and cut back there. The file system answers by pathname and stays as it is during the walk.
The callback may remember the calls made before. The depth of calls is bounded by a number, and a
walk that needs more has no result. A failing `closedir` only prints a message and is left out. -/
namespace Ftw

open CStrings

abbrev Path := List Byte

def slash : Byte := 47
def dot : Path := [46]
def dotDot : Path := [46, 46]

/-- `FTW_F`, `FTW_D`, `FTW_DNR` and `FTW_NS`. -/
inductive FileType where
  | f
  | d
  | dnr
  | ns
  deriving DecidableEq, Repr

/-- `σ` is the type of the `stat` structures. -/
structure FileSystem (σ : Type) where
  lstat : Path → Option σ
  isDir : σ → Bool
  opendir : Path → Option (List Path)

/-- A call of the callback; `statbuf` is not set when `lstat` failed. -/
structure Call (σ : Type) where
  path : Path
  statbuf : Option σ
  type : FileType
  deriving DecidableEq, Repr

structure State (σ : Type) where
  fullpath : List Byte
  calls : List (Call σ)
  deriving DecidableEq, Repr

/-- The walk returns, or it writes behind the end of the buffer. -/
inductive Ending where
  | returned (ret : ℤ)
  | overrun
  deriving DecidableEq, Repr

/-- What the callback returns, after which calls. -/
abbrev Func (σ : Type) := List (Call σ) → Call σ → ℤ

variable {σ : Type}

def State.report (func : Func σ) (s : State σ) (statbuf : Option σ) (type : FileType) :
    ℤ × State σ :=
  let call : Call σ := ⟨cstr s.fullpath, statbuf, type⟩
  (func s.calls call, { s with calls := s.calls ++ [call] })

def finish (r : ℤ × State σ) : Option (Ending × State σ) := some (.returned r.1, r.2)

/-- `strcpy` to the place `ptr` of a buffer. -/
def strcpy (buf : List Byte) (ptr : ℕ) (s : List Byte) : Option (List Byte) :=
  if ptr + s.length < buf.length then
    some (buf.take ptr ++ s ++ 0 :: buf.drop (ptr + s.length + 1))
  else none

def State.erase (ptr : ℕ) (s : State σ) : State σ :=
  { s with fullpath := s.fullpath.set (ptr - 1) 0 }

/-- The loop over the names that `readdir` gives; `call` is the recursive call. -/
def readdirLoop (call : State σ → Option (Ending × State σ)) (ptr : ℕ) :
    List Path → State σ → Option (Ending × State σ)
  | [], s => some (.returned 0, s.erase ptr)
  | name :: names, s =>
    if name = dot ∨ name = dotDot then readdirLoop call ptr names s
    else
      match strcpy s.fullpath ptr name with
      | none => some (.overrun, s)
      | some fullpath =>
        match call { s with fullpath := fullpath } with
        | none => none
        | some (.overrun, s) => some (.overrun, s)
        | some (.returned ret, s) =>
          if ret ≠ 0 then some (.returned ret, s.erase ptr) else readdirLoop call ptr names s

/-- What is done for a directory after its `FTW_D` call. -/
def enter (fs : FileSystem σ) (func : Func σ) (call : State σ → Option (Ending × State σ))
    (statbuf : σ) (s : State σ) : Option (Ending × State σ) :=
  let ptr := (cstr s.fullpath).length
  match strcpy s.fullpath ptr [slash] with
  | none => some (.overrun, s)
  | some fullpath =>
    match fs.opendir (cstr fullpath) with
    | none => finish (State.report func { s with fullpath := fullpath } (some statbuf) .dnr)
    | some names => readdirLoop call (ptr + 1) names { s with fullpath := fullpath }

/-- `dopath`, with at most `depth` calls inside each other. -/
def dopath (fs : FileSystem σ) (func : Func σ) : ℕ → State σ → Option (Ending × State σ)
  | 0, _ => none
  | depth + 1, s =>
    match fs.lstat (cstr s.fullpath) with
    | none => finish (s.report func none .ns)
    | some statbuf =>
      if fs.isDir statbuf = false then finish (s.report func (some statbuf) .f)
      else
        let r := s.report func (some statbuf) .d
        if r.1 ≠ 0 then finish r else enter fs func (dopath fs func depth) statbuf r.2

/-- `strncpy` fills the buffer of `len` bytes with zeros; the last byte is set once more. -/
def startBuffer (len : ℕ) (pathname : Path) : List Byte :=
  (pathname.take len ++ List.replicate (len - pathname.length) 0).set (len - 1) 0

def myftw (fs : FileSystem σ) (func : Func σ) (len : ℕ) (pathname : Path) (depth : ℕ) :
    Option (Ending × State σ) :=
  dopath fs func depth ⟨startBuffer len pathname, []⟩

/-! ## Directory trees -/

mutual
/-- A finite tree; `noStat` cannot be asked for its status and `locked` is a directory that cannot
be opened. -/
inductive Tree (σ : Type) where
  | noStat
  | file (statbuf : σ)
  | locked (statbuf : σ)
  | dir (statbuf : σ) (entries : Entries σ)

/-- The entries of a directory in the order of `readdir`, without dot and dot-dot. -/
inductive Entries (σ : Type) where
  | nil
  | cons (name : Path) (tree : Tree σ) (rest : Entries σ)
end

def Entries.names : Entries σ → List Path
  | .nil => []
  | .cons name _ rest => name :: rest.names

def isEntry (name : Path) : Bool := ¬ (name = dot ∨ name = dotDot)

mutual
/-- The file system has the tree at `path`. -/
def Shows (fs : FileSystem σ) (path : Path) : Tree σ → Prop
  | .noStat => fs.lstat path = none
  | .file statbuf => fs.lstat path = some statbuf ∧ fs.isDir statbuf = false
  | .locked statbuf =>
    fs.lstat path = some statbuf ∧ fs.isDir statbuf = true ∧ fs.opendir (path ++ [slash]) = none
  | .dir statbuf entries =>
    fs.lstat path = some statbuf ∧ fs.isDir statbuf = true ∧
      (∃ names, fs.opendir (path ++ [slash]) = some names ∧ names.filter isEntry = entries.names) ∧
      ShowsEntries fs path entries

def ShowsEntries (fs : FileSystem σ) (path : Path) : Entries σ → Prop
  | .nil => True
  | .cons name tree rest =>
    0 ∉ name ∧ Shows fs (path ++ slash :: name) tree ∧ ShowsEntries fs path rest
end

mutual
/-- One call for each entry of the tree, a directory before what is below it, and one more for a
directory that cannot be opened. -/
def preorder (path : Path) : Tree σ → List (Call σ)
  | .noStat => [⟨path, none, .ns⟩]
  | .file statbuf => [⟨path, some statbuf, .f⟩]
  | .locked statbuf => [⟨path, some statbuf, .d⟩, ⟨path ++ [slash], some statbuf, .dnr⟩]
  | .dir statbuf entries => ⟨path, some statbuf, .d⟩ :: preorderEntries path entries

def preorderEntries (path : Path) : Entries σ → List (Call σ)
  | .nil => []
  | .cons name tree rest => preorder (path ++ slash :: name) tree ++ preorderEntries path rest
end

/-- The calls up to the first that returns a nonzero value, behind those of `log`, and the value. -/
def cut (func : Func σ) : List (Call σ) → List (Call σ) → ℤ × List (Call σ)
  | [], log => (0, log)
  | c :: cs, log => if func log c ≠ 0 then (func log c, log ++ [c]) else cut func cs (log ++ [c])

/-- The walk makes the calls of the tree in order, cut after the first nonzero value, and returns
that value. -/
def WalksPreorder (fs : FileSystem σ) (func : Func σ) (len : ℕ) (pathname : Path)
    (tree : Tree σ) : Prop :=
  ∃ depth, ∀ k ≥ depth, ∃ s,
    myftw fs func len pathname k = some (.returned (cut func (preorder pathname tree) []).1, s) ∧
      s.calls = (cut func (preorder pathname tree) []).2

/-- Every directory whose call is made and returns zero leaves a byte of the buffer for the slash. -/
def RoomForSlash (func : Func σ) (len : ℕ) (cs log : List (Call σ)) : Prop :=
  ∀ before c after, cs = before ++ c :: after → c.type = .d →
    (cut func (before ++ [c]) log).1 = 0 → c.path.length + 1 < len

/-! ## The walk as a run over the calls -/

/-- The calls made one after the other, each with the writes into the buffer of `len` bytes that go
with it: its pathname before and the slash of a directory behind. -/
def walk (func : Func σ) (len : ℕ) : List (Call σ) → List (Call σ) → Ending × List (Call σ)
  | [], log => (.returned 0, log)
  | c :: cs, log =>
    if c.type ≠ .dnr ∧ len ≤ c.path.length then (.overrun, log)
    else if func log c ≠ 0 then (.returned (func log c), log ++ [c])
    else if c.type = .d ∧ len ≤ c.path.length + 1 then (.overrun, log ++ [c])
    else walk func len cs (log ++ [c])

theorem walk_append (func : Func σ) (len : ℕ) (cs ds log : List (Call σ)) :
    walk func len (cs ++ ds) log =
      if (walk func len cs log).1 = .returned 0 then walk func len ds (walk func len cs log).2
      else walk func len cs log := by
  induction cs generalizing log with
  | nil => simp [walk]
  | cons c cs ih =>
    simp only [List.cons_append, walk]
    split
    · simp
    · split
      · rename_i hfunc
        simp [hfunc]
      · split
        · simp
        · exact ih _

/-- The buffer of `len` bytes holds a pathname. -/
structure Holds (len : ℕ) (path : Path) (s : State σ) : Prop where
  length : s.fullpath.length = len
  text : ∃ rest, s.fullpath = path ++ 0 :: rest

/-- The buffer begins with a pathname. -/
structure Begins (len : ℕ) (path : Path) (s : State σ) : Prop where
  length : s.fullpath.length = len
  text : ∃ rest, s.fullpath = path ++ rest

/-- The result of a part of the walk that starts with the calls of `log`. -/
structure Result (func : Func σ) (len : ℕ) (path : Path) (cs log : List (Call σ))
    (r : Option (Ending × State σ)) : Prop where
  run : ∃ s, r = some ((walk func len cs log).1, s) ∧ s.calls = (walk func len cs log).2 ∧
    Begins len path s

section Buffer

variable {len : ℕ} {path : Path} {s : State σ}

theorem Holds.begins (h : Holds len path s) : Begins len path s := by
  obtain ⟨rest, hrest⟩ := h.text
  exact ⟨h.length, 0 :: rest, hrest⟩

theorem Holds.cstr_eq (h : Holds len path s) (h0 : (0 : Byte) ∉ path) :
    cstr s.fullpath = path := by
  obtain ⟨rest, hrest⟩ := h.text
  rw [hrest]
  exact cstr_append_nul h0 rest

theorem Holds.length_lt (h : Holds len path s) : path.length < len := by
  obtain ⟨rest, hrest⟩ := h.text
  have hlen := h.length
  rw [hrest, List.length_append, List.length_cons] at hlen
  omega

theorem Begins.left {name : Path} (h : Begins len (path ++ name) s) : Begins len path s := by
  obtain ⟨rest, hrest⟩ := h.text
  exact ⟨h.length, name ++ rest, by rw [hrest, List.append_assoc]⟩

theorem Begins.erase (h : Begins len (path ++ [slash]) s) :
    Begins len path (s.erase (path.length + 1)) := by
  obtain ⟨rest, hrest⟩ := h.text
  constructor
  · simp only [State.erase, List.length_set, h.length]
  · exact ⟨0 :: rest, by simp [State.erase, hrest]⟩

theorem strcpy_begins (name : Path) (h : Begins len path s) (hfit : path.length + name.length < len) :
    ∃ fullpath, strcpy s.fullpath path.length name = some fullpath ∧
      Holds len (path ++ name) { s with fullpath := fullpath } := by
  obtain ⟨rest, hrest⟩ := h.text
  have hlen := h.length
  refine ⟨_, if_pos (by omega), ?_, ?_⟩
  · simp only [List.length_append, List.length_take, List.length_cons, List.length_drop]
    omega
  · refine ⟨s.fullpath.drop (path.length + name.length + 1), ?_⟩
    rw [hrest, List.take_left]

theorem strcpy_overrun (name : Path) (h : Begins len path s)
    (hfit : len ≤ path.length + name.length) : strcpy s.fullpath path.length name = none := by
  have hlen := h.length
  exact if_neg (by omega)

end Buffer

section Steps

variable {fs : FileSystem σ} {func : Func σ} {len : ℕ} {path : Path}

theorem result_finish {s : State σ} {statbuf : Option σ} {type : FileType} (h : Holds len path s)
    (h0 : (0 : Byte) ∉ path) (hd : type ≠ .d) :
    Result func len path [⟨path, statbuf, type⟩] s.calls (finish (s.report func statbuf type)) := by
  have hfit : ¬ (type ≠ .dnr ∧ len ≤ path.length) := by
    have := h.length_lt
    omega
  refine ⟨⟨(s.report func statbuf type).2, ?_, ?_, h.begins.length, h.begins.text⟩⟩
  · by_cases hret : func s.calls ⟨path, statbuf, type⟩ = 0 <;>
      simp [finish, State.report, walk, h.cstr_eq h0, hfit, hret, hd]
  · by_cases hret : func s.calls ⟨path, statbuf, type⟩ = 0 <;>
      simp [State.report, walk, h.cstr_eq h0, hfit, hret, hd]

theorem readdirLoop_filter (call : State σ → Option (Ending × State σ)) (ptr : ℕ)
    (names : List Path) (s : State σ) :
    readdirLoop call ptr names s = readdirLoop call ptr (names.filter isEntry) s := by
  induction names generalizing s with
  | nil => rfl
  | cons name names ih =>
    by_cases hname : name = dot ∨ name = dotDot
    · have hentry : isEntry name = false := decide_eq_false (not_not_intro hname)
      rw [List.filter_cons_of_neg (by simp [hentry]), ← ih s, readdirLoop, if_pos hname]
    · have hentry : isEntry name = true := decide_eq_true hname
      rw [List.filter_cons_of_pos hentry]
      simp only [readdirLoop, if_neg hname, ih]

/-- One turn of the loop: the name is copied behind the slash, its tree is walked, and the rest of
the names follow. -/
theorem readdirLoop_cons {call : State σ → Option (Ending × State σ)} {name : Path}
    {names : List Path} {cs ds : List (Call σ)} (hname : isEntry name = true)
    (hcall : ∀ s, Holds len (path ++ slash :: name) s →
      Result func len (path ++ slash :: name) cs s.calls (call s))
    (hover : len ≤ (path ++ slash :: name).length → ∀ log, walk func len cs log = (.overrun, log))
    (hrest : ∀ s, Begins len (path ++ [slash]) s →
      Result func len path ds s.calls (readdirLoop call (path.length + 1) names s))
    {s : State σ} (hs : Begins len (path ++ [slash]) s) :
    Result func len path (cs ++ ds) s.calls
      (readdirLoop call (path.length + 1) (name :: names) s) := by
  have hnot : ¬ (name = dot ∨ name = dotDot) := of_decide_eq_true hname
  have hptr : (path ++ [slash]).length = path.length + 1 := by simp
  have happ : path ++ [slash] ++ name = path ++ slash :: name := by simp
  simp only [readdirLoop, if_neg hnot]
  by_cases hfit : (path ++ [slash]).length + name.length < len
  · obtain ⟨fullpath, hcpy, hheld⟩ := strcpy_begins name hs hfit
    rw [happ] at hheld
    rw [hptr] at hcpy
    obtain ⟨s', hret, hcalls, hbegins⟩ := (hcall _ hheld).run
    have hkept : Begins len (path ++ [slash]) s' := by
      rw [← happ] at hbegins
      exact hbegins.left
    simp only [hcpy, hret]
    constructor
    rw [walk_append]
    cases hend : (walk func len cs s.calls).1 with
    | overrun => exact ⟨s', by simp [hend], by simp [hcalls], hkept.left⟩
    | returned ret =>
      by_cases hzero : ret = 0
      · obtain ⟨t, ht⟩ := (hrest s' hkept).run
        rw [hcalls] at ht
        exact ⟨t, by simpa [hzero] using ht⟩
      · exact ⟨s'.erase (path.length + 1), by simp [hend, hzero], by simp [hzero, State.erase, hcalls],
          hkept.erase⟩
  · have hlong : len ≤ (path ++ [slash]).length + name.length := by omega
    have hcpy := strcpy_overrun name hs hlong
    rw [hptr] at hcpy hlong
    have hpath : len ≤ (path ++ slash :: name).length := by
      rw [List.length_append, List.length_cons]
      omega
    simp only [hcpy]
    constructor
    rw [walk_append, hover hpath]
    exact ⟨s, by simp, by simp, hs.left⟩

theorem walk_preorder_overrun {tree : Tree σ} (h : len ≤ path.length) (log : List (Call σ)) :
    walk func len (preorder path tree) log = (.overrun, log) := by
  cases tree <;> simp [preorder, walk, h]

/-- The slash fits: `opendir` is asked with it. -/
theorem enter_slash (fs : FileSystem σ) (func : Func σ) (call : State σ → Option (Ending × State σ))
    (statbuf : σ) {s : State σ} (hs : Holds len path s) (h0 : (0 : Byte) ∉ path)
    (hfit : path.length + 1 < len) :
    ∃ s', Holds len (path ++ [slash]) s' ∧ s'.calls = s.calls ∧
      (fs.opendir (path ++ [slash]) = none →
        enter fs func call statbuf s = finish (s'.report func (some statbuf) .dnr)) ∧
      ∀ names, fs.opendir (path ++ [slash]) = some names →
        enter fs func call statbuf s = readdirLoop call (path.length + 1) names s' := by
  have hslash : (0 : Byte) ∉ path ++ [slash] := by simp [h0, slash]
  obtain ⟨fullpath, hcpy, hheld⟩ := strcpy_begins [slash] hs.begins hfit
  have hopen : cstr fullpath = path ++ [slash] := hheld.cstr_eq hslash
  refine ⟨{ s with fullpath := fullpath }, hheld, rfl, ?_, ?_⟩
  · intro hnone
    simp only [enter, hs.cstr_eq h0, hcpy, hopen, hnone]
  · intro names hsome
    simp only [enter, hs.cstr_eq h0, hcpy, hopen, hsome]

theorem enter_overrun (call : State σ → Option (Ending × State σ)) (statbuf : σ) {s : State σ}
    (hs : Holds len path s) (h0 : (0 : Byte) ∉ path) (hfit : len ≤ path.length + 1) :
    enter fs func call statbuf s = some (.overrun, s) := by
  simp only [enter, hs.cstr_eq h0, strcpy_overrun [slash] hs.begins hfit]

theorem walk_dir (hfit : path.length < len) (statbuf : σ) (cs log : List (Call σ)) :
    walk func len (⟨path, some statbuf, .d⟩ :: cs) log =
      if func log ⟨path, some statbuf, .d⟩ ≠ 0 then
        (.returned (func log ⟨path, some statbuf, .d⟩), log ++ [⟨path, some statbuf, .d⟩])
      else if len ≤ path.length + 1 then (.overrun, log ++ [⟨path, some statbuf, .d⟩])
      else walk func len cs (log ++ [⟨path, some statbuf, .d⟩]) := by
  simp only [walk, Nat.not_le.mpr hfit, and_false, if_false, true_and]

/-- A directory: its own call, and what follows when there is room for the slash. -/
theorem dopath_dir {depth : ℕ} {statbuf : σ} {cs : List (Call σ)} {s : State σ}
    (hs : Holds len path s) (h0 : (0 : Byte) ∉ path) (hstat : fs.lstat path = some statbuf)
    (hdir : fs.isDir statbuf = true)
    (hnext : path.length + 1 < len → ∀ s', Holds len path s' →
      Result func len path cs s'.calls (enter fs func (dopath fs func depth) statbuf s')) :
    Result func len path (⟨path, some statbuf, .d⟩ :: cs) s.calls
      (dopath fs func (depth + 1) s) := by
  simp only [dopath, hs.cstr_eq h0, hstat, hdir, Bool.true_eq_false, if_false]
  have hreport : s.report func (some statbuf) .d =
      (func s.calls ⟨path, some statbuf, .d⟩,
        { s with calls := s.calls ++ [⟨path, some statbuf, .d⟩] }) := by
    simp only [State.report, hs.cstr_eq h0]
  have hheld : Holds len path { s with calls := s.calls ++ [⟨path, some statbuf, .d⟩] } :=
    ⟨hs.length, hs.text⟩
  rw [hreport]
  constructor
  rw [walk_dir hs.length_lt]
  by_cases hret : func s.calls ⟨path, some statbuf, .d⟩ = 0
  · simp only [hret, ne_eq, not_true, if_false]
    by_cases hfit : path.length + 1 < len
    · rw [if_neg (Nat.not_le.mpr hfit)]
      exact (hnext hfit _ hheld).run
    · have hover : len ≤ path.length + 1 := by omega
      rw [enter_overrun _ _ hheld h0 hover, if_pos hover]
      exact ⟨_, rfl, rfl, hheld.begins⟩
  · simp only [ne_eq, hret, not_false_eq_true, if_true]
    exact ⟨_, rfl, rfl, hheld.begins⟩

end Steps

/-! ## The whole tree -/

section Trees

variable {fs : FileSystem σ} (func : Func σ) (len : ℕ)

mutual
theorem dopath_walk (tree : Tree σ) {path : Path} (h0 : (0 : Byte) ∉ path)
    (hshows : Shows fs path tree) : ∃ depth, ∀ k ≥ depth, ∀ s, Holds len path s →
      Result func len path (preorder path tree) s.calls (dopath fs func k s) := by
  cases tree with
  | noStat =>
    refine ⟨1, fun k hk s hs => ?_⟩
    obtain ⟨k, rfl⟩ := Nat.exists_eq_add_of_le' hk
    rw [Shows] at hshows
    simp only [dopath, hs.cstr_eq h0, hshows]
    exact result_finish hs h0 (by simp)
  | file statbuf =>
    refine ⟨1, fun k hk s hs => ?_⟩
    obtain ⟨k, rfl⟩ := Nat.exists_eq_add_of_le' hk
    rw [Shows] at hshows
    simp only [dopath, hs.cstr_eq h0, hshows.1, hshows.2, if_true]
    exact result_finish hs h0 (by simp)
  | locked statbuf =>
    refine ⟨1, fun k hk s hs => ?_⟩
    obtain ⟨k, rfl⟩ := Nat.exists_eq_add_of_le' hk
    rw [Shows] at hshows
    refine dopath_dir hs h0 hshows.1 hshows.2.1 fun hfit t ht => ?_
    obtain ⟨s', hheld, hcalls, hlocked, -⟩ := enter_slash fs func (dopath fs func k) statbuf ht h0 hfit
    have hslash : (0 : Byte) ∉ path ++ [slash] := by simp [h0, slash]
    have hlast : Result func len (path ++ [slash]) [⟨path ++ [slash], some statbuf, .dnr⟩] s'.calls _ :=
      result_finish hheld hslash (by simp)
    obtain ⟨u, hu, hcs, hbegins⟩ := hlast.run
    rw [hlocked hshows.2.2, ← hcalls]
    exact ⟨u, hu, hcs, hbegins.left⟩
  | dir statbuf entries =>
    rw [Shows] at hshows
    obtain ⟨hstat, hdir, ⟨names, hopen, hnames⟩, hentries⟩ := hshows
    obtain ⟨depth, hloop⟩ := readdirLoop_walk entries h0 hentries
      (fun name hname => (List.mem_filter.mp (hnames ▸ hname)).2)
    refine ⟨depth + 1, fun k hk s hs => ?_⟩
    obtain ⟨k, rfl⟩ := Nat.exists_eq_add_of_le' (Nat.le_of_add_left_le hk)
    refine dopath_dir hs h0 hstat hdir fun hfit t ht => ?_
    obtain ⟨s', hheld, hcalls, -, hread⟩ := enter_slash fs func (dopath fs func k) statbuf ht h0 hfit
    rw [hread names hopen, readdirLoop_filter, hnames, ← hcalls]
    exact hloop k (by omega) s' hheld.begins

theorem readdirLoop_walk (entries : Entries σ) {path : Path} (h0 : (0 : Byte) ∉ path)
    (hshows : ShowsEntries fs path entries) (hnames : ∀ name ∈ entries.names, isEntry name = true) :
    ∃ depth, ∀ k ≥ depth, ∀ s, Begins len (path ++ [slash]) s →
      Result func len path (preorderEntries path entries) s.calls
        (readdirLoop (dopath fs func k) (path.length + 1) entries.names s) := by
  cases entries with
  | nil =>
    refine ⟨0, fun k _ s hs => ⟨s.erase (path.length + 1), ?_, ?_, hs.erase⟩⟩
    · rfl
    · rfl
  | cons name tree rest =>
    rw [ShowsEntries] at hshows
    obtain ⟨hname, htree, hrest⟩ := hshows
    rw [Entries.names, List.forall_mem_cons] at hnames
    have hpath : (0 : Byte) ∉ path ++ slash :: name := by simp [h0, hname, slash]
    obtain ⟨d, hd⟩ := dopath_walk tree hpath htree
    obtain ⟨e, he⟩ := readdirLoop_walk rest h0 hrest hnames.2
    refine ⟨max d e, fun k hk s hs => ?_⟩
    exact readdirLoop_cons hnames.1 (hd k (by omega)) (fun h => walk_preorder_overrun h)
      (he k (by omega)) hs
end

end Trees

/-! ## Pre-order -/

section Preorder

variable {fs : FileSystem σ} {func : Func σ} {len : ℕ}

theorem cut_cons_zero {c : Call σ} {cs log : List (Call σ)} :
    (cut func (c :: cs) log).1 = 0 ↔ func log c = 0 ∧ (cut func cs (log ++ [c])).1 = 0 := by
  by_cases hret : func log c = 0 <;> simp [cut, hret]

theorem roomForSlash_cons {c : Call σ} {cs log : List (Call σ)} :
    RoomForSlash func len (c :: cs) log ↔
      func log c = 0 →
        (c.type = .d → c.path.length + 1 < len) ∧ RoomForSlash func len cs (log ++ [c]) := by
  constructor
  · intro h hret
    constructor
    · intro hd
      exact h [] c cs rfl hd (cut_cons_zero.mpr ⟨hret, rfl⟩)
    · intro before e after hcs hd hcut
      exact h (c :: before) e after (by rw [hcs, List.cons_append]) hd
        (cut_cons_zero.mpr ⟨hret, hcut⟩)
  · intro h before e after hcs hd hcut
    cases before with
    | nil =>
      obtain ⟨rfl, rfl⟩ : c = e ∧ cs = after := by simpa using hcs
      exact (h (cut_cons_zero.mp hcut).1).1 hd
    | cons b before =>
      obtain ⟨rfl, rfl⟩ : c = b ∧ cs = before ++ e :: after := by simpa using hcs
      obtain ⟨hret, htail⟩ := cut_cons_zero.mp hcut
      exact (h hret).2 before e after rfl hd htail

/-- With room for every pathname, only the slashes decide how the walk ends. -/
theorem walk_eq_cut (func : Func σ) (log : List (Call σ)) {cs : List (Call σ)}
    (hfits : ∀ c ∈ cs, c.type ≠ .dnr → c.path.length < len) :
    (RoomForSlash func len cs log →
      walk func len cs log = (.returned (cut func cs log).1, (cut func cs log).2)) ∧
    (¬ RoomForSlash func len cs log → (walk func len cs log).1 = .overrun) := by
  induction cs generalizing log with
  | nil =>
    refine ⟨fun _ => rfl, fun h => absurd ?_ h⟩
    intro before c after hcs
    simp at hcs
  | cons c cs ih =>
    rw [List.forall_mem_cons] at hfits
    have hpath : ¬ (c.type ≠ .dnr ∧ len ≤ c.path.length) := by
      rintro ⟨hdnr, hlong⟩
      exact Nat.not_lt.mpr hlong (hfits.1 hdnr)
    obtain ⟨hcut, hover⟩ := ih (log ++ [c]) hfits.2
    rw [roomForSlash_cons]
    simp only [walk, if_neg hpath, cut]
    by_cases hret : func log c = 0
    · simp only [hret, ne_eq, not_true, if_false, true_imp_iff]
      by_cases hslash : c.type = .d ∧ len ≤ c.path.length + 1
      · refine ⟨fun h => ?_, fun _ => by simp only [hslash, and_self, if_true]⟩
        exact absurd (h.1 hslash.1) (Nat.not_lt.mpr hslash.2)
      · rw [if_neg hslash]
        refine ⟨fun h => hcut h.2, fun h => hover fun hroom => h ⟨fun hd => ?_, hroom⟩⟩
        by_contra hlong
        exact hslash ⟨hd, Nat.not_lt.mp hlong⟩
    · simp [hret]

theorem startBuffer_holds {pathname : Path} (h : pathname.length < len) :
    Holds len pathname (⟨startBuffer len pathname, []⟩ : State σ) := by
  obtain ⟨n, hn⟩ : ∃ n, len - pathname.length = n + 1 :=
    Nat.exists_eq_succ_of_ne_zero (by omega)
  have hlast : len - 1 = pathname.length + n := by omega
  have hbuf : startBuffer len pathname = pathname ++ List.replicate (n + 1) 0 := by
    rw [startBuffer, List.take_of_length_le h.le, hn, hlast,
      List.set_append_right _ _ (Nat.le_add_right _ _), Nat.add_sub_cancel_left,
      List.set_replicate_self]
  constructor
  · simp only [hbuf, List.length_append, List.length_replicate]
    omega
  · exact ⟨List.replicate n 0, by rw [hbuf, List.replicate_succ]⟩

theorem exists_call_root (path : Path) (tree : Tree σ) :
    ∃ c ∈ preorder path tree, c.path = path ∧ c.type ≠ .dnr := by
  cases tree <;> simp [preorder]

/-- The walk of a tree from a pathname that fits into the buffer. -/
theorem myftw_walk (func : Func σ) {pathname : Path} {tree : Tree σ} (h0 : (0 : Byte) ∉ pathname)
    (hshows : Shows fs pathname tree) (hstart : pathname.length < len) :
    ∃ depth, ∀ k ≥ depth, ∃ s,
      myftw fs func len pathname k = some ((walk func len (preorder pathname tree) []).1, s) ∧
        s.calls = (walk func len (preorder pathname tree) []).2 := by
  obtain ⟨depth, hwalk⟩ := dopath_walk func len tree h0 hshows
  refine ⟨depth, fun k hk => ?_⟩
  obtain ⟨s, hrun, hcalls, -⟩ := (hwalk k hk _ (startBuffer_holds hstart)).run
  exact ⟨s, hrun, hcalls⟩

theorem not_walksPreorder {pathname : Path} {tree : Tree σ} (h0 : (0 : Byte) ∉ pathname)
    (hshows : Shows fs pathname tree) (hstart : pathname.length < len)
    (hover : (walk func len (preorder pathname tree) []).1 = .overrun) :
    ¬ WalksPreorder fs func len pathname tree := by
  rintro ⟨d, hd⟩
  obtain ⟨depth, hwalk⟩ := myftw_walk func h0 hshows hstart
  obtain ⟨s, hrun, -⟩ := hd (max d depth) (by omega)
  obtain ⟨s', hrun', -⟩ := hwalk (max d depth) (by omega)
  rw [hrun', hover] at hrun
  simp at hrun

/-- With room for every pathname, the walk is in pre-order exactly when every directory that it
enters leaves a byte for the slash. -/
theorem walksPreorder_iff {pathname : Path} {tree : Tree σ} (h0 : (0 : Byte) ∉ pathname)
    (hshows : Shows fs pathname tree)
    (hfits : ∀ c ∈ preorder pathname tree, c.type ≠ .dnr → c.path.length < len) :
    WalksPreorder fs func len pathname tree ↔
      RoomForSlash func len (preorder pathname tree) [] := by
  obtain ⟨c, hc, hpath, hdnr⟩ := exists_call_root pathname tree
  have hstart : pathname.length < len := hpath ▸ hfits c hc hdnr
  obtain ⟨hcut, hover⟩ := walk_eq_cut func [] hfits
  constructor
  · intro hexact
    by_contra hroom
    exact not_walksPreorder h0 hshows hstart (hover hroom) hexact
  · intro hroom
    obtain ⟨depth, hwalk⟩ := myftw_walk func h0 hshows hstart
    rw [hcut hroom] at hwalk
    exact ⟨depth, hwalk⟩

def pairSystem : FileSystem Bool where
  lstat path := if path = [97] then some true else if path = [97, 47, 98] then some false else none
  isDir statbuf := statbuf
  opendir path := if path = [97, 47] then some [dot, [98], dotDot] else none

def pairTree : Tree Bool := .dir true (.cons [98] (.file false) .nil)

theorem walksPreorder_iff_pair :
    WalksPreorder pairSystem (fun _ _ => 0) 4096 [97] pairTree := by
  have hshows : Shows pairSystem [97] pairTree :=
    ⟨rfl, rfl, ⟨[dot, [98], dotDot], rfl, by decide⟩, by decide, ⟨rfl, rfl⟩, trivial⟩
  refine (walksPreorder_iff (by decide) hshows (by decide)).mpr ?_
  intro before c after hcs hd _
  have hmem : c ∈ preorder [97] pairTree := hcs ▸ List.mem_append_right before (List.mem_cons_self ..)
  have hlen : ∀ e ∈ preorder [97] pairTree, e.path.length + 1 < 4096 := by decide
  exact hlen c hmem

/-- `n + 1` directories inside each other, with names of one letter. -/
def deepPath : ℕ → Path
  | 0 => [97]
  | n + 1 => 97 :: slash :: deepPath n

theorem deepPath_text (n : ℕ) : (deepPath n).length = 2 * n + 1 ∧ (0 : Byte) ∉ deepPath n := by
  induction n with
  | zero => simp [deepPath]
  | succ n ih =>
    obtain ⟨hlen, hzero⟩ := ih
    simp only [deepPath, List.length_cons, hlen, List.mem_cons, hzero, slash, or_false]
    refine ⟨by omega, by decide⟩

def deepSystem (n : ℕ) : FileSystem Unit where
  lstat path := if path = deepPath n then some () else none
  isDir _ := true
  opendir _ := some [dot, dotDot]

theorem deepSystem_shows (n : ℕ) : Shows (deepSystem n) (deepPath n) (.dir () .nil) :=
  ⟨if_pos rfl, rfl, ⟨[dot, dotDot], rfl, by decide⟩, trivial⟩

/-- The pathname fills the buffer, and the NUL behind the slash is written outside it. -/
theorem deepSystem_overrun {n len : ℕ} (h : len = 2 * n + 2) :
    ¬ WalksPreorder (deepSystem n) (fun _ _ => 0) len (deepPath n) (.dir () .nil) := by
  obtain ⟨hlen, hzero⟩ := deepPath_text n
  have hstart : (deepPath n).length < len := by omega
  have hover : len ≤ (deepPath n).length + 1 := by omega
  refine not_walksPreorder hzero (deepSystem_shows n) hstart ?_
  rw [preorder, walk_dir hstart, if_pos hover]
  rfl

theorem slash_behind_buffer :
    Shows (deepSystem 2047) (deepPath 2047) (.dir () .nil) ∧
      (∀ c ∈ preorder (deepPath 2047) (.dir () .nil : Tree Unit), c.path.length < 4096) ∧
      ¬ WalksPreorder (deepSystem 2047) (fun _ _ => 0) 4096 (deepPath 2047) (.dir () .nil) := by
  refine ⟨deepSystem_shows 2047, ?_, deepSystem_overrun rfl⟩
  intro c hc
  rw [preorder, preorderEntries, List.mem_singleton] at hc
  rw [hc, (deepPath_text 2047).1]
  decide

end Preorder

end Ftw
