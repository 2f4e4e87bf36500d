import LinuxProgramming.CStrings
import LinuxProgramming.SeparatedText

/-! # The search of `execlp`

The argument vector is built from a list of unknown length in an array that grows by 100 cells; the
file is then looked for in the directories of `PATH`. Allocations succeed. `execve` is asked with the
number of calls made before and may answer differently each time. -/
namespace Execlp

open CStrings SeparatedText

abbrev Str := List Byte

def colon : Byte := 58
def slash : Byte := 47
def enoexec : ℕ := 8
def eacces : ℕ := 13

/-- An element of an array of pointers. -/
inductive Cell where
  | unset
  | null
  | str (s : Str)
  deriving DecidableEq, Repr

/-- A call of `execve`. -/
structure Attempt where
  pathname : Str
  argv : List Cell
  envp : List Str
  deriving DecidableEq, Repr

/-- `execve` gives the error number, or does not return. -/
structure System where
  environ : List Str
  execve : ℕ → Attempt → Option ℕ

/-- How a call of `execlp` ends: the process image is replaced, or -1 is returned, or an array is
left. -/
inductive Ending where
  | replaced
  | failed (errno : ℕ)
  | overrun
  deriving DecidableEq, Repr

/-! ## The argument vector -/

def Cell.of : Option Str → Cell
  | none => .null
  | some s => .str s

/-- The loop over the argument list; `argc` counts the null pointer too. -/
def buildLoop (argv : List Cell) (argc : ℕ) (argList : List (Option Str)) :
    Option (List Cell × ℕ) :=
  if argv[argc - 1]? = some .null then some (argv, argc)
  else
    let argv := if argc + 1 ≥ argv.length then argv ++ List.replicate 100 .unset else argv
    match argList with
    | [] => none
    | arg :: argList =>
      if argc < argv.length then buildLoop (argv.set argc (.of arg)) (argc + 1) argList else none

/-- `args` are the arguments of the caller in front of the null pointer. -/
def buildArgv (args : List Str) : Option (List Cell × ℕ) :=
  buildLoop ((List.replicate 100 .null).set 0 (.of args.head?)) 1 (args.tail.map some ++ [none])

def vector : List Cell → Option (List Str)
  | .str s :: argv => (vector argv).map (s :: ·)
  | .null :: _ => some []
  | _ => none

/-! ## The search -/

def shellPath : Str := ascii "/bin/sh"

/-- `shArgv` has room for `argc + 1` pointers. -/
def shellArgv (argc : ℕ) (argv : List Cell) : Option (List Cell) :=
  (List.range (argc + 1)).foldlM
    (fun shArgv j => do
      let cell ← argv[j]?
      if j + 1 < shArgv.length then some (shArgv.set (j + 1) cell) else none)
    (.str shellPath :: List.replicate argc .unset)

/-- The calls made so far, when the shell could not be executed either. -/
def execShScript (sys : System) (argc : ℕ) (argv : List Cell) (tried : List Attempt) :
    Except (Ending × List Attempt) (List Attempt) :=
  match shellArgv argc argv with
  | none => .error (.overrun, tried)
  | some shArgv =>
    let attempt : Attempt := ⟨shellPath, shArgv, sys.environ⟩
    match sys.execve tried.length attempt with
    | none => .error (.replaced, tried ++ [attempt])
    | some _ => .ok (tried ++ [attempt])

/-- The pathname, if it fits the memory that is allocated for it. -/
def buildPathname (dir filename : Str) : Option Str :=
  let pathname := (if dir = [] then ascii "." else dir) ++ slash :: filename
  if pathname.length < max 1 dir.length + filename.length + 2 then some pathname else none

/-- The loop over the directories from `prStart` on. -/
def pathLoop (sys : System) (filename : Str) (argc : ℕ) (argv : List Cell) (prStart : Str)
    (fndEACCES : Bool) (tried : List Attempt) : Ending × List Attempt :=
  let prEnd := (strchr colon prStart).getD prStart.length
  match buildPathname (prStart.take prEnd) filename with
  | none => (.overrun, tried)
  | some pathname =>
    let attempt : Attempt := ⟨pathname, argv, sys.environ⟩
    match sys.execve tried.length attempt with
    | none => (.replaced, tried ++ [attempt])
    | some savedErrno =>
      let fndEACCES := fndEACCES || savedErrno = eacces
      match if savedErrno = enoexec then execShScript sys argc argv (tried ++ [attempt])
        else .ok (tried ++ [attempt]) with
      | .error ending => ending
      | .ok tried =>
        if h : prEnd < prStart.length then
          pathLoop sys filename argc argv (prStart.drop (prEnd + 1)) fndEACCES tried
        else (.failed (if fndEACCES then eacces else savedErrno), tried)
termination_by prStart.length
decreasing_by
  rw [List.length_drop]
  omega

def execFile (sys : System) (filename : Str) (argc : ℕ) (argv : List Cell) : Ending × List Attempt :=
  let attempt : Attempt := ⟨filename, argv, sys.environ⟩
  match sys.execve 0 attempt with
  | none => (.replaced, [attempt])
  | some savedErrno =>
    match if savedErrno = enoexec then execShScript sys argc argv [attempt] else .ok [attempt] with
    | .error ending => ending
    | .ok tried => (.failed savedErrno, tried)

/-- An undefined or empty `PATH` is the current directory. -/
def searchPath (path : Option Str) : Str :=
  match path with
  | none => ascii "."
  | some p => if p.length = 0 then ascii "." else p

def execlp (sys : System) (filename : Str) (args : List Str) (path : Option Str) :
    Ending × List Attempt :=
  match buildArgv args with
  | none => (.overrun, [])
  | some (argv, argc) =>
    if (strchr slash filename).isSome then execFile sys filename argc argv
    else pathLoop sys filename argc argv (searchPath path) false []

/-! ## The vector holds the caller's list -/

theorem vector_append_null (args : List Str) (cells : List Cell) :
    vector (args.map .str ++ .null :: cells) = some args := by
  induction args with
  | nil => rfl
  | cons s args ih => rw [List.map_cons, List.cons_append, vector, ih, Option.map_some]

theorem getElem?_last_ne_null {done : List Str} (hne : done ≠ []) (cells : List Cell) :
    (done.map Cell.str ++ cells)[done.length - 1]? ≠ some .null := by
  have hlt : done.length - 1 < done.length := by
    have := List.length_pos_iff.mpr hne
    omega
  rw [List.getElem?_append_left (by simpa using hlt), List.getElem?_map, List.getElem?_eq_getElem hlt]
  simp

/-- Behind the check of the size there is a cell more than is needed. -/
theorem grown_eq (done : List Str) (cell : Cell) (cells : List Cell) :
    ∃ cell' cells', (if done.length + 1 ≥ (done.map Cell.str ++ cell :: cells).length
        then done.map Cell.str ++ cell :: cells ++ List.replicate 100 .unset
        else done.map Cell.str ++ cell :: cells) = done.map Cell.str ++ cell :: cell' :: cells' := by
  split
  · rename_i hfull
    have hnil : cells = [] := by
      rw [List.length_append, List.length_map, List.length_cons] at hfull
      exact List.length_eq_zero_iff.mp (by omega)
    subst hnil
    exact ⟨.unset, List.replicate 99 .unset, by simp [List.replicate_succ]⟩
  · rename_i hroom
    cases cells with
    | nil => simp at hroom
    | cons cell' cells => exact ⟨cell', cells, rfl⟩

theorem buildLoop_spec (rest done : List Str) (hne : done ≠ []) (cell : Cell) (cells : List Cell) :
    ∃ cells', buildLoop (done.map .str ++ cell :: cells) done.length (rest.map some ++ [none]) =
      some ((done ++ rest).map .str ++ .null :: cells', (done ++ rest).length + 1) := by
  induction rest generalizing done cell cells with
  | nil =>
    obtain ⟨cell', cells', hgrown⟩ := grown_eq done cell cells
    have hset := set_append_cons (done.map Cell.str) cell .null (cell' :: cells')
    rw [List.length_map] at hset
    refine ⟨cell' :: cells', ?_⟩
    rw [buildLoop.eq_def, if_neg (getElem?_last_ne_null hne _)]
    simp only [hgrown, List.map_nil, List.nil_append, Cell.of, hset]
    rw [if_pos (by simp), buildLoop.eq_def, if_pos (by simp)]
    simp
  | cons a rest ih =>
    obtain ⟨cell', cells', hgrown⟩ := grown_eq done cell cells
    have hset := set_append_cons (done.map Cell.str) cell (.str a) (cell' :: cells')
    rw [List.length_map] at hset
    obtain ⟨cells'', hloop⟩ := ih (done ++ [a]) (by simp) cell' cells'
    refine ⟨cells'', ?_⟩
    rw [buildLoop.eq_def, if_neg (getElem?_last_ne_null hne _)]
    simp only [hgrown, List.map_cons, List.cons_append, Cell.of, hset]
    rw [if_pos (by simp)]
    simpa using hloop

theorem buildArgv_spec (args : List Str) :
    ∃ argv, buildArgv args = some (argv, args.length + 1) ∧ vector argv = some args := by
  cases args with
  | nil => exact ⟨List.replicate 100 .null, rfl, rfl⟩
  | cons a args =>
    obtain ⟨cells, hloop⟩ := buildLoop_spec args [a] (by simp) .null (List.replicate 98 .null)
    refine ⟨_, hloop, vector_append_null _ _⟩

/-! ## The directories of `PATH` -/

def prefixes (path : Option Str) : List Str :=
  ((searchPath path).splitOn colon).map fun dir => if dir = [] then ascii "." else dir

def candidates (path : Option Str) (filename : Str) : List Str :=
  (prefixes path).map fun dir => dir ++ slash :: filename

/-- The answers of `execve` to one candidate after the other, when `n` calls have been made. -/
def outcomes (sys : System) (argv : List Cell) : ℕ → List Str → List (Option ℕ)
  | _, [] => []
  | n, name :: names => sys.execve n ⟨name, argv, sys.environ⟩ :: outcomes sys argv (n + 1) names

def attempts (sys : System) (argv : List Cell) (names : List Str) : List Attempt :=
  names.map fun name => ⟨name, argv, sys.environ⟩

def searchFrom (sys : System) (argv : List Cell) :
    List Str → Bool → ℕ → List Attempt → Ending × List Attempt
  | [], fndEACCES, savedErrno, tried => (.failed (if fndEACCES then eacces else savedErrno), tried)
  | name :: names, fndEACCES, _, tried =>
    match sys.execve tried.length ⟨name, argv, sys.environ⟩ with
    | none => (.replaced, tried ++ [⟨name, argv, sys.environ⟩])
    | some e => searchFrom sys argv names (fndEACCES || e = eacces) e (tried ++ [⟨name, argv, sys.environ⟩])

section Search

variable {sys : System} {filename : Str} {argc : ℕ} {argv : List Cell}

theorem buildPathname_eq (dir filename : Str) :
    buildPathname dir filename = some ((if dir = [] then ascii "." else dir) ++ slash :: filename) := by
  rw [buildPathname]
  refine if_pos ?_
  by_cases hdir : dir = []
  · subst hdir
    have hdot : (ascii ".").length = 1 := by decide +kernel
    simp [hdot]
    omega
  · have hpos := List.length_pos_iff.mpr hdir
    rw [if_neg hdir, List.length_append, List.length_cons]
    omega

/-- One round of the loop, for a directory that ends at `prEnd`. -/
theorem pathLoop_step (argc : ℕ) (argv : List Cell) (hnoexec : ∀ n a, sys.execve n a ≠ some enoexec)
    {prStart dir : Str} {prEnd : ℕ} (hend : (strchr colon prStart).getD prStart.length = prEnd) (hdir : prStart.take prEnd = dir)
    {name : Str} (hname : (if dir = [] then ascii "." else dir) ++ slash :: filename = name)
    (fndEACCES : Bool) (tried : List Attempt) :
    (sys.execve tried.length ⟨name, argv, sys.environ⟩ = none ∧
      pathLoop sys filename argc argv prStart fndEACCES tried =
        (.replaced, tried ++ [⟨name, argv, sys.environ⟩])) ∨
    ∃ e, sys.execve tried.length ⟨name, argv, sys.environ⟩ = some e ∧
      pathLoop sys filename argc argv prStart fndEACCES tried =
        if prEnd < prStart.length then
          pathLoop sys filename argc argv (prStart.drop (prEnd + 1)) (fndEACCES || e = eacces)
            (tried ++ [⟨name, argv, sys.environ⟩])
        else (.failed (if fndEACCES || e = eacces then eacces else e),
          tried ++ [⟨name, argv, sys.environ⟩]) := by
  subst hend hdir hname
  rw [pathLoop, buildPathname_eq]
  simp only
  cases hexec : sys.execve tried.length _ with
  | none => exact .inl ⟨rfl, rfl⟩
  | some e =>
    have hne : e ≠ enoexec := by
      rintro rfl
      exact hnoexec _ _ hexec
    refine .inr ⟨e, rfl, ?_⟩
    simp only [if_neg hne]
    rfl

theorem pathLoop_eq (hnoexec : ∀ n a, sys.execve n a ≠ some enoexec) {prStart : Str}
    (h0 : (0 : Byte) ∉ prStart) (fndEACCES : Bool) (savedErrno : ℕ) (tried : List Attempt) :
    pathLoop sys filename argc argv prStart fndEACCES tried =
      searchFrom sys argv ((prStart.splitOn colon).map fun dir =>
        (if dir = [] then ascii "." else dir) ++ slash :: filename) fndEACCES savedErrno tried := by
  induction prStart using separated_induction colon generalizing fndEACCES savedErrno tried with
  | last s hs =>
    have hend : (strchr colon s).getD s.length = s.length := by rw [strchr_eq_none hs, Option.getD_none]
    rw [List.splitOn_eq_singleton hs, List.map_singleton, searchFrom]
    obtain ⟨hexec, hloop⟩ | ⟨e, hexec, hloop⟩ :=
      pathLoop_step argc argv hnoexec hend s.take_length rfl fndEACCES tried
    · rw [hloop, hexec]
    · rw [hloop, hexec, if_neg (lt_irrefl _)]
      rfl
  | more s t hs ih =>
    simp only [List.mem_append, List.mem_cons, not_or] at h0
    have hend : (strchr colon (s ++ colon :: t)).getD (s ++ colon :: t).length = s.length := by
      rw [strchr_append hs h0.1, Option.getD_some]
    have hlt : s.length < (s ++ colon :: t).length := by simp
    rw [List.splitOn_append_cons_self_of_not_mem hs, List.map_cons, searchFrom]
    obtain ⟨hexec, hloop⟩ | ⟨e, hexec, hloop⟩ :=
      pathLoop_step argc argv hnoexec hend List.take_left rfl fndEACCES tried
    · rw [hloop, hexec]
    · rw [hloop, hexec, if_pos hlt, drop_append_cons, ih h0.2.2 _ e]

/-- How a search ends, and the calls that it makes. -/
inductive Searched (sys : System) (argv : List Cell) (names : List Str) : Ending × List Attempt → Prop
  | found {i : ℕ} (before : ∀ o ∈ (outcomes sys argv 0 names).take i, o ≠ none)
    (success : (outcomes sys argv 0 names)[i]? = some none) :
    Searched sys argv names (.replaced, attempts sys argv (names.take (i + 1)))
  | failed {e : ℕ} (all : ∀ o ∈ outcomes sys argv 0 names, o ≠ none)
    (errno : if some eacces ∈ outcomes sys argv 0 names then e = eacces
      else (outcomes sys argv 0 names).getLast? = some (some e)) :
    Searched sys argv names (.failed e, attempts sys argv names)

/-- The error that is left at the end, when none of the answers is a success. -/
theorem getLast_cons (e savedErrno : ℕ) {outs : List (Option ℕ)} (hall : ∀ o ∈ outs, o ≠ none) :
    (some e :: outs).getLast?.join.getD savedErrno = outs.getLast?.join.getD e := by
  rw [List.getLast?_cons]
  cases hlast : outs.getLast? with
  | none => rfl
  | some o =>
    obtain ⟨e', rfl⟩ := Option.ne_none_iff_exists'.mp (hall o (List.mem_of_getLast? hlast))
    rfl

/-- A search from any point on: it succeeds with one of the names, or all of them fail. -/
theorem searchFrom_spec (sys : System) (argv : List Cell) (names : List Str) (fndEACCES : Bool) (savedErrno : ℕ) (tried : List Attempt) :
    (∃ i, (∀ o ∈ (outcomes sys argv tried.length names).take i, o ≠ none) ∧
      (outcomes sys argv tried.length names)[i]? = some none ∧
      searchFrom sys argv names fndEACCES savedErrno tried =
        (.replaced, tried ++ attempts sys argv (names.take (i + 1)))) ∨
    ((∀ o ∈ outcomes sys argv tried.length names, o ≠ none) ∧
      searchFrom sys argv names fndEACCES savedErrno tried =
        (.failed (if fndEACCES || some eacces ∈ outcomes sys argv tried.length names then eacces
            else (outcomes sys argv tried.length names).getLast?.join.getD savedErrno),
          tried ++ attempts sys argv names)) := by
  induction names generalizing fndEACCES savedErrno tried with
  | nil =>
    refine .inr ⟨fun o ho => (by cases ho), ?_⟩
    simp [searchFrom, outcomes, attempts]
  | cons name names ih =>
    rw [outcomes, searchFrom]
    cases hexec : sys.execve tried.length ⟨name, argv, sys.environ⟩ with
    | none =>
      refine .inl ⟨0, fun o ho => (by cases ho), rfl, ?_⟩
      simp [attempts]
    | some e =>
      have hrest := ih (fndEACCES || e = eacces) e (tried ++ [⟨name, argv, sys.environ⟩])
      rw [List.length_append, List.length_singleton] at hrest
      obtain ⟨i, hbefore, hsuccess, heq⟩ | ⟨hall, heq⟩ := hrest
      · refine .inl ⟨i + 1, ?_, hsuccess, ?_⟩
        · rw [List.take_succ_cons, List.forall_mem_cons]
          exact ⟨Option.some_ne_none e, hbefore⟩
        · simp only [heq, List.append_assoc]
          rfl
      · refine .inr ⟨List.forall_mem_cons.mpr ⟨Option.some_ne_none e, hall⟩, ?_⟩
        have hmem : decide (some eacces ∈ some e :: outcomes sys argv (tried.length + 1) names) =
            (decide (e = eacces) || decide (some eacces ∈ outcomes sys argv (tried.length + 1) names)) := by
          simp [eq_comm]
        simp only [heq, getLast_cons e savedErrno hall, hmem, Bool.or_assoc, List.append_assoc]
        rfl

theorem outcomes_ne_nil {names : List Str} (h : names ≠ []) (n : ℕ) : outcomes sys argv n names ≠ [] := by
  obtain ⟨name, names, rfl⟩ := List.exists_cons_of_ne_nil h
  exact List.cons_ne_nil _ _

end Search

/-- `execlp` tries the candidates in order, stops at the first that can be executed, and otherwise
reports `EACCES` if it occurred and else the error of the last one. Each program gets the caller's
list. -/
theorem execlp_searches (sys : System) {filename : Str} (hslash : slash ∉ filename) (args : List Str)
    {path : Option Str} (hpath : ∀ p ∈ path, (0 : Byte) ∉ p)
    (hnoexec : ∀ n a, sys.execve n a ≠ some enoexec) :
    ∃ argv, vector argv = some args ∧
      Searched sys argv (candidates path filename) (execlp sys filename args path) := by
  obtain ⟨argv, hbuild, hvector⟩ := buildArgv_spec args
  refine ⟨argv, hvector, ?_⟩
  have h0 : (0 : Byte) ∉ searchPath path := by
    have hdot : (0 : Byte) ∉ ascii "." := by decide +kernel
    unfold searchPath
    split
    · exact hdot
    · split
      · exact hdot
      · exact hpath _ rfl
  have hnames : candidates path filename ≠ [] := by
    simp [candidates, prefixes]
  have hrun : execlp sys filename args path =
      searchFrom sys argv (candidates path filename) false 0 [] := by
    rw [execlp, hbuild]
    simp only [strchr_eq_none hslash, Option.isSome_none, Bool.false_eq_true, if_false]
    rw [pathLoop_eq hnoexec h0 false 0, candidates, prefixes, List.map_map]
    rfl
  rw [hrun]
  obtain ⟨i, hbefore, hsuccess, heq⟩ | ⟨hall, heq⟩ :=
    searchFrom_spec sys argv (candidates path filename) false 0 []
  · rw [heq]
    exact .found hbefore hsuccess
  · rw [heq]
    refine .failed hall ?_
    by_cases hmem : some eacces ∈ outcomes sys argv 0 (candidates path filename)
    · simp [hmem]
    · simp only [List.length_nil, hmem, decide_false, Bool.or_false, Bool.false_eq_true, if_false]
      cases hlast : (outcomes sys argv 0 (candidates path filename)).getLast? with
      | none =>
        rw [List.getLast?_eq_none_iff] at hlast
        exact absurd hlast (outcomes_ne_nil hnames 0)
      | some o =>
        obtain ⟨e, rfl⟩ := Option.ne_none_iff_exists'.mp (hall o (List.mem_of_getLast? hlast))
        rfl

/-- The second of three directories, the current one, has the file. -/
theorem execlp_searches_ls :
    let sys : System := ⟨[], fun n _ => if n = 1 then none else some 2⟩
    let path := some (ascii "/usr/bin::/bin")
    candidates path (ascii "ls") = [ascii "/usr/bin/ls", ascii "./ls", ascii "/bin/ls"] ∧
      ∃ argv, vector argv = some [ascii "ls", ascii "-l"] ∧
        Searched sys argv (candidates path (ascii "ls"))
          (execlp sys (ascii "ls") [ascii "ls", ascii "-l"] path) := by
  intro sys path
  refine ⟨by decide +kernel, execlp_searches sys (by decide +kernel) _ ?_ ?_⟩
  · intro p hp
    obtain rfl := Option.some.inj hp
    decide +kernel
  · intro n a
    change (if n = 1 then none else some 2) ≠ some enoexec
    split <;> decide

end Execlp
