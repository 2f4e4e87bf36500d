import LinuxProgramming.CStrings
import LinuxProgramming.SeparatedText

/-! # Arguments out of a buffer

`buf_args` lets `strtok` write a NUL behind each token and collects the pointers. A pointer is a
distance from the start of the buffer; what `optfunc` finds there is read when it is called. -/
namespace BufArgs

open CStrings SeparatedText

def maxArgc : ℕ := 50

/-- `WHITE`. -/
def white (b : Byte) : Bool := b = 32 || b = 9 || b = 10

def strspn (s : List Byte) : ℕ := (s.takeWhile white).length
def strcspn (s : List Byte) : ℕ := (s.takeWhile fun b => b ≠ 0 && !white b).length

/-- `strtok` from `save` on: the token, the buffer and where the next call starts. -/
def strtok (buf : List Byte) (save : ℕ) : Option ℕ × List Byte × ℕ :=
  let token := save + strspn (buf.drop save)
  if (buf.drop token).headD 0 = 0 then (none, buf, token)
  else
    let stop := token + strcspn (buf.drop token)
    if (buf.drop stop).headD 0 = 0 then (some token, buf, stop)
    else (some token, buf.set stop 0, stop + 1)

/-- The loop; `room` more pointers leave a place for the last one. -/
def collect (room : ℕ) (buf : List Byte) (save : ℕ) : Option (List ℕ × List Byte) :=
  match strtok buf save with
  | (none, buf, _) => some ([], buf)
  | (some ptr, buf, save) =>
    match room with
    | 0 => none
    | room + 1 => (collect room buf save).map fun r => (ptr :: r.1, r.2)

/-- A call of `optfunc`: `argv` ends with the null pointer. -/
structure Call where
  argc : ℕ
  argv : List (Option ℕ)
  buf : List Byte
  deriving DecidableEq, Repr

def Call.strings (c : Call) : List (Option (List Byte)) :=
  c.argv.map fun ptr => ptr.map fun ptr => cstr (c.buf.drop ptr)

/-- The call of `optfunc`, or else -1 is returned. -/
def bufArgs (buf : List Byte) : Option Call :=
  match strtok buf 0 with
  | (none, _, _) => none
  | (some _, buf, save) =>
    -- the result of the first call is not used
    (collect (maxArgc - 2) buf save).map fun r =>
      ⟨r.1.length + 1, some 0 :: r.1.map some ++ [none], r.2⟩

/-! ## One token -/

variable {pre w run rest post s : List Byte} {d : Byte}

/-- A buffer in which the string `s` starts at `pre.length`. -/
def holding (pre s post : List Byte) : List Byte := pre ++ (s ++ 0 :: post)

/-- A token: no white space and no NUL. -/
structure Token (run : List Byte) : Prop where
  ne_nil : run ≠ []
  clean : ∀ b ∈ run, b ≠ 0 ∧ white b = false

theorem strspn_append (hw : ∀ b ∈ w, white b = true) (hrest : ∀ b ∈ rest.head?, white b = false) :
    strspn (w ++ rest) = w.length := by
  rw [strspn, List.takeWhile_append_of_pos hw]
  cases rest with
  | nil => rw [List.takeWhile_nil, List.append_nil]
  | cons b rest => simp [hrest b rfl]

theorem strcspn_append (hrun : Token run) (hrest : ∀ b ∈ rest.head?, b = 0 ∨ white b = true) :
    strcspn (run ++ rest) = run.length := by
  have hall : ∀ b ∈ run, (decide (b ≠ 0) && !white b) = true := by
    intro b hb
    simp [hrun.clean b hb]
  rw [strcspn, List.takeWhile_append_of_pos hall]
  cases rest with
  | nil => rw [List.takeWhile_nil, List.append_nil]
  | cons b rest =>
    rcases hrest b rfl with rfl | hwhite
    · simp
    · simp [hwhite]

theorem drop_holding (pre w s post : List Byte) :
    (holding pre (w ++ s) post).drop (pre.length + w.length) = s ++ 0 :: post := by
  rw [holding, List.append_assoc, ← List.append_assoc, ← List.length_append, List.drop_left]

theorem strspn_holding (pre post : List Byte) (hw : ∀ b ∈ w, white b = true)
    (hs : ∀ b ∈ (s ++ 0 :: post).head?, white b = false) :
    strspn ((holding pre (w ++ s) post).drop pre.length) = w.length := by
  rw [holding, List.drop_left, List.append_assoc]
  exact strspn_append hw hs

theorem strtok_blank (hw : ∀ b ∈ w, white b = true) :
    strtok (holding pre w post) pre.length = (none, holding pre w post, pre.length + w.length) := by
  have hspan : strspn ((holding pre (w ++ []) post).drop pre.length) = w.length :=
    strspn_holding pre post hw fun b hb => by
      obtain rfl := Option.some.inj hb
      rfl
  have hdrop := drop_holding pre w [] post
  rw [List.append_nil] at hspan hdrop
  simp only [strtok, hspan, hdrop]
  rfl

theorem Token.head (h : Token run) (s : List Byte) :
    (run ++ s).headD 0 ≠ 0 ∧ ∀ b ∈ (run ++ s).head?, white b = false := by
  obtain ⟨b, run, rfl⟩ := List.exists_cons_of_ne_nil h.ne_nil
  have hb := h.clean b List.mem_cons_self
  refine ⟨hb.1, ?_⟩
  rintro c hc
  obtain rfl := Option.some.inj hc
  exact hb.2

theorem strtok_last (hw : ∀ b ∈ w, white b = true) (hrun : Token run) :
    strtok (holding pre (w ++ run) post) pre.length =
      (some (pre.length + w.length), holding pre (w ++ run) post,
        pre.length + w.length + run.length) := by
  have hspan := strspn_holding pre post hw (hrun.head (0 :: post)).2
  have hdrop := drop_holding pre w run post
  have hstop := drop_holding pre (w ++ run) [] post
  rw [List.append_nil, List.length_append, ← Nat.add_assoc] at hstop
  have hcspan : strcspn (run ++ 0 :: post) = run.length := strcspn_append hrun fun b hb => by
    obtain rfl := Option.some.inj hb
    exact .inl rfl
  simp only [strtok, hspan, hdrop, if_neg (hrun.head (0 :: post)).1, hcspan, hstop]
  rfl

theorem strtok_more (hw : ∀ b ∈ w, white b = true) (hrun : Token run) (hd : white d = true) :
    strtok (holding pre (w ++ (run ++ d :: rest)) post) pre.length =
      (some (pre.length + w.length), holding (pre ++ (w ++ (run ++ [0]))) rest post,
        (pre ++ (w ++ (run ++ [0]))).length) := by
  have hd0 : d ≠ 0 := by
    rintro rfl
    cases hd
  have hhead := hrun.head (d :: rest ++ 0 :: post)
  rw [← List.append_assoc] at hhead
  have hspan := strspn_holding pre post hw hhead.2
  have hdrop := drop_holding pre w (run ++ d :: rest) post
  have hcspan : strcspn (run ++ d :: rest ++ 0 :: post) = run.length := by
    rw [List.append_assoc]
    refine strcspn_append hrun fun b hb => ?_
    obtain rfl := Option.some.inj hb
    exact .inr hd
  have hstop := drop_holding pre (w ++ run) (d :: rest) post
  rw [List.append_assoc, List.length_append, ← Nat.add_assoc] at hstop
  have hset : (holding pre (w ++ (run ++ d :: rest)) post).set (pre.length + w.length + run.length) 0 =
      holding (pre ++ (w ++ (run ++ [0]))) rest post := by
    have := set_append_cons (pre ++ (w ++ run)) d 0 (rest ++ 0 :: post)
    simp only [List.length_append, ← Nat.add_assoc] at this
    simpa [holding] using this
  have hlen : pre.length + w.length + run.length + 1 = (pre ++ (w ++ (run ++ [0]))).length := by
    simp only [List.length_append, List.length_singleton]
    omega
  simp only [strtok, hspan, hdrop, if_neg hhead.1, hcspan, hstop, List.cons_append, List.headD_cons,
    if_neg hd0, hset, hlen]

/-- A string is blank, ends with a token, or has white space behind its first token. -/
theorem token_cases (h0 : (0 : Byte) ∉ s) :
    (∀ b ∈ s, white b = true) ∨ (∃ w run, s = w ++ run ∧ (∀ b ∈ w, white b = true) ∧ Token run) ∨
      ∃ w run d rest, s = w ++ (run ++ d :: rest) ∧ (∀ b ∈ w, white b = true) ∧ Token run ∧
        white d = true := by
  have hw : ∀ b ∈ s.takeWhile white, white b = true := fun b hb => List.mem_takeWhile_imp hb
  have hs : s.takeWhile white ++ s.dropWhile white = s := List.takeWhile_append_dropWhile
  cases ht : s.dropWhile white with
  | nil => exact .inl (List.dropWhile_eq_nil_iff.mp ht)
  | cons c t =>
    have hc : white c = false := by
      have := List.head?_dropWhile_not white s
      rw [ht] at this
      simpa using this
    have hrun : Token ((c :: t).takeWhile fun b => !white b) := by
      constructor
      · simp [hc]
      · intro b hb
        refine ⟨?_, by simpa using List.mem_takeWhile_imp hb⟩
        rintro rfl
        refine h0 ?_
        rw [← hs, ht]
        exact List.mem_append_right _ ((List.takeWhile_sublist _).subset hb)
    have hsplit : (c :: t).takeWhile (fun b => !white b) ++ (c :: t).dropWhile (fun b => !white b) = c :: t :=
      List.takeWhile_append_dropWhile
    rw [ht, ← hsplit] at hs
    cases hrest : (c :: t).dropWhile fun b => !white b with
    | nil =>
      rw [hrest, List.append_nil] at hs
      exact .inr (.inl ⟨_, _, hs.symm, hw, hrun⟩)
    | cons d rest =>
      rw [hrest] at hs
      refine .inr (.inr ⟨_, _, d, rest, hs.symm, hw, hrun, ?_⟩)
      have := List.head?_dropWhile_not (fun b => !white b) (c :: t)
      rw [hrest] at this
      simpa using this

/-! ## The loop -/

theorem cstr_token (hrun : Token run) (pre w s : List Byte) (post : List Byte) :
    cstr ((holding pre (w ++ (run ++ 0 :: s)) post).drop (pre.length + w.length)) = run := by
  rw [drop_holding, List.append_assoc]
  exact cstr_append_nul (fun h => (hrun.clean 0 h).1 rfl) _

theorem runs_blank (hw : ∀ b ∈ w, white b = true) : runs white w = [] := by
  have := runs_append hw []
  rwa [List.append_nil] at this

theorem runs_last (hw : ∀ b ∈ w, white b = true) (hrun : Token run) :
    runs white (w ++ run) = [run] := by
  rw [runs_append hw, runs_run (fun b hb => (hrun.clean b hb).2) hrun.ne_nil]

theorem runs_more (hw : ∀ b ∈ w, white b = true) (hrun : Token run) (hd : white d = true) :
    runs white (w ++ (run ++ d :: rest)) = run :: runs white rest := by
  rw [runs_append hw, runs_run_append (fun b hb => (hrun.clean b hb).2) hrun.ne_nil hd]

theorem collect_blank (room : ℕ) (hw : ∀ b ∈ w, white b = true) :
    collect room (holding pre w post) pre.length = some ([], holding pre w post) := by
  rw [collect.eq_def, strtok_blank hw]

theorem collect_last (room : ℕ) (hw : ∀ b ∈ w, white b = true) (hrun : Token run) :
    collect (room + 1) (holding pre (w ++ run) post) pre.length =
      some ([pre.length + w.length], holding pre (w ++ run) post) := by
  have hnext : collect room (holding (pre ++ (w ++ run)) [] post) (pre ++ (w ++ run)).length = _ :=
    collect_blank room fun b hb => by cases hb
  have hsame : holding (pre ++ (w ++ run)) [] post = holding pre (w ++ run) post := by
    simp [holding]
  rw [hsame, List.length_append, List.length_append, ← Nat.add_assoc] at hnext
  rw [collect.eq_def, strtok_last hw hrun]
  simp only [hnext, Option.map_some]

theorem collect_more (room : ℕ) (hw : ∀ b ∈ w, white b = true) (hrun : Token run)
    (hd : white d = true) :
    collect (room + 1) (holding pre (w ++ (run ++ d :: rest)) post) pre.length =
      (collect room (holding (pre ++ (w ++ (run ++ [0]))) rest post)
        (pre ++ (w ++ (run ++ [0]))).length).map fun r => ((pre.length + w.length) :: r.1, r.2) := by
  rw [collect.eq_def, strtok_more hw hrun hd]

/-- The tokens stand at their pointers in the end, where the string has been cut. -/
theorem collect_eq_some (pre post : List Byte) (room : ℕ) (h0 : (0 : Byte) ∉ s)
    (hroom : (runs white s).length ≤ room) :
    ∃ ptrs s', collect room (holding pre s post) pre.length = some (ptrs, holding pre s' post) ∧
      s'.length = s.length ∧
      ptrs.map (fun ptr => cstr ((holding pre s' post).drop ptr)) = runs white s := by
  induction room generalizing s pre with
  | zero =>
    obtain hw | ⟨w, run, rfl, hw, hrun⟩ | ⟨w, run, d, rest, rfl, hw, hrun, hd⟩ := token_cases h0
    · exact ⟨[], s, collect_blank 0 hw, rfl, (runs_blank hw).symm⟩
    · rw [runs_last hw hrun] at hroom
      cases hroom
    · rw [runs_more hw hrun hd] at hroom
      cases hroom
  | succ room ih =>
    obtain hw | ⟨w, run, rfl, hw, hrun⟩ | ⟨w, run, d, rest, rfl, hw, hrun, hd⟩ := token_cases h0
    · exact ⟨[], s, collect_blank _ hw, rfl, (runs_blank hw).symm⟩
    · refine ⟨_, _, collect_last room hw hrun, rfl, ?_⟩
      rw [runs_last hw hrun, List.map_singleton, drop_holding,
        cstr_append_nul (fun h => (hrun.clean 0 h).1 rfl)]
    · rw [runs_more hw hrun hd] at hroom ⊢
      simp only [List.mem_append, List.mem_cons, not_or] at h0
      obtain ⟨ptrs, s', heq, hlen, hptrs⟩ :=
        ih (pre ++ (w ++ (run ++ [0]))) h0.2.2.2 (Nat.le_of_succ_le_succ hroom)
      have hbuf : holding (pre ++ (w ++ (run ++ [0]))) s' post =
          holding pre (w ++ (run ++ 0 :: s')) post := by
        simp [holding]
      rw [hbuf] at heq hptrs
      refine ⟨_, _, by rw [collect_more room hw hrun hd, heq, Option.map_some], by simp [hlen], ?_⟩
      rw [List.map_cons, cstr_token hrun, hptrs]

theorem collect_eq_none (room : ℕ) (h0 : (0 : Byte) ∉ s) (hroom : room < (runs white s).length) :
    collect room (holding pre s post) pre.length = none := by
  induction room generalizing s pre with
  | zero =>
    obtain hw | ⟨w, run, rfl, hw, hrun⟩ | ⟨w, run, d, rest, rfl, hw, hrun, hd⟩ := token_cases h0
    · rw [runs_blank hw] at hroom
      cases hroom
    · rw [collect.eq_def, strtok_last hw hrun]
    · rw [collect.eq_def, strtok_more hw hrun hd]
  | succ room ih =>
    obtain hw | ⟨w, run, rfl, hw, hrun⟩ | ⟨w, run, d, rest, rfl, hw, hrun, hd⟩ := token_cases h0
    · rw [runs_blank hw] at hroom
      cases hroom
    · rw [runs_last hw hrun, List.length_singleton] at hroom
      omega
    · rw [runs_more hw hrun hd] at hroom
      simp only [List.mem_append, List.mem_cons, not_or] at h0
      rw [collect_more room hw hrun hd, ih h0.2.2.2 (Nat.lt_of_succ_lt_succ hroom), Option.map_none]

/-! ## The call -/

theorem bufArgs_blank (hw : ∀ b ∈ w, white b = true) : bufArgs (w ++ 0 :: post) = none := by
  have hfirst : strtok (w ++ 0 :: post) 0 = _ := @strtok_blank [] w post hw
  rw [bufArgs, hfirst]

theorem bufArgs_last (hw : ∀ b ∈ w, white b = true) (hrun : Token run) :
    bufArgs (w ++ run ++ 0 :: post) = some ⟨1, [some 0, none], w ++ run ++ 0 :: post⟩ := by
  have hfirst : strtok (w ++ run ++ 0 :: post) 0 = _ := @strtok_last [] w run post hw hrun
  have hnext : collect (maxArgc - 2) (holding (w ++ run) [] post) (w ++ run).length = _ :=
    collect_blank _ fun b hb => by cases hb
  rw [bufArgs, hfirst]
  simp only [List.length_nil, Nat.zero_add, ← List.length_append]
  exact congrArg (Option.map _) hnext

theorem bufArgs_more (hw : ∀ b ∈ w, white b = true) (hrun : Token run) (hd : white d = true) :
    bufArgs (w ++ (run ++ d :: rest) ++ 0 :: post) =
      (collect (maxArgc - 2) (holding (w ++ (run ++ [0])) rest post) (w ++ (run ++ [0])).length).map
        fun r => ⟨r.1.length + 1, some 0 :: r.1.map some ++ [none], r.2⟩ := by
  have hfirst : strtok (w ++ (run ++ d :: rest) ++ 0 :: post) 0 = _ :=
    @strtok_more [] w run rest post d hw hrun hd
  rw [bufArgs, hfirst]
  rfl

theorem takeWhile_white (hw : ∀ b ∈ w, white b = true) (hrun : Token run) (s : List Byte) :
    (w ++ (run ++ s)).takeWhile white = w := by
  obtain ⟨b, run, rfl⟩ := List.exists_cons_of_ne_nil hrun.ne_nil
  rw [List.takeWhile_append_of_pos hw, List.cons_append,
    List.takeWhile_cons_of_neg (by simp [(hrun.clean b List.mem_cons_self).2]), List.append_nil]

/-- What `optfunc` finds: the first string starts where the buffer does. -/
theorem bufArgs_eq_some (h0 : (0 : Byte) ∉ s) {more : List (List Byte)} (hruns : runs white s = run :: more)
    (hlen : (runs white s).length ≤ maxArgc - 1) (post : List Byte) :
    ∃ c, bufArgs (s ++ 0 :: post) = some c ∧ c.argc = (runs white s).length ∧
      c.strings = some (s.takeWhile white ++ run) :: more.map some ++ [none] := by
  obtain hw | ⟨w, run', rfl, hw, hrun⟩ | ⟨w, run', d, rest, rfl, hw, hrun, hd⟩ := token_cases h0
  · rw [runs_blank hw] at hruns
    cases hruns
  · have hruns' := runs_last hw hrun
    rw [hruns'] at hruns
    cases hruns
    refine ⟨_, bufArgs_last hw hrun, by rw [hruns']; rfl, ?_⟩
    have htake := takeWhile_white hw hrun []
    rw [List.append_nil] at htake
    rw [htake]
    simp only [Call.strings, List.map_cons, List.map_nil, Option.map_some, Option.map_none,
      List.drop_zero, cstr_append_nul h0]
    rfl
  · have hruns' : runs white (w ++ (run' ++ d :: rest)) = _ := runs_more hw hrun hd
    rw [hruns'] at hruns hlen
    cases hruns
    have hnul : (0 : Byte) ∉ w ++ run := by
      simp only [List.mem_append, not_or] at h0 ⊢
      exact ⟨h0.1, h0.2.1⟩
    simp only [List.mem_append, List.mem_cons, not_or] at h0
    obtain ⟨ptrs, s', heq, -, hptrs⟩ :=
      collect_eq_some (w ++ (run ++ [0])) post (maxArgc - 2) h0.2.2.2 (Nat.le_of_succ_le_succ hlen)
    have hfirst : cstr (holding (w ++ (run ++ [0])) s' post) = w ++ run := by
      rw [holding, ← List.append_assoc w, List.append_assoc, List.singleton_append]
      exact cstr_append_nul hnul _
    refine ⟨_, by rw [bufArgs_more hw hrun hd, heq, Option.map_some], ?_, ?_⟩
    · rw [hruns', ← hptrs]
      simp
    · rw [takeWhile_white hw hrun]
      simp only [Call.strings, ← hptrs]
      simp [hfirst]

theorem bufArgs_eq_none (h0 : (0 : Byte) ∉ s)
    (h : runs white s = [] ∨ maxArgc - 1 < (runs white s).length) (post : List Byte) :
    bufArgs (s ++ 0 :: post) = none := by
  obtain hw | ⟨w, run', rfl, hw, hrun⟩ | ⟨w, run', d, rest, rfl, hw, hrun, hd⟩ := token_cases h0
  · exact bufArgs_blank hw
  · rw [runs_last hw hrun] at h
    rcases h with h | h
    · cases h
    · rw [List.length_singleton] at h
      exact absurd h (by decide)
  · rw [runs_more hw hrun hd] at h
    simp only [List.mem_append, List.mem_cons, not_or] at h0
    rcases h with h | h
    · cases h
    · rw [bufArgs_more hw hrun hd, collect_eq_none (maxArgc - 2) h0.2.2.2 (Nat.lt_of_succ_lt_succ h),
        Option.map_none]

/-- The buffer is split exactly. -/
structure SplitsExactly (s post : List Byte) : Prop where
  refused : bufArgs (s ++ 0 :: post) = none ↔ runs white s = [] ∨ maxArgc - 1 < (runs white s).length
  called : ∀ c, bufArgs (s ++ 0 :: post) = some c →
    c.argc = (runs white s).length ∧ c.strings = (runs white s).map some ++ [none]

theorem takeWhile_white_eq_nil : s.takeWhile white = [] ↔ ∀ b ∈ s.head?, white b = false := by
  cases s with
  | nil => simp
  | cons b s => simp [List.takeWhile_cons]

/-- Every buffer is split exactly, except one with white space in front of its first token. -/
theorem splitsExactly_iff (h0 : (0 : Byte) ∉ s) (post : List Byte) :
    SplitsExactly s post ↔
      runs white s = [] ∨ maxArgc - 1 < (runs white s).length ∨ ∀ b ∈ s.head?, white b = false := by
  rw [← takeWhile_white_eq_nil, ← or_assoc]
  by_cases hbad : runs white s = [] ∨ maxArgc - 1 < (runs white s).length
  · have hnone := bufArgs_eq_none h0 hbad post
    simp only [hbad, true_or, iff_true]
    constructor
    · simp only [hnone, hbad]
    · intro c hc
      rw [hnone] at hc
      cases hc
  · rw [not_or, not_lt] at hbad
    obtain ⟨run, more, hruns⟩ := List.exists_cons_of_ne_nil hbad.1
    obtain ⟨c, hc, hargc, hstrings⟩ := bufArgs_eq_some h0 hruns hbad.2 post
    simp only [hbad.1, not_lt.mpr hbad.2, false_or]
    constructor
    · intro h
      have hfirst := (h.called c hc).2
      rw [hstrings, hruns] at hfirst
      simpa using hfirst
    · intro h
      constructor
      · simp only [hc, hbad.1, not_lt.mpr hbad.2, or_self, reduceCtorEq]
      · intro c' hc'
        obtain rfl := Option.some.inj (hc.symm.trans hc')
        refine ⟨hargc, ?_⟩
        rw [hstrings, h, hruns]
        rfl

theorem splitsExactly_iff_call_host :
    SplitsExactly (ascii "call -d\t host\n") [] ∧
      runs white (ascii "call -d\t host\n") = [ascii "call", ascii "-d", ascii "host"] :=
  ⟨(splitsExactly_iff (by decide +kernel) []).mpr
    (.inr (.inr (takeWhile_white_eq_nil.mp (by decide +kernel)))), by decide +kernel⟩

/-- A blank in front of a request makes it part of the first argument. -/
theorem bufArgs_blank_first :
    (bufArgs (ascii " call host" ++ [0])).map Call.strings =
        some [some (ascii " call"), some (ascii "host"), none] ∧
      runs white (ascii " call host") = [ascii "call", ascii "host"] := by
  decide +kernel

end BufArgs
