import LinuxProgramming.ByteMachines
import Mathlib.Algebra.Group.Int.Defs

/-! # Waiting for a string from the device

`expect_str` and its `exp_read`: the token is copied with its escapes replaced, bytes are skipped
up to one that equals the first character, and then a window slides over what is read. A step
makes one call of `exp_read`. An alarm that is caught before a read has brought its byte is part
of the input: from there on `exp_read` fails. -/
namespace ExpectStr

open CStrings ByteMachines StateTransition

def maxLine : ℕ := 4096

/-! ## Copying the token -/

def octal (n : ℕ) : Byte := UInt8.ofNat (48 + n % 8)

def ctlStr (c : Byte) : List Byte :=
  if c = 0 then ascii "\\0"
  else if c < 32 then [94, c + 64]
  else if c = 127 then ascii "DEL"
  else if 127 < c then [92, octal (c.toNat / 64), octal (c.toNat / 8), octal c.toNat]
  else [c]

inductive Copied where
  | expstr (w : List Byte)
  | invalid
  | unknown (c : Byte)
  | overflow

/-- `dst` is what has been stored in `expstr`. -/
def copy : List Byte → List Byte → Copied
  | [], dst => if dst.length < maxLine then .expstr dst else .overflow
  | c :: src, dst =>
    if c = 92 then
      match src with
      | [] => .invalid
      | e :: src =>
        if e = 114 then if dst.length < maxLine then copy src (dst ++ [13]) else .overflow
        else if e = 115 then if dst.length < maxLine then copy src (dst ++ [32]) else .overflow
        else .unknown e
    else if dst.length < maxLine then copy src (dst ++ [c]) else .overflow

/-! ## The machine -/

/-- What a read finds. -/
inductive Input where
  | byte (b : Byte)
  | alarm
  | error
  deriving DecidableEq, Repr

inductive Pc where
  | skip
  | fill
  | compare
  | slide
  | returned (r : ℤ)
  | exited
  | fault
  deriving DecidableEq, Repr

structure St where
  pc : Pc
  expstr : List Byte
  inbuf : Memory
  c : Byte
  inptr : ℕ
  cmpptr : ℕ
  i : ℕ
  caughtAlrm : Bool
  errmsg : List Byte
  input : List Input

/-- The value of a `size_t`. -/
def sizeT (n : ℤ) : ℕ := (n % 2 ^ 64).toNat

/-- `exp_read` returns, with the byte it has read, or `log_sys` ends the process. -/
inductive Got where
  | byte (b : Byte)
  | timeout
  | exit

def Got.result : Got → ℕ
  | .byte _ => sizeT 1
  | .timeout | .exit => sizeT (-1)

namespace St

/-- Nothing where `read` waits for more than the input has. -/
def expRead (s : St) : Option (Got × St) :=
  if s.caughtAlrm then some (.timeout, s)
  else
    match s.input with
    | [] => none
    | .byte b :: input => some (.byte b, { s with input := input })
    | .alarm :: input => some (.timeout, { s with caughtAlrm := true, input := input })
    | .error :: input => some (.exit, { s with input := input })

/-- `if (exp_read(fd, p) < 0) return(-1);` and what follows it. -/
def got (store : St → Byte → St) (next : St → St) : Got × St → St
  | (.exit, s) => { s with pc := .exited }
  | (.timeout, s) => if Got.result .timeout < 0 then { s with pc := .returned (-1) } else next s
  | (.byte b, s) =>
    if Got.result (.byte b) < 0 then { s with pc := .returned (-1) } else next (store s b)

def read (s : St) (store : St → Byte → St) (next : St → St) : Option St :=
  s.expRead.map (got store next)

/-- `inptr++` and a read into `*inptr`. -/
def readNext (s : St) (next : St → St) : Option St :=
  let s := { s with inptr := s.inptr + 1 }
  if s.inptr < maxLine then
    s.read (fun s b => { s with inbuf := s.inbuf.write s.inptr [b] }) next
  else some { s with pc := .fault }

end St

/-- `strncmp(s, t, n) == 0`; nothing where it reads outside. -/
def strncmp : List Byte → List Byte → ℕ → Option Bool
  | _, _, 0 => some true
  | a :: s, b :: t, n + 1 =>
    if a ≠ b then some false else if a = 0 then some true else strncmp s t n
  | _, _, _ + 1 => none

def found (s : St) : St :=
  if s.c ≠ (s.expstr ++ [0]).headD 0 then s
  else { s with inbuf := s.inbuf.write 0 [s.c], inptr := 0, cmpptr := 0, i := 1, pc := .fill }

def step (s : St) : Option St :=
  match s.pc with
  | .skip => s.read (fun s b => { s with c := b }) found
  | .fill =>
    if s.i < s.expstr.length then s.readNext fun s => { s with i := s.i + 1 }
    else some { s with pc := .compare }
  | .compare =>
    match strncmp (s.inbuf.slice s.cmpptr (maxLine - s.cmpptr)) (s.expstr ++ [0]) s.expstr.length with
    | none => some { s with pc := .fault }
    | some true => some { s with pc := .returned 0 }
    | some false => some { s with pc := .slide }
  | .slide => s.readNext fun s => { s with cmpptr := s.cmpptr + 1, pc := .compare }
  | .returned _ | .exited | .fault => none

/-- `sprintf(errmsg, ...); return(-1);`. -/
def refuse (s : St) (msg : List Byte) : St :=
  if msg.length < maxLine then { s with errmsg := msg, pc := .returned (-1) }
  else { s with pc := .fault }

/-- Up to the first read; `junk` is what stands in `inbuf`. -/
def start (junk : Memory) (errmsg ptr : List Byte) (input : List Input) : St :=
  let s : St := ⟨.skip, [], junk, 0, 0, 0, 0, false, errmsg, input⟩
  if ptr = [34, 34] then { s with pc := .returned 0 }
  else
    match copy ptr [] with
    | .invalid => refuse s (ascii "invalid expect string: " ++ ptr ++ [10])
    | .unknown c => refuse s (ascii "unknown expect escape char: \\" ++ ctlStr c ++ [10])
    | .overflow => { s with pc := .fault }
    | .expstr w => { s with expstr := w }

/-! ## What a token stands for -/

inductive Means : List Byte → List Byte → Prop
  | nil : Means [] []
  | plain {c : Byte} {src w : List Byte} (hc : c ≠ 92) (h : Means src w) : Means (c :: src) (c :: w)
  | cr {src w : List Byte} (h : Means src w) : Means (92 :: 114 :: src) (13 :: w)
  | space {src w : List Byte} (h : Means src w) : Means (92 :: 115 :: src) (32 :: w)

variable {ptr w : List Byte} {s t : St}

theorem Means.length_le (h : Means ptr w) : w.length ≤ ptr.length := by
  induction h with
  | nil => exact le_rfl
  | plain _ _ ih =>
    simp only [List.length_cons]
    omega
  | cr _ ih =>
    simp only [List.length_cons]
    omega
  | space _ ih =>
    simp only [List.length_cons]
    omega

theorem Means.zero_notMem (h : Means ptr w) (hz : (0 : Byte) ∉ ptr) : (0 : Byte) ∉ w := by
  induction h with
  | nil => exact hz
  | plain _ _ ih =>
    rw [List.mem_cons, not_or] at hz ⊢
    exact ⟨hz.1, ih hz.2⟩
  | cr _ ih =>
    simp only [List.mem_cons, not_or] at hz ⊢
    exact ⟨by decide, ih hz.2.2⟩
  | space _ ih =>
    simp only [List.mem_cons, not_or] at hz ⊢
    exact ⟨by decide, ih hz.2.2⟩

theorem copy_plain {c : Byte} {src dst : List Byte} (hc : c ≠ 92) (hdst : dst.length < maxLine) :
    copy (c :: src) dst = copy src (dst ++ [c]) := by
  rw [copy.eq_def]
  simp only [if_neg hc, if_pos hdst]

theorem copy_cr {src dst : List Byte} (hdst : dst.length < maxLine) :
    copy (92 :: 114 :: src) dst = copy src (dst ++ [13]) := by
  rw [copy.eq_def]
  simp only [if_true, if_pos hdst]

theorem copy_space {src dst : List Byte} (hdst : dst.length < maxLine) :
    copy (92 :: 115 :: src) dst = copy src (dst ++ [32]) := by
  rw [copy.eq_def]
  simp only [if_true, if_neg (show ¬ (115 : Byte) = 114 by decide), if_pos hdst]

theorem room_snoc {dst : List Byte} {x : Byte} (h : dst.length + (x :: w).length < maxLine) :
    dst.length < maxLine ∧ (dst ++ [x]).length + w.length < maxLine := by
  simp only [List.length_cons, List.length_append, List.length_nil] at h ⊢
  omega

theorem copy_of_means (h : Means ptr w) {dst : List Byte} (hlen : dst.length + w.length < maxLine) :
    copy ptr dst = .expstr (dst ++ w) := by
  induction h generalizing dst with
  | nil => rw [copy, if_pos (by simpa using hlen), List.append_nil]
  | plain hc _ ih =>
    obtain ⟨hdst, hrest⟩ := room_snoc hlen
    rw [copy_plain hc hdst, ih hrest, List.append_assoc, List.singleton_append]
  | cr _ ih =>
    obtain ⟨hdst, hrest⟩ := room_snoc hlen
    rw [copy_cr hdst, ih hrest, List.append_assoc, List.singleton_append]
  | space _ ih =>
    obtain ⟨hdst, hrest⟩ := room_snoc hlen
    rw [copy_space hdst, ih hrest, List.append_assoc, List.singleton_append]

theorem strncmp_eq {x : List Byte} (hz : (0 : Byte) ∉ w) (hlen : w.length ≤ x.length) :
    strncmp x (w ++ [0]) w.length = some (decide (x.take w.length = w)) := by
  induction w generalizing x with
  | nil => cases x <;> rfl
  | cons b w ih =>
    cases x with
    | nil => simp at hlen
    | cons a x =>
      rw [List.mem_cons, not_or] at hz
      simp only [List.cons_append, List.length_cons, strncmp, List.take_succ_cons, List.cons.injEq]
      by_cases hab : a = b
      · subst hab
        simp only [ne_eq, not_true, if_false, if_neg (Ne.symm hz.1), true_and]
        exact ih hz.2 (by simpa using hlen)
      · simp [hab]

/-! ## Occurrences -/

/-- The first occurrence of `w` in the stream ends where `pre` ends. -/
structure FirstOccurrence (w pre : List Byte) : Prop where
  ends : w <:+ pre
  first : ∀ q, q <+: pre → w <:+ q → q = pre

/-- An occurrence does not start before the first byte that equals its first character. -/
theorem suffix_of_skipped {a : Byte} {w' u v : List Byte} (h : a :: w' <:+ u ++ a :: v) (hu : a ∉ u) :
    a :: w' <:+ a :: v := by
  obtain ⟨p, hp⟩ := h
  rcases List.append_eq_append_iff.mp hp with ⟨x, rfl, hx⟩ | ⟨x, rfl, hx⟩
  · cases x with
    | nil => exact ⟨[], hx⟩
    | cons b x =>
      rw [List.cons_append, List.cons.injEq] at hx
      exact absurd (by simp [hx.1]) hu
  · exact ⟨x, hx.symm⟩

/-! ## The loops -/

theorem read_byte {b : Byte} {input : List Input} (hc : s.caughtAlrm = false)
    (hi : s.input = .byte b :: input) (store : St → Byte → St) (next : St → St) :
    s.read store next = some (next (store { s with input := input } b)) := by
  have hpos : ¬ Got.result (.byte b) < 0 := Nat.not_lt_zero _
  simp only [St.read, St.expRead, hc, Bool.false_eq_true, if_false, hi, Option.map_some, St.got,
    if_neg hpos]

theorem reaches_skipped {a : Byte} {w' u : List Byte} {rest : List Input} (hpc : s.pc = .skip)
    (hc : s.caughtAlrm = false) (hw : s.expstr = a :: w') (hu : a ∉ u)
    (hi : s.input = u.map .byte ++ rest) : ∃ c, Reaches step s { s with c := c, input := rest } := by
  induction u generalizing s with
  | nil =>
    refine ⟨s.c, ?_⟩
    rw [List.map_nil, List.nil_append] at hi
    rw [← hi]
    exact .refl
  | cons b u ih =>
    rw [List.mem_cons, not_or] at hu
    rw [List.map_cons, List.cons_append] at hi
    have hne : b ≠ (s.expstr ++ [0]).headD 0 := by simpa [hw] using Ne.symm hu.1
    have hone : step s = some { s with c := b, input := u.map .byte ++ rest } := by
      simp only [step, hpc, read_byte hc hi, found, if_pos hne]
    obtain ⟨c, hc'⟩ := ih (s := { s with c := b, input := u.map .byte ++ rest }) hpc hc hw hu.2 rfl
    exact ⟨c, (reaches_step hone).trans hc'⟩

/-- The window holds `x`. -/
theorem step_compare {x : List Byte} (hpc : s.pc = .compare) (hw : s.expstr = w) (hz : (0 : Byte) ∉ w)
    (hm : s.inbuf.Holds s.cmpptr x) (hx : x.length = w.length)
    (hroom : s.cmpptr + w.length ≤ maxLine) :
    step s = some (if x = w then { s with pc := .returned 0 } else { s with pc := .slide }) := by
  have hlen : maxLine - s.cmpptr = w.length + (maxLine - (s.cmpptr + w.length)) := by omega
  have hwindow : (s.inbuf.slice s.cmpptr (maxLine - s.cmpptr)).take w.length = x := by
    rw [hlen, Memory.slice_add, List.take_left' (by simp), ← hx]
    exact hm
  have hcmp := strncmp_eq (x := s.inbuf.slice s.cmpptr (maxLine - s.cmpptr)) hz (by
    rw [Memory.length_slice]
    omega)
  rw [hwindow] at hcmp
  by_cases hxw : x = w
  · rw [decide_eq_true hxw] at hcmp
    simp only [step, hpc, hw, hcmp, if_pos hxw]
  · rw [decide_eq_false hxw] at hcmp
    simp only [step, hpc, hw, hcmp, if_neg hxw]

/-- The first `n` bytes of `text` have been read into `inbuf`. -/
structure Reading (w text : List Byte) (rest : List Input) (s : St) (n : ℕ) : Prop where
  caught : s.caughtAlrm = false
  expstr : s.expstr = w
  holds : s.inbuf.Holds 0 (text.take n)
  inptr : s.inptr + 1 = n
  input : s.input = (text.drop n).map .byte ++ rest

namespace Reading

variable {text : List Byte} {rest : List Input} {n : ℕ}

theorem goto (h : Reading w text rest s n) (pc : Pc) (i cmpptr : ℕ) :
    Reading w text rest { s with i := i, cmpptr := cmpptr, pc := pc } n :=
  ⟨h.caught, h.expstr, h.holds, h.inptr, h.input⟩

theorem readNext (h : Reading w text rest s n) (hn : n < text.length) (hmax : text.length ≤ maxLine)
    (next : St → St) :
    ∃ m k input, s.readNext next = some (next { s with inbuf := m, inptr := k, input := input }) ∧
      Reading w text rest { s with inbuf := m, inptr := k, input := input } (n + 1) := by
  have hinptr := h.inptr
  have hi : s.input = .byte text[n] :: ((text.drop (n + 1)).map .byte ++ rest) := by
    rw [h.input, List.drop_eq_getElem_cons hn, List.map_cons, List.cons_append]
  have hroom : s.inptr + 1 < maxLine := by omega
  refine ⟨s.inbuf.write (s.inptr + 1) [text[n]], s.inptr + 1, _, ?_, ⟨h.caught, h.expstr, ?_, ?_, rfl⟩⟩
  · simp only [St.readNext, if_pos hroom]
    exact read_byte (s := { s with inptr := s.inptr + 1 }) h.caught hi _ _
  · rw [List.take_succ_eq_append_getElem hn]
    have hlen : 0 + (text.take n).length = s.inptr + 1 := by
      rw [List.length_take]
      omega
    refine Memory.holds_append.mpr ⟨h.holds.write (.inr hlen.le), ?_⟩
    rw [hlen]
    exact Memory.holds_write_self _ _ _
  · simp only
    omega

theorem reaches_filled (h : Reading w text rest s n) (hpc : s.pc = .fill) (hi : s.i = n)
    (hcmp : s.cmpptr = 0) (hnw : n ≤ w.length) (hw : w.length ≤ text.length)
    (hmax : text.length ≤ maxLine) :
    ∃ t, Reaches step s t ∧ t.pc = .compare ∧ t.cmpptr = 0 ∧ Reading w text rest t w.length := by
  induction k : w.length - n generalizing s n with
  | zero =>
    have hn : n = w.length := by omega
    have hstep : step s = some { s with pc := .compare } := by
      have hdone : ¬ s.i < s.expstr.length := by
        rw [hi, h.expstr]
        omega
      simp only [step, hpc, if_neg hdone]
    subst hn
    exact ⟨_, reaches_step hstep, rfl, hcmp, h.goto .compare s.i s.cmpptr⟩
  | succ k ih =>
    obtain ⟨m, p, input, hread, hreading⟩ :=
      h.readNext (by omega) hmax fun s => { s with i := s.i + 1 }
    have hstep : step s = some { s with inbuf := m, inptr := p, input := input, i := s.i + 1 } := by
      have hmore : s.i < s.expstr.length := by
        rw [hi, h.expstr]
        omega
      simp only [step, hpc, if_pos hmore, hread]
    obtain ⟨t, hrun, ht⟩ := ih (hreading.goto .fill (s.i + 1) s.cmpptr) rfl (by simp [hi]) hcmp
      (by omega) (by omega)
    rw [← hpc] at hrun
    exact ⟨t, (reaches_step hstep).trans hrun, ht⟩

theorem compared (h : Reading w text rest s n) (hpc : s.pc = .compare) (hz : (0 : Byte) ∉ w)
    (hn : s.cmpptr + w.length = n) (hnt : n ≤ text.length) (hmax : text.length ≤ maxLine) :
    step s = some (if (text.drop s.cmpptr).take w.length = w then { s with pc := .returned 0 }
      else { s with pc := .slide }) := by
  have hlen : ((text.drop s.cmpptr).take w.length).length = w.length := by
    rw [List.length_take, List.length_drop]
    omega
  refine step_compare hpc h.expstr hz ?_ hlen (by omega)
  have hslice : s.inbuf.slice (0 + s.cmpptr) w.length = ((text.take n).drop s.cmpptr).take w.length :=
    h.holds.slice_drop (by rw [List.length_take]; omega)
  rw [Memory.Holds, hlen]
  rw [Nat.zero_add, List.drop_take, List.take_take, Nat.min_eq_left (by omega)] at hslice
  exact hslice

theorem reaches_match (h : Reading w text rest s n) (hpc : s.pc = .compare) (hz : (0 : Byte) ∉ w)
    (hn : s.cmpptr + w.length = n) (hnt : n ≤ text.length) (hmax : text.length ≤ maxLine)
    (hocc : FirstOccurrence w text) :
    ∃ t, Reaches step s t ∧ t.pc = .returned 0 ∧ t.input = rest := by
  induction k : text.length - n generalizing s n with
  | zero =>
    -- all of the text has been read, and it ends with `w`
    have hend : n = text.length := by omega
    have hlast : (text.drop s.cmpptr).take w.length = w := by
      have hdrop := List.suffix_iff_eq_drop.mp hocc.ends
      rw [show s.cmpptr = text.length - w.length by omega, ← hdrop, List.take_length]
    have hstep := h.compared hpc hz hn hnt hmax
    rw [if_pos hlast] at hstep
    refine ⟨_, reaches_step hstep, rfl, ?_⟩
    simp [h.input, hend]
  | succ k ih =>
    -- a match in front of the end would be an earlier occurrence
    have hmiss : (text.drop s.cmpptr).take w.length ≠ w := by
      intro hmatch
      have htake : text.take n = text.take s.cmpptr ++ w := by rw [← hn, List.take_add, hmatch]
      have hall := hocc.first (text.take n) (List.take_prefix n text) ⟨_, htake.symm⟩
      have hlen := congrArg List.length hall
      rw [List.length_take] at hlen
      omega
    have hstep := h.compared hpc hz hn hnt hmax
    rw [if_neg hmiss] at hstep
    obtain ⟨m, p, input, hread, hreading⟩ := (h.goto .slide s.i s.cmpptr).readNext (by omega) hmax
      fun s => { s with cmpptr := s.cmpptr + 1, pc := .compare }
    have hstep' : step { s with pc := .slide } = some _ := hread
    obtain ⟨t, hrun, ht⟩ := ih (hreading.goto .compare s.i (s.cmpptr + 1)) rfl (by simp only; omega)
      (by omega) (by omega)
    exact ⟨t, ((reaches_step hstep).tail hstep').trans hrun, ht⟩

end Reading

/-! ## The first occurrence is found -/

theorem start_of_means (junk : Memory) (errmsg : List Byte) (input : List Input)
    (hspecial : ptr ≠ [34, 34]) (hlen : ptr.length < maxLine) (hmeans : Means ptr w) :
    start junk errmsg ptr input = ⟨.skip, w, junk, 0, 0, 0, 0, false, errmsg, input⟩ := by
  have hcopy : copy ptr [] = .expstr w :=
    copy_of_means hmeans (by simpa using lt_of_le_of_lt hmeans.length_le hlen)
  simp only [start, if_neg hspecial, hcopy]

theorem FirstOccurrence.of_skipped {a : Byte} {w' u v : List Byte}
    (h : FirstOccurrence (a :: w') (u ++ a :: v)) (hu : a ∉ u) : FirstOccurrence (a :: w') (a :: v) := by
  refine ⟨suffix_of_skipped h.ends hu, fun q hq hw => ?_⟩
  have hall := h.first (u ++ q) ((List.prefix_append_right_inj u).mpr hq) (hw.trans (List.suffix_append u q))
  exact List.append_cancel_left hall

/-- A token of a line of the Dialers file, which is shorter than `MAXLINE`, stands for `w`, and `pre`
is what the device sends up to the end of the first occurrence of `w`. -/
theorem expect_str_finds_first (junk : Memory) (errmsg ptr w pre : List Byte) (rest : List Input)
    (hz : (0 : Byte) ∉ ptr) (hlen : ptr.length < maxLine) (hspecial : ptr ≠ [34, 34])
    (hmeans : Means ptr w) (hw : 1 ≤ w.length) (hocc : FirstOccurrence w pre)
    (hnear : (pre.dropWhile fun b => some b ≠ w.head?).length ≤ maxLine) :
    ∃ t, Reaches step (start junk errmsg ptr (pre.map .byte ++ rest)) t ∧ t.pc = .returned 0 ∧
      t.input = rest := by
  cases w with
  | nil => simp at hw
  | cons a w' =>
    have hmem : a ∈ pre := hocc.ends.subset (by simp)
    obtain ⟨u, v, rfl, hu⟩ := List.eq_append_cons_of_mem hmem
    have htext : ((u ++ a :: v).dropWhile fun b => some b ≠ (a :: w').head?) = a :: v := by
      rw [List.dropWhile_append_of_pos]
      · simp
      · intro b hb
        have hne : b ≠ a := fun h => hu (h ▸ hb)
        simpa using hne
    rw [htext] at hnear
    have hocc' := hocc.of_skipped hu
    have hle : (a :: w').length ≤ (a :: v).length := hocc'.ends.length_le
    rw [start_of_means junk errmsg _ hspecial hlen hmeans]
    -- skipping, with the byte that ends it
    have hskip : ∃ c, Reaches step
        ⟨.skip, a :: w', junk, 0, 0, 0, 0, false, errmsg, (u ++ a :: v).map .byte ++ rest⟩
        ⟨.skip, a :: w', junk, c, 0, 0, 0, false, errmsg, .byte a :: (v.map .byte ++ rest)⟩ :=
      reaches_skipped rfl rfl rfl hu (by simp)
    obtain ⟨c, hskip⟩ := hskip
    have hfirst : step ⟨.skip, a :: w', junk, c, 0, 0, 0, false, errmsg, .byte a :: (v.map .byte ++ rest)⟩ =
        some ⟨.fill, a :: w', junk.write 0 [a], a, 0, 0, 1, false, errmsg, v.map .byte ++ rest⟩ := by
      simp only [step]
      rw [read_byte rfl rfl]
      simp [found]
    have hreading : Reading (a :: w') (a :: v) rest
        ⟨.fill, a :: w', junk.write 0 [a], a, 0, 0, 1, false, errmsg, v.map .byte ++ rest⟩ 1 :=
      ⟨rfl, rfl, Memory.holds_write_self _ _ _, rfl, rfl⟩
    obtain ⟨t, hfill, htpc, hcmp, hfull⟩ := hreading.reaches_filled rfl rfl rfl (by simp) hle hnear
    obtain ⟨t', hmatch, ht'⟩ := hfull.reaches_match htpc (hmeans.zero_notMem hz)
      (by rw [hcmp, Nat.zero_add]) hle hnear hocc'
    exact ⟨t', ((hskip.tail hfirst).trans hfill).trans hmatch, ht'⟩

/-- `ab` in a stream with NULs and a first letter that leads nowhere. -/
theorem expect_str_finds_ab :
    ∃ t, Reaches step (start (fun _ => 0) [] [97, 98] ([0, 97, 97, 98].map .byte ++ [.byte 99])) t ∧
      t.pc = .returned 0 ∧ t.input = [.byte 99] :=
  expect_str_finds_first (fun _ => 0) [] [97, 98] [97, 98] [0, 97, 97, 98] [.byte 99] (by decide)
    (by decide) (by decide) (.plain (by decide) (.plain (by decide) .nil)) (by decide)
    ⟨⟨[0, 97], rfl⟩, fun q hq hw => by
      rw [← List.mem_inits] at hq
      revert q
      decide⟩
    (by decide)

/-! ## When the alarm is caught -/

theorem read_caught (hc : s.caughtAlrm = true) (store : St → Byte → St) (next : St → St) :
    s.read store next = some (next s) := by
  have hpos : ¬ Got.result .timeout < 0 := Nat.not_lt_zero _
  simp only [St.read, St.expRead, hc, if_true, Option.map_some, St.got, if_neg hpos]

/-- A `size_t` is never negative: whatever the read was, the call goes on, if not `log_sys` ends it. -/
theorem read_cases {store : St → Byte → St} {next : St → St} (h : s.read store next = some t) :
    (∃ u : St, u.pc = s.pc ∧ t = next u) ∨ (∃ u b, u.pc = s.pc ∧ t = next (store u b)) ∨
      t.pc = .exited := by
  cases hc : s.caughtAlrm with
  | true =>
    rw [read_caught hc, Option.some.injEq] at h
    exact .inl ⟨s, rfl, h.symm⟩
  | false =>
    have htimeout : ¬ Got.result .timeout < 0 := Nat.not_lt_zero _
    cases hi : s.input with
    | nil => simp [St.read, St.expRead, hc, hi] at h
    | cons x input =>
      cases x with
      | byte b =>
        rw [read_byte hc hi, Option.some.injEq] at h
        exact .inr (.inl ⟨{ s with input := input }, b, rfl, h.symm⟩)
      | alarm =>
        simp only [St.read, St.expRead, hc, hi, Bool.false_eq_true, if_false, Option.map_some, St.got,
          if_neg htimeout, Option.some.injEq] at h
        exact .inl ⟨{ s with caughtAlrm := true, input := input }, rfl, h.symm⟩
      | error =>
        simp only [St.read, St.expRead, hc, hi, Bool.false_eq_true, if_false, Option.map_some, St.got,
          Option.some.injEq] at h
        exact .inr (.inr (by rw [← h]))

theorem readNext_cases {next : St → St} (h : s.readNext next = some t) :
    (∃ u : St, u.pc = s.pc ∧ t = next u) ∨ t.pc = .exited ∨ t.pc = .fault := by
  simp only [St.readNext] at h
  split at h
  · rcases read_cases h with ⟨u, hu, ht⟩ | ⟨u, b, hu, ht⟩ | ht
    · exact .inl ⟨u, hu, ht⟩
    · exact .inl ⟨{ u with inbuf := u.inbuf.write u.inptr [b] }, hu, ht⟩
    · exact .inr (.inl ht)
  · rw [Option.some.injEq] at h
    exact .inr (.inr (by rw [← h]))

theorem found_pc (hpc : s.pc = .skip) : (found s).pc = .skip ∨ (found s).pc = .fill := by
  unfold found
  split
  · exact .inl hpc
  · exact .inr rfl

theorem step_pc (h : step s = some t) : t.pc ≠ .returned (-1) := by
  cases hpc : s.pc with
  | skip =>
    simp only [step, hpc] at h
    rcases read_cases h with ⟨u, hu, rfl⟩ | ⟨u, b, hu, rfl⟩ | ht
    · rcases found_pc (hu.trans hpc) with h | h <;> simp [h]
    · rcases found_pc (s := { u with c := b }) (hu.trans hpc) with h | h <;> simp [h]
    · simp [ht]
  | fill =>
    simp only [step, hpc] at h
    split at h
    · rcases readNext_cases h with ⟨u, hu, rfl⟩ | ht | ht
      · simp [hu, hpc]
      · simp [ht]
      · simp [ht]
    · cases h
      simp
  | compare =>
    simp only [step, hpc] at h
    split at h
    all_goals
      cases h
      simp
  | slide =>
    simp only [step, hpc] at h
    rcases readNext_cases h with ⟨u, hu, rfl⟩ | ht | ht
    · simp
    · simp [ht]
    · simp [ht]
  | returned r => simp [step, hpc] at h
  | exited => simp [step, hpc] at h
  | fault => simp [step, hpc] at h

theorem reaches_pc (h : Reaches step s t) : t = s ∨ t.pc ≠ .returned (-1) := by
  rcases Relation.ReflTransGen.cases_tail h with rfl | ⟨u, -, hu⟩
  · exact .inl rfl
  · exact .inr (step_pc hu)

theorem readNext_caught (hc : s.caughtAlrm = true) (next : St → St) :
    s.readNext next = some (if s.inptr + 1 < maxLine then next { s with inptr := s.inptr + 1 }
      else { s with inptr := s.inptr + 1, pc := .fault }) := by
  simp only [St.readNext]
  split
  · exact read_caught (s := { s with inptr := s.inptr + 1 }) hc _ _
  · rfl

theorem caught_step (hc : s.caughtAlrm = true) (h : step s = some t) :
    t.caughtAlrm = true ∧ t.input = s.input := by
  cases hpc : s.pc with
  | skip =>
    simp only [step, hpc] at h
    rw [read_caught hc, Option.some.injEq] at h
    rw [← h, found]
    split <;> exact ⟨hc, rfl⟩
  | fill =>
    simp only [step, hpc] at h
    split at h
    · rw [readNext_caught hc, Option.some.injEq] at h
      rw [← h]
      split <;> exact ⟨hc, rfl⟩
    · cases h
      exact ⟨hc, rfl⟩
  | compare =>
    simp only [step, hpc] at h
    split at h
    all_goals
      cases h
      exact ⟨hc, rfl⟩
  | slide =>
    simp only [step, hpc] at h
    rw [readNext_caught hc, Option.some.injEq] at h
    rw [← h]
    split <;> exact ⟨hc, rfl⟩
  | returned r => simp [step, hpc] at h
  | exited => simp [step, hpc] at h
  | fault => simp [step, hpc] at h

theorem caught_reaches (hc : s.caughtAlrm = true) (h : Reaches step s t) :
    t.caughtAlrm = true ∧ t.input = s.input := by
  refine reaches_invariant (I := fun u => u.caughtAlrm = true ∧ u.input = s.input) h ⟨hc, rfl⟩ ?_
  intro u v hu hstep
  obtain ⟨hv, hinput⟩ := caught_step hu.1 hstep
  exact ⟨hv, hinput.trans hu.2⟩

theorem start_caught (junk : Memory) (errmsg ptr : List Byte) (input : List Input) :
    (start junk errmsg ptr input).caughtAlrm = false := by
  simp only [start, refuse]
  split
  · rfl
  · split
    · split <;> rfl
    · split <;> rfl
    · rfl
    · rfl

/-- The call ends with -1, and neither reads further nor moves on in `inbuf`. -/
def Stops (s : St) : Prop :=
  ∃ t, Reaches step s t ∧ t.pc = .returned (-1) ∧ t.input = s.input ∧
    t.inptr = s.inptr ∧ t.cmpptr = s.cmpptr

/-- No byte is read once the alarm has been caught; but the call stops as it should only if the
alarm is never caught. -/
theorem timeout_stops_iff (junk : Memory) (errmsg ptr : List Byte) (input : List Input) :
    (∀ s t, Reaches step (start junk errmsg ptr input) s → s.caughtAlrm = true →
      Reaches step s t → t.input = s.input) ∧
    ((∀ s, Reaches step (start junk errmsg ptr input) s → s.caughtAlrm = true → Stops s) ↔
      ∀ s, Reaches step (start junk errmsg ptr input) s → s.caughtAlrm = false) := by
  have hnot : ∀ s, Reaches step (start junk errmsg ptr input) s → s.caughtAlrm = true → ¬ Stops s := by
    rintro s hs hc ⟨t, ht, hpc, -⟩
    rcases reaches_pc (hs.trans ht) with rfl | hne
    · have hcaught := (caught_reaches hc ht).1
      rw [start_caught] at hcaught
      cases hcaught
    · exact hne hpc
  refine ⟨fun s t _ hc ht => (caught_reaches hc ht).2, fun h s hs => ?_, fun h s hs hc => ?_⟩
  · by_contra hc
    rw [Bool.not_eq_false] at hc
    exact hnot s hs hc (h s hs hc)
  · rw [h s hs] at hc
    cases hc

/-- Caught while bytes are skipped, the alarm leaves a loop without an end; caught while the window
is filled, it lets a byte that was never read pass for one of the device. -/
theorem timeout_ignored :
    (∃ s, Reaches step (start (fun _ => 0) [] [97] [.alarm]) s ∧ s.caughtAlrm = true ∧
      ∀ t, Reaches step s t → t = s) ∧
    ∃ s t, Reaches step (start (fun _ => 98) [] [97, 98] [.byte 97, .alarm]) s ∧
      s.caughtAlrm = true ∧ Reaches step s t ∧ t.pc = .returned 0 := by
  constructor
  · refine ⟨_, reaches_step rfl, rfl, fun t ht => ?_⟩
    refine reaches_invariant (I := fun u => u = _) ht rfl ?_
    rintro _ v rfl hv
    exact (Option.some.inj hv).symm
  · obtain ⟨m, hm⟩ : ∃ m, Memory.write (fun _ => 98) 0 [97] = m := ⟨_, rfl⟩
    have h₁ : step (start (fun _ => 98) [] [97, 98] [.byte 97, .alarm]) =
        some ⟨.fill, [97, 98], m, 97, 0, 0, 1, false, [], [.alarm]⟩ := by
      rw [← hm]
      rfl
    have h₂ : step ⟨.fill, [97, 98], m, 97, 0, 0, 1, false, [], [.alarm]⟩ =
        some ⟨.fill, [97, 98], m, 97, 1, 0, 2, true, [], []⟩ := rfl
    have h₃ : step ⟨.fill, [97, 98], m, 97, 1, 0, 2, true, [], []⟩ =
        some ⟨.compare, [97, 98], m, 97, 1, 0, 2, true, [], []⟩ := rfl
    have h₄ : step ⟨.compare, [97, 98], m, 97, 1, 0, 2, true, [], []⟩ =
        some ⟨.returned 0, [97, 98], m, 97, 1, 0, 2, true, [], []⟩ := by
      have hz : (0 : Byte) ∉ ([97, 98] : List Byte) := by decide
      have hholds : m.Holds 0 [97, 98] := by
        rw [← hm]
        rfl
      rw [step_compare rfl rfl hz hholds rfl (show 0 + 2 ≤ maxLine by decide), if_pos rfl]
    exact ⟨_, _, (reaches_step h₁).tail h₂, rfl, (reaches_step h₃).tail h₄, rfl⟩

end ExpectStr
