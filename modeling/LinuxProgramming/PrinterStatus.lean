import LinuxProgramming.Printd
import LinuxProgramming.IppEncoding
import LinuxProgramming.ByteMachines
import Mathlib.Data.Prod.Lex

/-! # Reading the printer's answer

`printer_status` scans the bytes of the answer in a buffer that it reads into and that
`readmore` makes longer. A control point stands before each test of a loop and before each
read. A step that reads or writes outside the buffer leads to `fault`. What stands in the
buffer behind the bytes read is not known. -/
namespace PrinterStatus

open CStrings Printd IppEncoding ByteMachines StateTransition

inductive Pc where
  | tread
  | space
  | digits
  | reason
  | findC
  | moreHeader
  | compare
  | lenSpace
  | lenDigits
  | moreBlank
  | blank
  | moreFound (found : Bool)
  | moreBody
  | ippHdr
  | out
  | returned
  | fault
  deriving DecidableEq, Repr

/-- The variables of `printer_status`; pointers into `bp` are offsets from it. -/
structure St where
  pc : Pc
  mem : Memory
  bufsz : ℕ
  nr : ℤ
  cp : ℕ
  i : ℕ
  statcode : ℕ
  contentlen : ℕ
  len : ℤ
  success : Bool
  frees : ℕ
  /-- What successive reads of the socket find. -/
  pieces : List (List Byte)

/-- What follows the last piece. -/
inductive Ending where
  | eof
  | failed
  deriving DecidableEq, Repr

def Ending.result : Ending → ℤ
  | .eof => 0
  | .failed => -1

namespace St

/-- Reads at `bp[k]`. -/
def loaded (s : St) (k : ℕ) (f : Byte → St) : St :=
  if k < s.bufsz then f (s.mem k) else { s with pc := .fault }

/-- The buffer from `bp[k]` to its end. -/
def text (s : St) (k : ℕ) : List Byte := s.mem.slice k (s.bufsz - k)

def advance (s : St) : St := { s with cp := s.cp + 1 }

def goto (s : St) (pc : Pc) : St := { s with pc := pc }

/-- `tread(sockfd, &bp[off], n, timout)`; what does not fit is left for the next read. -/
def tread (fin : Ending) (s : St) (off n : ℕ) : St × ℤ :=
  match s.pieces with
  | [] => (s, fin.result)
  | p :: ps =>
    ({ s with
      mem := s.mem.write off (p.take n)
      pieces := if p.length ≤ n then ps else p.drop n :: ps }, (p.take n).length)

/-- `realloc` when there is no room left at `off`. -/
def grow (s : St) (off : ℕ) : St :=
  if s.bufsz ≤ off then { s with bufsz := s.bufsz + ioBufsz } else s

def readmore (fin : Ending) (s : St) (off : ℕ) : St :=
  let r := (s.grow off).tread fin off ((s.grow off).bufsz - off)
  { r.1 with nr := if 0 < r.2 then off + r.2 else -1 }

/-- `if (c && ((nr = readmore(sockfd, &bp, i, &bufsz)) < 0)) goto out; cp = &bp[i];`. -/
def more (fin : Ending) (s : St) (c : Bool) (pc : Pc) : St :=
  if c then
    let s' := s.readmore fin s.i
    if s'.nr < 0 then s'.goto .out else { s' with cp := s.i, pc := pc }
  else { s with cp := s.i, pc := pc }

end St

/-- `atoi` is `strtol` cut to an `int`. -/
def atoi (s : List Byte) : ℤ := Int.bmod (atolLong s) (2 ^ 32)

def httpInfo (code : ℤ) : Bool := 100 ≤ code && code ≤ 199
def httpSuccess (code : ℤ) : Bool := 200 ≤ code && code ≤ 299
def statclassOk (x : ℕ) : Bool := x ≤ 0x00ff

def toLower (b : Byte) : Byte := if 65 ≤ b && b ≤ 90 then b + 32 else b

/-- `strncasecmp(t, p, strlen(p)) == 0`; nothing where the comparison leaves the buffer. -/
def strncasecmp : List Byte → List Byte → Option Bool
  | _, [] => some true
  | [], _ :: _ => none
  | b :: t, c :: p => if toLower b = toLower c then strncasecmp t p else some false

def contentLengthName : List Byte := ascii "Content-Length:"

def plainFormat (buf : List Byte) : Bool := (0 : Byte) ∈ buf && (37 : Byte) ∉ cstr buf

def afterReason (s : St) : St :=
  let s := { s with mem := s.mem.write s.cp [0] }
  let code := atoi (s.text s.statcode)
  if httpInfo code then s.goto .tread
  else if httpSuccess code then { s with i := s.cp, pc := .findC }
  else if s.nr < s.bufsz then { s with mem := s.mem.write s.nr.toNat [0], pc := .out }
  else s.goto .fault

def afterLength (s : St) : St :=
  let s := { s with mem := s.mem.write s.cp [0], cp := s.cp + 1 }
  { s with i := s.cp, len := atoi (s.text s.contentlen), pc := .moreBlank }

def lookBlank (s : St) : St :=
  let on : St := { s with cp := s.cp + 1, i := s.i + 1 }
  s.loaded s.cp fun b₀ =>
    if b₀ ≠ 10 then on
    else s.loaded (s.cp + 1) fun b₁ =>
      if b₁ ≠ 13 then on
      else s.loaded (s.cp + 2) fun b₂ =>
        if b₂ ≠ 10 then on
        else { s with cp := s.cp + 3, i := s.i + 3, pc := .moreFound true }

def checkIpp (jobid : ℤ) (s : St) : St :=
  if s.cp + 8 ≤ s.bufsz then
    let st := beNat (s.mem.slice (s.cp + 2) 2)
    let id := beNat (s.mem.slice (s.cp + 4) 4)
    { s with success := s.success || ((id : ℤ) = jobid && statclassOk st), pc := .out }
  else s.goto .fault

def step (jobid : ℤ) (fin : Ending) (s : St) : Option St :=
  match s.pc with
  | .tread =>
    let r := s.tread fin 0 ioBufsz
    if 0 < r.2 then some { r.1 with nr := r.2, cp := 8, pc := .space }
    else some { r.1 with nr := r.2, pc := .out }
  | .space => some <| s.loaded s.cp fun b =>
    if isSpace b then s.advance else { s with statcode := s.cp, pc := .digits }
  | .digits => some <| s.loaded s.cp fun b =>
    if isDigit b then s.advance
    else if s.cp = s.statcode then
      -- log_msg(bp) takes the answer for a format
      if plainFormat (s.text 0) then s.goto .tread else s.goto .fault
    else { s with mem := s.mem.write s.cp [0], cp := s.cp + 1, pc := .reason }
  | .reason => some <| s.loaded s.cp fun b =>
    if b ≠ 13 ∧ b ≠ 10 then s.advance else afterReason s
  | .findC => some <| s.loaded s.cp fun b =>
    if b ≠ 67 ∧ b ≠ 99 ∧ s.i < s.nr then { s with cp := s.cp + 1, i := s.i + 1 }
    else s.goto .moreHeader
  | .moreHeader => some <| s.more fin (s.nr ≤ s.i) .compare
  | .compare =>
    match strncasecmp (s.text s.cp) contentLengthName with
    | none => some (s.goto .fault)
    | some true => some { s with cp := s.cp + 15, pc := .lenSpace }
    | some false => some { s with cp := s.cp + 1, i := s.i + 1, pc := .findC }
  | .lenSpace => some <| s.loaded s.cp fun b =>
    if isSpace b then s.advance else { s with contentlen := s.cp, pc := .lenDigits }
  | .lenDigits => some <| s.loaded s.cp fun b =>
    if isDigit b then s.advance else afterLength s
  | .moreBlank => some <| s.more fin (s.nr ≤ s.i) .blank
  | .blank => some <| if s.i < s.nr - 2 then lookBlank s else s.goto (.moreFound false)
  | .moreFound found => some <| s.more fin (s.nr ≤ s.i) (if found then .moreBody else .blank)
  | .moreBody => some <| s.more fin (s.nr - s.i < s.len) .ippHdr
  | .ippHdr => some (checkIpp jobid s)
  | .out => some { s with frees := s.frees + 1, pc := .returned }
  | .returned | .fault => none

/-- `malloc` gives a buffer with anything in it. -/
def start (junk : Memory) (pieces : List (List Byte)) : St :=
  ⟨.tread, junk, ioBufsz, 0, 0, 0, 0, 0, 0, false, 0, pieces⟩

/-! ## What reading does -/

def weight (pieces : List (List Byte)) : ℕ := (pieces.map List.length).sum + pieces.length

variable {jobid : ℤ} {fin : Ending} {s t : St}

theorem loaded_cases (s : St) (k : ℕ) (f : Byte → St) :
    k < s.bufsz ∧ s.loaded k f = f (s.mem k) ∨ s.bufsz ≤ k ∧ s.loaded k f = s.goto .fault := by
  unfold St.loaded
  split
  · exact .inl ⟨‹_›, rfl⟩
  · exact .inr ⟨by omega, rfl⟩

theorem tread_nil (h : s.pieces = []) (off n : ℕ) : s.tread fin off n = (s, fin.result) := by
  simp only [St.tread, h]

theorem tread_cons {p : List Byte} {ps : List (List Byte)} (h : s.pieces = p :: ps) (off n : ℕ) :
    s.tread fin off n = ({ s with
      mem := s.mem.write off (p.take n)
      pieces := if p.length ≤ n then ps else p.drop n :: ps }, ((p.take n).length : ℤ)) := by
  simp only [St.tread, h]

theorem result_nonpos (fin : Ending) : fin.result ≤ 0 := by
  cases fin <;> decide

theorem tread_spec (fin : Ending) (s : St) (off n : ℕ) :
    ∃ m ps k, s.tread fin off n = ({ s with mem := m, pieces := ps }, k) ∧ k ≤ n ∧
      weight ps ≤ weight s.pieces ∧ (0 < k → weight ps < weight s.pieces) := by
  have hfin := result_nonpos fin
  cases h : s.pieces with
  | nil => exact ⟨s.mem, [], fin.result, by rw [tread_nil h, ← h], by omega, le_rfl, by omega⟩
  | cons p ps =>
    refine ⟨_, _, _, tread_cons h off n, by simp, ?_, fun hpos => ?_⟩
    all_goals
      simp only [weight]
      split
    · simp only [List.map_cons, List.sum_cons, List.length_cons]
      omega
    · simp only [List.map_cons, List.sum_cons, List.length_cons, List.length_drop]
      omega
    · simp only [List.map_cons, List.sum_cons, List.length_cons]
      omega
    · simp only [List.length_take] at hpos
      simp only [List.map_cons, List.sum_cons, List.length_cons, List.length_drop]
      omega

theorem grow_spec (s : St) (off : ℕ) : ∃ b, s.grow off = { s with bufsz := b } ∧ s.bufsz ≤ b := by
  unfold St.grow
  split
  · exact ⟨_, rfl, Nat.le_add_right _ _⟩
  · exact ⟨_, rfl, le_rfl⟩

/-- What `readmore` brings: nothing, or bytes behind `off` that fit the buffer. -/
theorem readmore_spec (fin : Ending) (s : St) (off : ℕ) :
    ∃ m ps b n, s.readmore fin off = { s with mem := m, pieces := ps, bufsz := b, nr := n } ∧
      s.bufsz ≤ b ∧ weight ps ≤ weight s.pieces ∧
      (n = -1 ∨ off < n ∧ n ≤ b ∧ weight ps < weight s.pieces) := by
  obtain ⟨b, hb, hsb⟩ := grow_spec s off
  obtain ⟨m, ps, k, hr, hle, hwle, hw⟩ := tread_spec fin { s with bufsz := b } off (b - off)
  refine ⟨m, ps, b, if 0 < k then off + k else -1, ?_, hsb, hwle, ?_⟩
  · rw [St.readmore, hb, hr]
  · split
    · exact .inr ⟨by omega, by omega, hw ‹_›⟩
    · exact .inl rfl

theorem more_spec (fin : Ending) (s : St) (c : Bool) (pc : Pc) :
    (c = false ∧ s.more fin c pc = { s with cp := s.i, pc := pc }) ∨
    (∃ m ps b, s.more fin c pc = { s with mem := m, pieces := ps, bufsz := b, nr := -1, pc := .out } ∧
      s.bufsz ≤ b ∧ weight ps ≤ weight s.pieces) ∨
    ∃ m ps b n, s.more fin c pc =
        { s with mem := m, pieces := ps, bufsz := b, nr := n, cp := s.i, pc := pc } ∧
      s.bufsz ≤ b ∧ s.i < n ∧ n ≤ b ∧ weight ps < weight s.pieces := by
  cases c with
  | false => exact .inl ⟨rfl, rfl⟩
  | true =>
    obtain ⟨m, ps, b, n, hr, hb, hwle, hn⟩ := readmore_spec fin s s.i
    simp only [St.more, if_true, hr]
    rcases hn with rfl | ⟨hlt, hle, hw⟩
    · exact .inr (.inl ⟨m, ps, b, rfl, hb, hwle⟩)
    · refine .inr (.inr ⟨m, ps, b, n, ?_, hb, hlt, hle, hw⟩)
      rw [if_neg (by omega)]

/-! ## Where the scan ends -/

/-- The blank line that is looked for is not in the bytes that have been read. -/
structure Stuck (s : St) : Prop where
  pc : s.pc = .blank
  sync : s.cp = s.i
  lt : s.i < s.nr
  fits : s.nr ≤ s.bufsz
  missing : ∀ k, s.i ≤ k → k + 2 < s.nr →
    ¬ (s.mem k = 10 ∧ s.mem (k + 1) = 13 ∧ s.mem (k + 2) = 10)

/-- The control points at which `cp` is `&bp[i]`. -/
def synced : Pc → Bool
  | .findC | .moreHeader | .compare | .blank | .moreFound _ => true
  | _ => false

/-- The buffer never gets shorter, and what has been read is in it. -/
def Fits (s : St) : Prop := ioBufsz ≤ s.bufsz ∧ s.nr ≤ s.bufsz

structure StatusOK (s : St) : Prop where
  fits : Fits s
  sync : synced s.pc = true → s.cp = s.i
  data : s.pc = .blank → s.i < s.nr
  tail : s.pc = .moreFound false → s.nr ≤ s.i + 2
  frees : s.frees = if s.pc = .returned then 1 else 0

def rank : Pc → ℕ
  | .returned | .fault => 0
  | .out => 1
  | .ippHdr => 2
  | .moreBody => 3
  | .tread => 4
  | .moreFound _ => 5
  | .blank => 6
  | .moreBlank => 7
  | .lenDigits => 8
  | .lenSpace => 9
  | .findC | .moreHeader | .compare => 10
  | .reason => 11
  | .digits => 12
  | .space => 13

def turns (s : St) : ℕ :=
  match s.pc with
  | .space | .digits | .reason | .lenSpace | .lenDigits => s.bufsz - s.cp
  | .findC => 3 * (s.bufsz - s.cp) + 2
  | .moreHeader => 3 * (s.bufsz - s.cp) + 1
  | .compare => 3 * (s.bufsz - s.cp)
  | .blank => (s.nr - s.i).toNat
  | _ => 0

def work (s : St) : ℕ ×ₗ ℕ ×ₗ ℕ := toLex (weight s.pieces, toLex (rank s.pc, turns s))

theorem work_lt : work t < work s ↔ weight t.pieces < weight s.pieces ∨
    weight t.pieces = weight s.pieces ∧ (rank t.pc < rank s.pc ∨
      rank t.pc = rank s.pc ∧ turns t < turns s) := by
  simp only [work, Prod.Lex.toLex_lt_toLex]

def Settled (s : St) : Prop := s.pc = .returned ∧ s.frees = 1 ∨ s.pc = .fault ∨ Stuck s

/-- The state after a step is settled, or it is in order and nearer to the end. -/
def Nearer (s t : St) : Prop := Settled t ∨ StatusOK t ∧ work t < work s

theorem nearer_loaded {k : ℕ} {f : Byte → St} (h : k < s.bufsz → Nearer s (f (s.mem k))) :
    Nearer s (s.loaded k f) := by
  rcases loaded_cases s k f with ⟨hk, he⟩ | ⟨-, he⟩
  · rw [he]
    exact h hk
  · rw [he]
    exact .inl (.inr (.inl rfl))

theorem nearer_mk (hs : StatusOK s) (hret : s.pc ≠ .returned) (hret' : t.pc ≠ .returned)
    (hfits : Fits t) (hfrees : t.frees = s.frees) (hsync : synced t.pc = true → t.cp = t.i)
    (hdata : t.pc = .blank → t.i < t.nr) (htail : t.pc = .moreFound false → t.nr ≤ t.i + 2)
    (hwork : work t < work s) : Nearer s t := by
  refine .inr ⟨⟨hfits, hsync, hdata, htail, ?_⟩, hwork⟩
  rw [if_neg hret', hfrees, hs.frees, if_neg hret]

theorem nearer_plain (hs : StatusOK s) (hret : s.pc ≠ .returned) (hret' : t.pc ≠ .returned)
    (hplain : synced t.pc = false) (hfits : Fits t) (hfrees : t.frees = s.frees)
    (hwork : work t < work s) : Nearer s t := by
  refine nearer_mk hs hret hret' hfits hfrees ?_ ?_ ?_ hwork
  · intro h
    rw [hplain] at h
    cases h
  · intro h
    rw [h] at hplain
    cases hplain
  · intro h
    rw [h] at hplain
    cases hplain

theorem work_of_rank (hp : t.pieces = s.pieces) (hr : rank t.pc < rank s.pc) : work t < work s :=
  work_lt.mpr (.inr ⟨by rw [hp], .inl hr⟩)

theorem work_of_turns (hp : t.pieces = s.pieces) (hr : rank t.pc = rank s.pc)
    (ht : turns t < turns s) : work t < work s :=
  work_lt.mpr (.inr ⟨by rw [hp], .inr ⟨hr, ht⟩⟩)

theorem nearer_more (hs : StatusOK s) (hret : s.pc ≠ .returned) (hrank : 1 < rank s.pc) {c : Bool}
    {pc : Pc} (hpc : pc ≠ .returned) (htail : pc ≠ .moreFound false)
    (hno : c = false → Nearer s { s with cp := s.i, pc := pc }) : Nearer s (s.more fin c pc) := by
  rcases more_spec fin s c pc with ⟨hc, he⟩ | ⟨m, ps, b, he, hb, hw⟩ | ⟨m, ps, b, n, he, hb, hlt, hle, hw⟩
  · rw [he]
    exact hno hc
  · rw [he]
    refine nearer_plain hs hret (by simp) rfl ⟨le_trans hs.fits.1 hb, ?_⟩ rfl ?_
    · show (-1 : ℤ) ≤ b
      omega
    · refine work_lt.mpr ?_
      rcases Nat.lt_or_eq_of_le hw with hw | hw
      · exact .inl hw
      · exact .inr ⟨hw, .inl hrank⟩
  · rw [he]
    exact nearer_mk hs hret hpc ⟨le_trans hs.fits.1 hb, hle⟩ rfl (fun _ => rfl) (fun _ => hlt)
      (fun h => absurd h htail) (work_lt.mpr (.inl hw))

theorem nearer_scan {c : Byte → Prop} [DecidablePred c] {f : Byte → St} (hs : StatusOK s)
    (hret : s.pc ≠ .returned) (hplain : synced s.pc = false)
    (hturns : ∀ t : St, t.pc = s.pc → turns t = t.bufsz - t.cp)
    (hend : ∀ b, ¬ c b → Nearer s (f b)) :
    Nearer s (s.loaded s.cp fun b => if c b then s.advance else f b) := by
  refine nearer_loaded fun hk => ?_
  split
  · refine nearer_plain hs hret hret hplain hs.fits rfl (work_of_turns rfl rfl ?_)
    rw [hturns s rfl, hturns s.advance rfl]
    simp only [St.advance]
    omega
  · exact hend _ ‹_›

theorem nearer_afterReason (hs : StatusOK s) (hpc : s.pc = .reason) : Nearer s (afterReason s) := by
  have hret : s.pc ≠ .returned := by simp [hpc]
  simp only [afterReason]
  split
  · exact nearer_plain hs hret (by simp [St.goto]) rfl hs.fits rfl
      (work_of_rank rfl (by simp [St.goto, rank, hpc]))
  · split
    · exact nearer_mk hs hret (by simp) hs.fits rfl (fun _ => rfl) (by simp) (by simp)
        (work_of_rank rfl (by simp [rank, hpc]))
    · split
      · exact nearer_plain hs hret (by simp) rfl hs.fits rfl (work_of_rank rfl (by simp [rank, hpc]))
      · exact .inl (.inr (.inl rfl))

theorem nearer_lookBlank (hs : StatusOK s) (hpc : s.pc = .blank) (hlt : s.i < s.nr - 2) :
    Nearer s (lookBlank s) := by
  have hret : s.pc ≠ .returned := by simp [hpc]
  have hsync : s.cp = s.i := hs.sync (by rw [hpc]; rfl)
  have hon : Nearer s { s with cp := s.cp + 1, i := s.i + 1 } := by
    refine nearer_mk hs hret hret hs.fits rfl (fun _ => by simp [hsync]) (fun _ => ?_)
      (by simp [hpc]) (work_of_turns rfl rfl ?_)
    · simp only
      omega
    · simp only [turns, hpc]
      omega
  simp only [lookBlank]
  refine nearer_loaded fun _ => ?_
  split
  · exact hon
  · refine nearer_loaded fun _ => ?_
    split
    · exact hon
    · refine nearer_loaded fun _ => ?_
      split
      · exact hon
      · exact nearer_mk hs hret (by simp) hs.fits rfl (fun _ => by simp [hsync]) (by simp) (by simp)
          (work_of_rank rfl (by simp [rank, hpc]))

/-- Back to the search with one or two bytes left, which it never takes. -/
theorem stuck_of_tail (hs : StatusOK s) (hpc : s.pc = .moreFound false) (hlt : s.i < s.nr) :
    Stuck { s with cp := s.i, pc := .blank } := by
  have htail := hs.tail hpc
  refine ⟨rfl, rfl, hlt, hs.fits.2, fun k hk hk2 => ?_⟩
  simp only at hk hk2
  omega

theorem nearer_compare (hs : StatusOK s) (hpc : s.pc = .compare) :
    ∃ t, step jobid fin s = some t ∧ Nearer s t := by
  have hret : s.pc ≠ .returned := by simp [hpc]
  have hsync : s.cp = s.i := hs.sync (by rw [hpc]; rfl)
  simp only [step, hpc]
  split
  · exact ⟨_, rfl, .inl (.inr (.inl rfl))⟩
  · exact ⟨_, rfl, nearer_plain hs hret (by simp) rfl hs.fits rfl
      (work_of_rank rfl (by simp [rank, hpc]))⟩
  · rename_i hcmp
    -- a comparison that fails has read a byte
    have hk : s.cp < s.bufsz := by
      by_contra hge
      have hnil : s.text s.cp = [] := by
        rw [St.text, Nat.sub_eq_zero_of_le (by omega), Memory.slice_zero]
      rw [hnil] at hcmp
      exact absurd hcmp (by decide +kernel)
    refine ⟨_, rfl, nearer_mk hs hret (by simp) hs.fits rfl (fun _ => by simp [hsync]) (by simp)
      (by simp) (work_of_turns rfl (by simp [rank, hpc]) ?_)⟩
    simp only [turns, hpc]
    omega

theorem nearer_tread (hs : StatusOK s) (hpc : s.pc = .tread) :
    ∃ t, step jobid fin s = some t ∧ Nearer s t := by
  have hret : s.pc ≠ .returned := by simp [hpc]
  obtain ⟨m, ps, k, hr, hle, hwle, hw⟩ := tread_spec fin s 0 ioBufsz
  simp only [step, hpc, hr]
  split
  · refine ⟨_, rfl, nearer_plain hs hret (by simp) rfl ⟨hs.fits.1, le_trans hle ?_⟩ rfl
      (work_lt.mpr (.inl (hw ‹_›)))⟩
    exact_mod_cast hs.fits.1
  · refine ⟨_, rfl, nearer_plain hs hret (by simp) rfl ⟨hs.fits.1, ?_⟩ rfl (work_lt.mpr ?_)⟩
    · simp only
      omega
    · rcases Nat.lt_or_eq_of_le hwle with hwlt | heq
      · exact .inl hwlt
      · exact .inr ⟨heq, .inl (by simp [rank, hpc])⟩

theorem nearer_findC (hs : StatusOK s) (hpc : s.pc = .findC) :
    ∃ t, step jobid fin s = some t ∧ Nearer s t := by
  have hret : s.pc ≠ .returned := by simp [hpc]
  have hsync : s.cp = s.i := hs.sync (by rw [hpc]; rfl)
  simp only [step, hpc]
  refine ⟨_, rfl, nearer_loaded fun hk => ?_⟩
  split
  · refine nearer_mk hs hret (by simp) hs.fits rfl (fun _ => by simp [hsync]) (by simp) (by simp)
      (work_of_turns rfl (by rw [hpc]) ?_)
    simp only [turns, hpc]
    omega
  · refine nearer_mk hs hret (by simp [St.goto]) hs.fits rfl (fun _ => hsync) (by simp [St.goto])
      (by simp [St.goto]) (work_of_turns rfl (by simp [St.goto, rank, hpc]) ?_)
    simp only [turns, hpc, St.goto]
    omega

/-- The loop that looks for the blank line, at its head and at its end. -/
theorem nearer_blank (hs : StatusOK s) (hpc : s.pc = .blank) :
    ∃ t, step jobid fin s = some t ∧ Nearer s t := by
  have hret : s.pc ≠ .returned := by simp [hpc]
  simp only [step, hpc]
  refine ⟨_, rfl, ?_⟩
  split
  · exact nearer_lookBlank hs hpc ‹_›
  · refine nearer_mk hs hret (by simp [St.goto]) hs.fits rfl (fun _ => hs.sync (by rw [hpc]; rfl))
      (by simp [St.goto]) (fun _ => ?_) (work_of_rank rfl (by simp [St.goto, rank, hpc]))
    simp only [St.goto]
    omega

theorem nearer_moreFound {found : Bool} (hs : StatusOK s) (hpc : s.pc = .moreFound found) :
    ∃ t, step jobid fin s = some t ∧ Nearer s t := by
  have hret : s.pc ≠ .returned := by simp [hpc]
  simp only [step, hpc]
  cases found with
  | true =>
    refine ⟨_, rfl, nearer_more hs hret (by simp [rank, hpc]) (by simp) (by simp) fun _ => ?_⟩
    exact nearer_plain hs hret (by simp) rfl hs.fits rfl (work_of_rank rfl (by simp [rank, hpc]))
  | false =>
    refine ⟨_, rfl, nearer_more hs hret (by simp [rank, hpc]) (by simp) (by simp) fun hc => ?_⟩
    exact .inl (.inr (.inr (stuck_of_tail hs hpc (by simpa using hc))))

theorem step_nearer (hs : StatusOK s) (hret : s.pc ≠ .returned) (hfault : s.pc ≠ .fault) :
    ∃ t, step jobid fin s = some t ∧ Nearer s t := by
  -- on to a control point of a lower rank
  have hon : ∀ t : St, t.pc ≠ .returned → synced t.pc = false → t.bufsz = s.bufsz → t.nr = s.nr →
      t.frees = s.frees → t.pieces = s.pieces → rank t.pc < rank s.pc → Nearer s t := by
    intro t hret' hplain hbuf hnr hfrees hpieces hrank
    refine nearer_plain hs hret hret' hplain ?_ hfrees (work_of_rank hpieces hrank)
    rw [Fits, hbuf, hnr]
    exact hs.fits
  cases hpc : s.pc with
  | tread => exact nearer_tread hs hpc
  | space =>
    simp only [step, hpc]
    refine ⟨_, rfl, nearer_scan hs hret (by rw [hpc]; rfl) (fun t ht => by simp [turns, ht, hpc]) ?_⟩
    exact fun b _ => hon _ (by simp) rfl rfl rfl rfl rfl (by simp [rank, hpc])
  | digits =>
    simp only [step, hpc]
    refine ⟨_, rfl, nearer_scan hs hret (by rw [hpc]; rfl) (fun t ht => by simp [turns, ht, hpc]) ?_⟩
    intro b _
    split
    · split
      · exact hon _ (by simp [St.goto]) rfl rfl rfl rfl rfl (by simp [St.goto, rank, hpc])
      · exact .inl (.inr (.inl rfl))
    · exact hon _ (by simp) rfl rfl rfl rfl rfl (by simp [rank, hpc])
  | reason =>
    simp only [step, hpc]
    exact ⟨_, rfl, nearer_scan hs hret (by rw [hpc]; rfl) (fun t ht => by simp [turns, ht, hpc])
      fun _ _ => nearer_afterReason hs hpc⟩
  | findC => exact nearer_findC hs hpc
  | moreHeader =>
    have hsync : s.cp = s.i := hs.sync (by rw [hpc]; rfl)
    simp only [step, hpc]
    refine ⟨_, rfl, nearer_more hs hret (by simp [rank, hpc]) (by simp) (by simp) fun _ => ?_⟩
    refine nearer_mk hs hret (by simp) hs.fits rfl (fun _ => rfl) (by simp) (by simp)
      (work_of_turns rfl (by simp [rank, hpc]) ?_)
    simp only [turns, hpc, hsync]
    omega
  | compare => exact nearer_compare hs hpc
  | lenSpace =>
    simp only [step, hpc]
    refine ⟨_, rfl, nearer_scan hs hret (by rw [hpc]; rfl) (fun t ht => by simp [turns, ht, hpc]) ?_⟩
    exact fun b _ => hon _ (by simp) rfl rfl rfl rfl rfl (by simp [rank, hpc])
  | lenDigits =>
    simp only [step, hpc]
    refine ⟨_, rfl, nearer_scan hs hret (by rw [hpc]; rfl) (fun t ht => by simp [turns, ht, hpc]) ?_⟩
    exact fun b _ => hon _ (by simp [afterLength]) rfl rfl rfl rfl rfl (by simp [afterLength, rank, hpc])
  | moreBlank =>
    simp only [step, hpc]
    refine ⟨_, rfl, nearer_more hs hret (by simp [rank, hpc]) (by simp) (by simp) fun hc => ?_⟩
    exact nearer_mk hs hret (by simp) hs.fits rfl (fun _ => rfl) (fun _ => by simpa using hc)
      (by simp) (work_of_rank rfl (by simp [rank, hpc]))
  | blank => exact nearer_blank hs hpc
  | moreFound found => exact nearer_moreFound hs hpc
  | moreBody =>
    simp only [step, hpc]
    refine ⟨_, rfl, nearer_more hs hret (by simp [rank, hpc]) (by simp) (by simp) fun _ => ?_⟩
    exact hon _ (by simp) rfl rfl rfl rfl rfl (by simp [rank, hpc])
  | ippHdr =>
    simp only [step, hpc, checkIpp]
    split
    · exact ⟨_, rfl, hon _ (by simp) rfl rfl rfl rfl rfl (by simp [rank, hpc])⟩
    · exact ⟨_, rfl, .inl (.inr (.inl rfl))⟩
  | out =>
    have hfrees : s.frees = 0 := by rw [hs.frees, if_neg hret]
    simp only [step, hpc]
    exact ⟨_, rfl, .inl (.inl ⟨rfl, by rw [hfrees]⟩)⟩
  | returned => exact absurd hpc hret
  | fault => exact absurd hpc hfault

theorem statusOK_start (junk : Memory) (pieces : List (List Byte)) : StatusOK (start junk pieces) :=
  ⟨⟨le_rfl, Int.natCast_nonneg _⟩, by simp [start, synced], by simp [start], by simp [start], rfl⟩

theorem settles (jobid : ℤ) (fin : Ending) (junk : Memory) (pieces : List (List Byte)) :
    ∃ t, Reaches (step jobid fin) (start junk pieces) t ∧ Settled t := by
  refine ends_of_work work (fun s hs => ?_) (statusOK_start junk pieces)
  by_cases hret : s.pc = .returned
  · exact .inl (.inl ⟨hret, by rw [hs.frees, if_pos hret]⟩)
  · by_cases hfault : s.pc = .fault
    · exact .inl (.inr (.inl hfault))
    · exact .inr (step_nearer hs hret hfault)

/-! ## A stuck run goes on for ever -/

/-- The two control points between which a stuck run goes back and forth. -/
def Spinning (s : St) : Prop :=
  Stuck s ∨ s.pc = .moreFound false ∧ s.i < s.nr ∧ s.nr ≤ s.i + 2 ∧ s.nr ≤ s.bufsz

/-- No blank line starts at `cp`. -/
theorem lookBlank_pass (hroom : s.cp + 2 < s.bufsz)
    (hno : ¬ (s.mem s.cp = 10 ∧ s.mem (s.cp + 1) = 13 ∧ s.mem (s.cp + 2) = 10)) :
    lookBlank s = { s with cp := s.cp + 1, i := s.i + 1 } := by
  have h₀ : s.cp < s.bufsz := by omega
  have h₁ : s.cp + 1 < s.bufsz := by omega
  simp only [lookBlank, St.loaded, h₀, h₁, hroom, if_true]
  split
  · rfl
  · split
    · rfl
    · split
      · rfl
      · simp_all

theorem lookBlank_missing (h : Stuck s) (hlt : s.i < s.nr - 2) :
    lookBlank s = { s with cp := s.cp + 1, i := s.i + 1 } := by
  have hmissing := h.missing s.i le_rfl (by omega)
  have hfits := h.fits
  rw [← h.sync] at hmissing hlt
  exact lookBlank_pass (by omega) hmissing

theorem spinning_step (h : Spinning s) (hstep : step jobid fin s = some t) : Spinning t := by
  rcases h with h | ⟨hpc, hlt, htail, hfits⟩
  · simp only [step, h.pc, Option.some.injEq] at hstep
    split at hstep
    · rename_i hlt
      rw [lookBlank_missing h hlt] at hstep
      subst hstep
      refine .inl ⟨h.pc, by simp [h.sync], ?_, h.fits, fun k hk => h.missing k ?_⟩
      · simp only
        omega
      · simp only at hk
        omega
    · subst hstep
      refine .inr ⟨rfl, h.lt, ?_, h.fits⟩
      simp only [St.goto]
      omega
  · have hc : decide (s.nr ≤ s.i) = false := by simpa using hlt
    simp only [step, hpc, hc, St.more, Option.some.injEq] at hstep
    subst hstep
    refine .inl ⟨rfl, rfl, hlt, hfits, fun k hk hk2 => ?_⟩
    change s.i ≤ k at hk
    change (k : ℤ) + 2 < s.nr at hk2
    omega

theorem Spinning.pc_ne (h : Spinning s) : s.pc ≠ .returned := by
  rcases h with h | h
  · simp [h.pc]
  · simp [h.1]

theorem stuck_never_returns (h : Stuck s) (hrun : Reaches (step jobid fin) s t) :
    t.pc ≠ .returned :=
  (reaches_invariant (I := Spinning) hrun (.inl h) fun _ _ => spinning_step).pc_ne

theorem step_returned (hpc : s.pc = .returned) : step jobid fin s = none := by simp only [step, hpc]

theorem never_returns_of_stuck {u : St} (hs : Reaches (step jobid fin) u s) (h : Stuck s)
    (ht : Reaches (step jobid fin) u t) : t.pc ≠ .returned := by
  intro hpc
  rcases reaches_total hs ht with hst | hts
  · exact stuck_never_returns h hst hpc
  · rw [← reaches_final (step_returned hpc) hts, h.pc] at hpc
    cases hpc

end PrinterStatus
