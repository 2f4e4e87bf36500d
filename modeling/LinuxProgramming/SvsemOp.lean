import LinuxProgramming.CNumbers
import LinuxProgramming.SeparatedText

/-! # The operations of `svsem_op`

`parseOps` reads `semnum{+,-,=}value` with flag letters behind it, separated by commas, and stores
both numbers in fields of 16 bits. A pointer into the argument is what stands from there on. -/
namespace SvsemOp

open CStrings CNumbers SeparatedText

def maxSemops : ℕ := 1000

def ipcNowait : Int16 := 2048
def semUndo : Int16 := 4096

/-- `struct sembuf`. -/
structure Sembuf where
  semNum : UInt16
  semOp : Int16
  semFlg : Int16
  deriving DecidableEq, Repr

/-- The calls of `cmdLineErr` and `fatal`. -/
inductive OpError where
  | tooMany
  | trailingComma
  | initialDigit
  | sign
  | digitAfter (sign : Byte)
  | zero
  | badTrailing (c : Byte)
  deriving DecidableEq, Repr

def OpError.message (arg : List Byte) : OpError → List Byte
  | .tooMany => ascii "Too many operations (maximum=" ++ decimal maxSemops ++ ascii "): \"" ++ arg ++
      ascii "\"\n"
  | .trailingComma => ascii "Trailing comma or empty argument: \"" ++ arg ++ ascii "\""
  | .initialDigit => ascii "Expected initial digit: \"" ++ arg ++ ascii "\"\n"
  | .sign => ascii "Expected '+', '-', or '=' in \"" ++ arg ++ ascii "\"\n"
  | .digitAfter c => ascii "Expected digit after '" ++ c :: ascii "' in \"" ++ arg ++ ascii "\"\n"
  | .zero => ascii "Expected \"=0\" in \"" ++ arg ++ ascii "\"\n"
  | .badTrailing c => ascii "Bad trailing character (" ++ c :: ascii ") in \"" ++ arg ++ ascii "\"\n"

def scanFlags (semFlg : Int16) : List Byte → Int16 × List Byte
  | [] => (semFlg, [])
  | b :: flags =>
    if b = 110 then scanFlags (semFlg ||| ipcNowait) flags
    else if b = 117 then scanFlags (semFlg ||| semUndo) flags
    else (semFlg, b :: flags)

def parseValue (semNum : UInt16) (sign : Byte) (value : List Byte) : Except OpError Sembuf :=
  let v := strtol value
  let semOp : Int16 := if sign = 45 then -Int16.ofInt v.1 else Int16.ofInt v.1
  if sign = 61 ∧ semOp ≠ 0 then .error .zero
  else
    match scanFlags 0 v.2 with
    | (semFlg, []) => .ok ⟨semNum, semOp, semFlg⟩
    | (semFlg, c :: _) => if c ≠ 44 then .error (.badTrailing c) else .ok ⟨semNum, semOp, semFlg⟩

/-- One round of the loop of `parseOps`, up to the search for the comma. -/
def parseOp : List Byte → Except OpError Sembuf
  | [] => .error .trailingComma
  | c :: s =>
    if isDigit c = false then .error .initialDigit
    else
      let num := strtol (c :: s)
      match num.2 with
      | [] => .error .sign
      | sign :: value =>
        if sign ∉ [43, 45, 61] then .error .sign
        else if isDigit (value.headD 0) = false then .error (.digitAfter sign)
        else parseValue (UInt16.ofInt num.1) sign value

/-- The loop, with room for `room` more operations in `sops`. -/
def parseLoop : ℕ → List Byte → Except OpError (List Sembuf)
  | 0, _ => .error .tooMany
  | room + 1, remaining =>
    match parseOp remaining with
    | .error e => .error e
    | .ok op =>
      match strchr 44 remaining with
      | none => .ok [op]
      | some comma => (parseLoop room (remaining.drop (comma + 1))).map (op :: ·)

def parseOps (arg : List Byte) : Except OpError (List Sembuf) := parseLoop maxSemops arg

/-! ## What the usage text says -/

inductive Sign where
  | plus | minus | equal
  deriving DecidableEq, Repr

def Sign.byte : Sign → Byte
  | .plus => 43
  | .minus => 45
  | .equal => 61

inductive Flag where
  | nowait | undo
  deriving DecidableEq, Repr

def Flag.byte : Flag → Byte
  | .nowait => 110
  | .undo => 117

def Flag.bit : Flag → Int16
  | .nowait => ipcNowait
  | .undo => semUndo

/-- One operation as it is written. -/
structure Field where
  num : Digits
  sign : Sign
  value : Digits
  flags : List Flag
  deriving DecidableEq

def Field.text (f : Field) : List Byte :=
  f.num.text ++ f.sign.byte :: (f.value.text ++ f.flags.map Flag.byte)

def opsText (fields : List Field) : List Byte := [(44 : Byte)].intercalate (fields.map Field.text)

def Field.signedValue (f : Field) : ℤ :=
  match f.sign with
  | .minus => -(f.value.value : ℤ)
  | _ => f.value.value

/-- The operation is the one that is written. -/
structure Field.Denotes (f : Field) (op : Sembuf) : Prop where
  num : op.semNum.toNat = f.num.value
  value : op.semOp.toInt = f.signedValue
  zero : f.sign = .equal → f.value.value = 0
  flags : op.semFlg =
    (if .nowait ∈ f.flags then ipcNowait else 0) ||| (if .undo ∈ f.flags then semUndo else 0)

def Field.Fits (f : Field) : Prop :=
  f.num.value < 65536 ∧
    match f.sign with
    | .plus => f.value.value < 32768
    | .minus => f.value.value ≤ 32768
    | .equal => f.value.value = 0

def Field.stored (f : Field) : Sembuf where
  semNum := UInt16.ofInt (clampLong f.num.value)
  semOp :=
    match f.sign with
    | .minus => -Int16.ofInt (clampLong f.value.value)
    | _ => Int16.ofInt (clampLong f.value.value)
  semFlg := f.flags.foldl (fun flg g => flg ||| g.bit) 0

/-- `=` is followed by a number of which 16 bits are 0. -/
def Field.Accepted (f : Field) : Prop := f.sign = .equal → Int16.ofInt (clampLong f.value.value) = 0

def EndsField (rest : List Byte) : Prop := ∀ b ∈ rest.head?, b = 44

/-! ## One field -/

variable {f : Field} {s rest : List Byte} {op : Sembuf}

theorem Sign.byte_cases (sign : Sign) :
    isDigit sign.byte = false ∧ sign.byte ∈ [(43 : Byte), 45, 61] ∧ (sign.byte = 45 ↔ sign = .minus) ∧
      (sign.byte = 61 ↔ sign = .equal) ∧ sign.byte ≠ 44 := by
  cases sign <;> decide

theorem Sign.exists_byte {b : Byte} (h : b ∈ [(43 : Byte), 45, 61]) : ∃ sign : Sign, sign.byte = b := by
  simp only [List.mem_cons, List.not_mem_nil, or_false] at h
  rcases h with rfl | rfl | rfl
  · exact ⟨.plus, rfl⟩
  · exact ⟨.minus, rfl⟩
  · exact ⟨.equal, rfl⟩

theorem Flag.isDigit_byte (g : Flag) : isDigit g.byte = false := by
  cases g <;> decide

theorem Flag.byte_ne_comma (g : Flag) : g.byte ≠ 44 := by
  cases g <;> decide

theorem scanFlags_append (hrest : EndsField rest) (flags : List Flag) (flg : Int16) :
    scanFlags flg (flags.map Flag.byte ++ rest) =
      (flags.foldl (fun flg g => flg ||| g.bit) flg, rest) := by
  induction flags generalizing flg with
  | nil =>
    cases rest with
    | nil => rfl
    | cons b rest =>
      obtain rfl := hrest b rfl
      rfl
  | cons g flags ih =>
    cases g
    · exact ih (flg ||| ipcNowait)
    · exact ih (flg ||| semUndo)

theorem scanFlags_split (flg : Int16) (s : List Byte) :
    ∃ flags : List Flag, s = flags.map Flag.byte ++ (scanFlags flg s).2 := by
  induction s generalizing flg with
  | nil => exact ⟨[], rfl⟩
  | cons b s ih =>
    unfold scanFlags
    split
    · obtain ⟨flags, hs⟩ := ih (flg ||| ipcNowait)
      rename_i hb
      refine ⟨.nowait :: flags, ?_⟩
      rw [List.map_cons, List.cons_append, ← hs, hb]
      rfl
    · split
      · obtain ⟨flags, hs⟩ := ih (flg ||| semUndo)
        rename_i hb
        refine ⟨.undo :: flags, ?_⟩
        rw [List.map_cons, List.cons_append, ← hs, hb]
        rfl
      · exact ⟨[], rfl⟩

theorem head_flags (hrest : EndsField rest) (flags : List Flag) :
    ∀ b ∈ (flags.map Flag.byte ++ rest).head?, isDigit b = false := by
  cases flags with
  | nil =>
    intro b hb
    rw [hrest b hb]
    decide
  | cons g flags =>
    intro b hb
    obtain rfl : g.byte = b := by simpa using hb
    exact g.isDigit_byte

theorem head_sign (sign : Sign) (s : List Byte) :
    ∀ b ∈ (sign.byte :: s).head?, isDigit b = false := by
  intro b hb
  obtain rfl : sign.byte = b := by simpa using hb
  exact sign.byte_cases.1

theorem parseValue_text (f : Field) (hrest : EndsField rest) (hf : f.Accepted) :
    parseValue f.stored.semNum f.sign.byte (f.value.text ++ (f.flags.map Flag.byte ++ rest)) =
      .ok f.stored := by
  have hop : (if f.sign.byte = 45 then -Int16.ofInt (clampLong f.value.value)
      else Int16.ofInt (clampLong f.value.value)) = f.stored.semOp := by
    unfold Field.stored
    cases f.sign <;> rfl
  have hzero : ¬(f.sign.byte = 61 ∧ f.stored.semOp ≠ 0) := by
    rintro ⟨hsign, hne⟩
    have hequal := f.sign.byte_cases.2.2.2.1.mp hsign
    refine hne (Eq.trans ?_ (hf hequal))
    simp only [Field.stored, hequal]
  simp only [parseValue, f.value.strtol_append (head_flags hrest f.flags), hop, if_neg hzero,
    scanFlags_append hrest]
  cases rest with
  | nil => rfl
  | cons b rest =>
    obtain rfl := hrest b rfl
    rfl

theorem parseOp_text (f : Field) (rest : List Byte) (hrest : EndsField rest) (hf : f.Accepted) :
    parseOp (f.text ++ rest) = .ok f.stored := by
  obtain ⟨c, s, hs, hc⟩ := f.num.exists_cons
  obtain ⟨v, t, ht, hv⟩ := f.value.exists_cons
  have hnum : strtol (c :: (s ++ f.sign.byte :: (f.value.text ++ (f.flags.map Flag.byte ++ rest)))) =
      (clampLong f.num.value, f.sign.byte :: (f.value.text ++ (f.flags.map Flag.byte ++ rest))) := by
    have := f.num.strtol_append (head_sign f.sign (f.value.text ++ (f.flags.map Flag.byte ++ rest)))
    rwa [hs, List.cons_append] at this
  have htext : f.text ++ rest =
      c :: (s ++ f.sign.byte :: (f.value.text ++ (f.flags.map Flag.byte ++ rest))) := by
    simp [Field.text, hs]
  have hhead : (f.value.text ++ (f.flags.map Flag.byte ++ rest)).headD 0 = v := by
    rw [ht]
    rfl
  rw [htext]
  simp only [parseOp, hnum, hhead, hc, hv, Bool.true_eq_false, if_false, f.sign.byte_cases.2.1,
    not_true_eq_false]
  exact parseValue_text f hrest hf

theorem parseValue_ok {semNum : UInt16} {sign : Sign} {value : Digits}
    (h : parseValue semNum sign.byte (value.text ++ rest) = .ok op)
    (hrest : ∀ b ∈ rest.head?, isDigit b = false) :
    ∃ (flags : List Flag) (rest' : List Byte), rest = flags.map Flag.byte ++ rest' ∧ EndsField rest' ∧
      (sign = .equal → Int16.ofInt (clampLong value.value) = 0) := by
  simp only [parseValue, value.strtol_append hrest] at h
  by_cases hzero : sign.byte = 61 ∧
      (if sign.byte = 45 then -Int16.ofInt (clampLong value.value)
        else Int16.ofInt (clampLong value.value)) ≠ 0
  · rw [if_pos hzero] at h
    cases h
  · rw [if_neg hzero] at h
    obtain ⟨flags, hflags⟩ := scanFlags_split 0 rest
    refine ⟨flags, (scanFlags 0 rest).2, hflags, ?_, ?_⟩
    · intro b hb
      split at h
      · rename_i heq
        rw [heq] at hb
        cases hb
      · rename_i heq
        rw [heq] at hb
        split at h
        · cases h
        · rename_i hcomma
          obtain rfl := Option.some.inj hb
          exact not_not.mp hcomma
    · rintro rfl
      by_contra hne
      exact hzero ⟨rfl, hne⟩

theorem head_dropWhile (s : List Byte) : ∀ b ∈ (s.dropWhile isDigit).head?, isDigit b = false := by
  intro b hb
  have hnot := List.head?_dropWhile_not isDigit s
  rw [Option.mem_def.mp hb] at hnot
  simpa using hnot

theorem parseOp_ok (h : parseOp s = .ok op) :
    ∃ f rest, s = Field.text f ++ rest ∧ EndsField rest ∧ f.Accepted := by
  cases s with
  | nil => cases h
  | cons c s =>
    rw [parseOp] at h
    split at h
    · cases h
    · rename_i hc
      rw [Bool.not_eq_false] at hc
      have hnum := (Digits.of c s hc).strtol_append (head_dropWhile (c :: s))
      rw [Digits.of_append] at hnum
      simp only [hnum] at h
      split at h
      · cases h
      · rename_i sign value hrest
        split at h
        · cases h
        · rename_i hsign
          obtain ⟨sign, rfl⟩ := Sign.exists_byte (not_not.mp hsign)
          split at h
          · cases h
          · rename_i hv
            rw [Bool.not_eq_false] at hv
            cases value with
            | nil => cases hv
            | cons v value =>
              have hv' : isDigit v = true := hv
              have hsplit := Digits.of_append c s hc
              have hsplit' := Digits.of_append v value hv'
              rw [← hsplit'] at h
              obtain ⟨flags, rest, hflags, hends, hzero⟩ := parseValue_ok h (head_dropWhile _)
              refine ⟨⟨Digits.of c s hc, sign, Digits.of v value hv', flags⟩, rest, ?_, hends, hzero⟩
              rw [hrest, ← hsplit', hflags] at hsplit
              simp only [Field.text, List.append_assoc, List.cons_append]
              exact hsplit.symm

/-! ## The list -/

theorem isDigit_of_mem {d : Digits} {b : Byte} (hb : isDigit b = false) : b ∉ d.text := by
  intro hmem
  rw [d.digits b hmem] at hb
  cases hb

theorem notMem_text (f : Field) {b : Byte} (hdigit : isDigit b = false)
    (hsign : ∀ sign : Sign, sign.byte ≠ b) (hflag : ∀ g : Flag, g.byte ≠ b) : b ∉ f.text := by
  intro hb
  simp only [Field.text, List.mem_append, List.mem_cons, List.mem_map] at hb
  rcases hb with hb | rfl | hb | ⟨g, -, rfl⟩
  · exact isDigit_of_mem hdigit hb
  · exact hsign _ rfl
  · exact isDigit_of_mem hdigit hb
  · exact hflag _ rfl

theorem comma_notMem_text (f : Field) : (44 : Byte) ∉ f.text :=
  notMem_text f (by decide) (fun sign => by cases sign <;> decide) (fun g => by cases g <;> decide)

theorem nul_notMem_text (f : Field) : (0 : Byte) ∉ f.text :=
  notMem_text f (by decide) (fun sign => by cases sign <;> decide) (fun g => by cases g <;> decide)

theorem strchr_text_comma (f : Field) (rest : List Byte) :
    strchr 44 (f.text ++ 44 :: rest) = some f.text.length :=
  strchr_append (comma_notMem_text f) (nul_notMem_text f) rest

theorem opsText_singleton (f : Field) : opsText [f] = f.text := by
  simp [opsText, List.intercalate]

theorem opsText_cons (f : Field) {fields : List Field} (h : fields ≠ []) :
    opsText (f :: fields) = f.text ++ 44 :: opsText fields :=
  intercalate_cons 44 f.text (by simpa using h)

/-- A list of fields is the last one, or a field, a comma and more. -/
theorem parseLoop_singleton (room : ℕ) (hf : f.Accepted) :
    parseLoop (room + 1) f.text = .ok [f.stored] := by
  have hop := parseOp_text f [] (fun _ hb => by cases hb) hf
  rw [List.append_nil] at hop
  rw [parseLoop, hop, strchr_eq_none (comma_notMem_text f)]

theorem parseLoop_cons (room : ℕ) (hf : f.Accepted) (rest : List Byte) :
    parseLoop (room + 1) (f.text ++ 44 :: rest) = (parseLoop room rest).map (f.stored :: ·) := by
  have hop := parseOp_text f (44 :: rest) (fun _ hb => (Option.some.inj hb).symm) hf
  rw [parseLoop, hop]
  simp only [strchr_text_comma, drop_append_cons]

theorem parseLoop_text {room : ℕ} {fields : List Field} (hne : fields ≠ [])
    (hlen : fields.length ≤ room) (hf : ∀ f ∈ fields, f.Accepted) :
    parseLoop room (opsText fields) = .ok (fields.map Field.stored) := by
  induction fields generalizing room with
  | nil => exact absurd rfl hne
  | cons f fields ih =>
    obtain ⟨room, rfl⟩ := Nat.exists_eq_add_one_of_ne_zero (show room ≠ 0 by
      rw [List.length_cons] at hlen
      omega)
    by_cases hnil : fields = []
    · subst hnil
      rw [opsText_singleton, parseLoop_singleton room (hf f List.mem_cons_self)]
      rfl
    · rw [opsText_cons f hnil, parseLoop_cons room (hf f List.mem_cons_self),
        ih hnil (Nat.le_of_succ_le_succ hlen) fun g hg => hf g (List.mem_cons_of_mem _ hg)]
      rfl

theorem parseLoop_ok {room : ℕ} {ops : List Sembuf} (h : parseLoop room s = .ok ops) :
    ∃ fields : List Field, fields ≠ [] ∧ fields.length ≤ room ∧ s = opsText fields ∧
      ∀ f ∈ fields, f.Accepted := by
  induction room generalizing s ops with
  | zero => cases h
  | succ room ih =>
    rw [parseLoop] at h
    split at h
    · cases h
    · rename_i op hop
      obtain ⟨f, rest, rfl, hends, hf⟩ := parseOp_ok hop
      cases rest with
      | nil =>
        refine ⟨[f], by simp, by simp, ?_, fun g hg => by rwa [List.mem_singleton.mp hg]⟩
        rw [List.append_nil, opsText_singleton]
      | cons b rest =>
        obtain rfl := hends b rfl
        have hloop : parseLoop (room + 1) (f.text ++ 44 :: rest) = .ok ops := by
          rw [parseLoop, hop]
          exact h
        rw [parseLoop_cons room hf] at hloop
        cases hrest : parseLoop room rest with
        | error e =>
          rw [hrest] at hloop
          cases hloop
        | ok ops' =>
          obtain ⟨fields, hne, hlen, rfl, hfs⟩ := ih hrest
          refine ⟨f :: fields, by simp, by simpa using hlen, (opsText_cons f hne).symm, ?_⟩
          intro g hg
          rcases List.mem_cons.mp hg with rfl | hg
          · exact hf
          · exact hfs g hg

/-! ## The text determines its fields -/

theorem Digits_ext {d e : Digits} (h : d.text = e.text) : d = e := by
  cases d
  cases e
  cases h
  rfl

theorem digits_append_inj {d e : Digits} {s t : List Byte} (h : d.text ++ s = e.text ++ t)
    (hs : ∀ b ∈ s.head?, isDigit b = false) (ht : ∀ b ∈ t.head?, isDigit b = false) :
    d = e ∧ s = t := by
  constructor
  · refine Digits_ext ?_
    rw [← d.takeWhile_append hs, h, e.takeWhile_append ht]
  · rw [← d.dropWhile_append hs, h, e.dropWhile_append ht]

theorem flags_append_inj {flags flags' : List Flag} {s t : List Byte}
    (h : flags.map Flag.byte ++ s = flags'.map Flag.byte ++ t) (hs : EndsField s) (ht : EndsField t) :
    flags = flags' ∧ s = t := by
  induction flags generalizing flags' with
  | nil =>
    cases flags' with
    | nil => exact ⟨rfl, h⟩
    | cons g flags' =>
      exact absurd (hs g.byte (by rw [List.map_nil, List.nil_append] at h; rw [h]; rfl)) g.byte_ne_comma
  | cons g flags ih =>
    cases flags' with
    | nil =>
      exact absurd (ht g.byte (by rw [List.map_nil, List.nil_append] at h; rw [← h]; rfl)) g.byte_ne_comma
    | cons g' flags' =>
      simp only [List.map_cons, List.cons_append, List.cons.injEq] at h
      obtain ⟨rfl, rfl⟩ := ih h.2
      have hg : g = g' := by
        revert h
        cases g <;> cases g' <;> simp [Flag.byte]
      exact ⟨by rw [hg], rfl⟩

theorem field_append_inj {f g : Field} {s t : List Byte} (h : f.text ++ s = g.text ++ t)
    (hs : EndsField s) (ht : EndsField t) : f = g ∧ s = t := by
  simp only [Field.text, List.append_assoc, List.cons_append] at h
  obtain ⟨hnum, h⟩ := digits_append_inj h (head_sign _ _) (head_sign _ _)
  simp only [List.cons.injEq] at h
  obtain ⟨hvalue, h'⟩ := digits_append_inj h.2 (head_flags hs _) (head_flags ht _)
  obtain ⟨hflags, rfl⟩ := flags_append_inj h' hs ht
  have hsign : f.sign = g.sign := by
    have := h.1
    revert this
    cases f.sign <;> cases g.sign <;> simp [Sign.byte]
  cases f
  cases g
  simp only at hnum hsign hvalue hflags
  subst hnum hsign hvalue hflags
  exact ⟨rfl, rfl⟩

theorem Field.text_injective : Function.Injective Field.text := by
  intro f g h
  have hends : EndsField [] := fun _ hb => by cases hb
  exact (field_append_inj (s := []) (t := []) (by rw [h]) hends hends).1

theorem opsText_injective {fields fields' : List Field} (hne : fields ≠ []) (hne' : fields' ≠ [])
    (h : opsText fields = opsText fields') : fields = fields' := by
  have hsplit (fields : List Field) (hne : fields ≠ []) :
      (opsText fields).splitOn 44 = fields.map Field.text := by
    refine List.splitOn_intercalate 44 ?_ (by simpa using hne)
    intro l hl
    obtain ⟨f, -, rfl⟩ := List.mem_map.mp hl
    exact comma_notMem_text f
  refine List.map_injective_iff.mpr Field.text_injective ?_
  rw [← hsplit fields hne, h, hsplit fields' hne']

/-! ## What is stored -/

theorem foldl_bits (flags : List Flag) (flg : Int16) :
    flags.foldl (fun flg g => flg ||| g.bit) flg =
      flg ||| ((if .nowait ∈ flags then ipcNowait else 0) ||| (if .undo ∈ flags then semUndo else 0)) := by
  induction flags generalizing flg with
  | nil => simp
  | cons g flags ih =>
    rw [List.foldl_cons, ih, Int16.or_assoc]
    congr 1
    by_cases hn : Flag.nowait ∈ flags <;> by_cases hu : Flag.undo ∈ flags <;> cases g <;>
      simp [hn, hu, Flag.bit] <;> decide

theorem Field.denotes_stored_iff (f : Field) : f.Denotes f.stored ↔ f.Fits := by
  have hflags : f.stored.semFlg = _ := (foldl_bits f.flags 0).trans Int16.zero_or
  constructor
  · intro h
    refine ⟨(uint16_keeps_iff _).mp h.num, ?_⟩
    have hvalue := h.value
    have hzero := h.zero
    cases hsign : f.sign with
    | plus =>
      simp only [Field.stored, Field.signedValue, hsign] at hvalue
      exact (int16_keeps_iff _).mp hvalue
    | minus =>
      simp only [Field.stored, Field.signedValue, hsign] at hvalue
      exact (int16_neg_keeps_iff _).mp hvalue
    | equal => exact hzero hsign
  · rintro ⟨hnum, hvalue⟩
    refine ⟨(uint16_keeps_iff _).mpr hnum, ?_, ?_, hflags⟩
    · cases hsign : f.sign with
      | plus =>
        simp only [Field.stored, Field.signedValue, hsign] at hvalue ⊢
        exact (int16_keeps_iff _).mpr hvalue
      | minus =>
        simp only [Field.stored, Field.signedValue, hsign] at hvalue ⊢
        exact (int16_neg_keeps_iff _).mpr hvalue
      | equal =>
        simp only [Field.stored, Field.signedValue, hsign] at hvalue ⊢
        exact (int16_keeps_iff _).mpr (by omega)
    · intro hsign
      simpa only [hsign] using hvalue

/-- `parseOps` ends with an error or returns one operation for each field of the one list of fields
that the argument is. They are the operations that are written exactly when every number is kept by
the field of 16 bits it is stored in. -/
theorem parseOps_exact_iff (arg : List Byte) :
    (∃ e, parseOps arg = .error e) ∨
    ∃ (fields : List Field) (ops : List Sembuf), parseOps arg = .ok ops ∧
      (fields ≠ [] ∧ arg = opsText fields ∧
        ∀ fields', fields' ≠ [] → arg = opsText fields' → fields' = fields) ∧
      (List.Forall₂ Field.Denotes fields ops ↔ ∀ f ∈ fields, f.Fits) := by
  cases h : parseOps arg with
  | error e => exact .inl ⟨e, rfl⟩
  | ok ops =>
    obtain ⟨fields, hne, hlen, rfl, hf⟩ := parseLoop_ok h
    have hops : ops = fields.map Field.stored := by
      rw [parseOps, parseLoop_text hne hlen hf] at h
      cases h
      rfl
    refine .inr ⟨fields, ops, rfl, ⟨hne, rfl, ?_⟩, ?_⟩
    · intro fields' hne' htext
      exact (opsText_injective hne hne' htext).symm
    · rw [hops, List.forall₂_map_right_iff, List.forall₂_same]
      simp only [Field.denotes_stored_iff]

/-- Both numbers are changed: 70000 is kept as 4464 and 40000 as -25536. -/
theorem parseOps_wraps :
    parseOps (ascii "70000+40000") = .ok [⟨4464, -25536, 0⟩] := by
  decide +kernel

end SvsemOp
