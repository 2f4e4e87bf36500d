import Mathlib.Algebra.Group.Nat.Defs
import Mathlib.Data.List.TakeWhile
import Mathlib.Data.List.Basic
import Mathlib.Tactic.Common

/-! # C strings, decimal text and the conversions of the C library

A buffer is a list of bytes and a C string is what stands before its first NUL.
Only the conversions that occur in format strings with `%ld`, `%lld`, `%d` and `%*ld`
are modelled; their arguments are unbounded integers. -/
namespace CStrings

abbrev Byte := UInt8

def space : Byte := 32
def newline : Byte := 10

def ascii (s : String) : List Byte := s.toUTF8.toList

def cstr (buf : List Byte) : List Byte := buf.takeWhile (· ≠ 0)

/-- Distance to the first occurrence of `c` that is not behind a NUL. -/
def strchr (c : Byte) : List Byte → Option ℕ
  | [] => none
  | b :: bs => if b = c then some 0 else if b = 0 then none else (strchr c bs).map (· + 1)

def isSpace (b : Byte) : Bool := b = 32 || (9 ≤ b && b ≤ 13)
def isDigit (b : Byte) : Bool := 48 ≤ b && b ≤ 57

def digitsValue (s : List Byte) : ℕ :=
  (s.takeWhile isDigit).foldl (fun v b => 10 * v + (b.toNat - 48)) 0

/-- Leading white space, one optional sign, then the longest run of digits. -/
def atol (s : List Byte) : ℤ :=
  match s.dropWhile isSpace with
  | [] => 0
  | b :: t =>
    if b = 45 then -(digitsValue t : ℤ)
    else if b = 43 then digitsValue t
    else digitsValue (b :: t)

/-- `%ld` of a nonnegative value. -/
def decimal (n : ℕ) : List Byte := (Nat.toDigits 10 n).map Char.toUInt8

/-- `%ld` of any value. -/
def decimalInt : ℤ → List Byte
  | .ofNat n => decimal n
  | .negSucc n => 45 :: decimal (n + 1)

/-- The field width of `%*ld`: blanks on the left up to the width, never a truncation. -/
def padLeft (w : ℕ) (s : List Byte) : List Byte := List.replicate (w - s.length) space ++ s

theorem ne_zero_of_notMem {s : List Byte} (h : (0 : Byte) ∉ s) : ∀ b ∈ s, decide (b ≠ 0) = true := by
  intro b hb
  simp only [ne_eq, decide_not, Bool.not_eq_eq_eq_not, Bool.not_true, decide_eq_false_iff_not]
  intro hz
  exact h (hz ▸ hb)

theorem cstr_append_nul {s : List Byte} (h : (0 : Byte) ∉ s) (rest : List Byte) :
    cstr (s ++ 0 :: rest) = s := by
  rw [cstr, List.takeWhile_append_of_pos (ne_zero_of_notMem h)]
  simp

theorem cstr_eq_self {s : List Byte} (h : (0 : Byte) ∉ s) : cstr s = s := by
  exact List.takeWhile_eq_self_iff.mpr (ne_zero_of_notMem h)

theorem zero_notMem_cstr (buf : List Byte) : (0 : Byte) ∉ cstr buf := by
  intro h
  have := List.mem_takeWhile_imp h
  simp at this

theorem strchr_append {c : Byte} {s : List Byte} (hc : c ∉ s) (h0 : (0 : Byte) ∉ s)
    (rest : List Byte) : strchr c (s ++ c :: rest) = some s.length := by
  induction s with
  | nil => simp [strchr]
  | cons b s ih =>
    simp only [List.mem_cons, not_or] at hc h0
    simp only [List.cons_append, strchr, Ne.symm hc.1, Ne.symm h0.1, if_false,
      ih hc.2 h0.2, Option.map_some, List.length_cons]

theorem strchr_before_nul {c : Byte} {s : List Byte} (hz : c ≠ 0) (hc : c ∉ s)
    (rest : List Byte) : strchr c (s ++ 0 :: rest) = none := by
  induction s with
  | nil => simp [strchr, Ne.symm hz]
  | cons b s ih =>
    simp only [List.mem_cons, not_or] at hc
    simp [strchr, Ne.symm hc.1, ih hc.2]

theorem strchr_eq_none {c : Byte} {s : List Byte} (hc : c ∉ s) : strchr c s = none := by
  induction s with
  | nil => rfl
  | cons b s ih =>
    simp only [List.mem_cons, not_or] at hc
    simp [strchr, Ne.symm hc.1, ih hc.2]

private theorem toNat_toUInt8 {c : Char} (h : c.isDigit = true) :
    c.toUInt8.toNat = c.toNat ∧ 48 ≤ c.toNat ∧ c.toNat ≤ 57 := by
  simp only [Char.isDigit, Bool.and_eq_true, decide_eq_true_eq] at h
  have h1 : 48 ≤ c.toNat := h.1
  have h2 : c.toNat ≤ 57 := h.2
  refine ⟨?_, h1, h2⟩
  change c.val.toUInt8.toNat = c.val.toNat
  rw [UInt32.toNat_toUInt8]
  exact Nat.mod_eq_of_lt (by change c.toNat < 2 ^ 8; omega)

theorem isDigit_of_mem_decimal {n : ℕ} {b : Byte} (h : b ∈ decimal n) : isDigit b = true := by
  obtain ⟨c, hc, rfl⟩ := List.mem_map.mp h
  have hd := toNat_toUInt8 (Nat.isDigit_of_mem_toDigits (by decide) (by decide) hc)
  have e1 : (48 : Byte) ≤ c.toUInt8 := UInt8.le_iff_toNat_le.mpr (by rw [hd.1]; exact hd.2.1)
  have e2 : c.toUInt8 ≤ (57 : Byte) := UInt8.le_iff_toNat_le.mpr (by rw [hd.1]; exact hd.2.2)
  simp [isDigit, e1, e2]

theorem notMem_decimal {n : ℕ} {b : Byte} (h : isDigit b = false) : b ∉ decimal n := by
  intro hm
  rw [isDigit_of_mem_decimal hm] at h
  cases h

theorem decimal_ne_nil (n : ℕ) : decimal n ≠ [] := by
  simp [decimal, Nat.toDigits_ne_nil]

theorem length_decimal_le {n k : ℕ} (hk : 0 < k) : (decimal n).length ≤ k ↔ n < 10 ^ k := by
  simpa [decimal] using Nat.length_toDigits_le_iff (b := 10) (n := n) (by decide) hk

private theorem foldl_digits (l : List Char) (hl : ∀ c ∈ l, c.isDigit = true) (v : ℕ) :
    (l.map Char.toUInt8).foldl (fun v b => 10 * v + (b.toNat - 48)) v =
      Nat.ofDigitChars 10 l v := by
  induction l generalizing v with
  | nil => simp
  | cons c l ih =>
    have hc := toNat_toUInt8 (hl c (by simp))
    simp only [List.map_cons, List.foldl_cons, Nat.ofDigitChars_cons, hc.1]
    exact ih (fun d hd => hl d (by simp [hd])) _

/-- Reading decimal text back stops at the first byte that is not a digit. -/
theorem digitsValue_decimal (n : ℕ) {rest : List Byte} (hr : rest.takeWhile isDigit = []) :
    digitsValue (decimal n ++ rest) = n := by
  have hall : ∀ b ∈ decimal n, isDigit b = true := fun b hb => isDigit_of_mem_decimal hb
  rw [digitsValue, List.takeWhile_append_of_pos hall, hr, List.append_nil, decimal,
    foldl_digits _ (fun c hc => Nat.isDigit_of_mem_toDigits (by decide) (by decide) hc)]
  exact Nat.ofDigitChars_ten_toDigits

theorem digitsValue_decimal_self (n : ℕ) : digitsValue (decimal n) = n := by
  have h := digitsValue_decimal n (show ([] : List Byte).takeWhile isDigit = [] from rfl)
  rwa [List.append_nil] at h

theorem digit_not_space {b : Byte} (h : isDigit b = true) :
    isSpace b = false ∧ b ≠ 45 ∧ b ≠ 43 := by
  simp only [isDigit, Bool.and_eq_true, decide_eq_true_eq, UInt8.le_iff_toNat_le] at h
  change 48 ≤ b.toNat ∧ b.toNat ≤ 57 at h
  refine ⟨?_, ?_, ?_⟩
  · simp only [isSpace, Bool.or_eq_false_iff, decide_eq_false_iff_not, Bool.and_eq_false_imp,
      decide_eq_true_eq, UInt8.le_iff_toNat_le]
    refine ⟨?_, ?_⟩
    · rintro rfl
      simp at h
    · intro _
      change ¬ b.toNat ≤ 13
      omega
  · rintro rfl
    simp at h
  · rintro rfl
    simp at h

theorem digitsValue_append {s rest : List Byte} (hs : ∀ b ∈ s, isDigit b = true)
    (hr : rest.takeWhile isDigit = []) : digitsValue (s ++ rest) = digitsValue s := by
  rw [digitsValue, digitsValue, List.takeWhile_append_of_pos hs, hr, List.append_nil,
    List.takeWhile_eq_self_iff.mpr hs]

theorem le_foldl_digits (s : List Byte) (v : ℕ) :
    v * 10 ^ s.length ≤ s.foldl (fun v b => 10 * v + (b.toNat - 48)) v := by
  induction s generalizing v with
  | nil => simp
  | cons b s ih =>
    calc v * 10 ^ (b :: s).length = 10 * v * 10 ^ s.length := by
          rw [List.length_cons, Nat.pow_succ, Nat.mul_comm (10 ^ s.length), ← Nat.mul_assoc,
            Nat.mul_comm v]
      _ ≤ (10 * v + (b.toNat - 48)) * 10 ^ s.length := Nat.mul_le_mul_right _ (by omega)
      _ ≤ _ := ih _

theorem le_digitsValue (n : ℕ) {rest : List Byte} (hr : ∀ b ∈ rest, isDigit b = true) :
    n * 10 ^ rest.length ≤ digitsValue (decimal n ++ rest) := by
  have hall : ∀ b ∈ decimal n ++ rest, isDigit b = true := by
    intro b hb
    rcases List.mem_append.mp hb with hb | hb
    · exact isDigit_of_mem_decimal hb
    · exact hr b hb
  have hn : (decimal n).foldl (fun v b => 10 * v + (b.toNat - 48)) 0 = n := by
    have h := digitsValue_decimal_self n
    rwa [digitsValue, List.takeWhile_eq_self_iff.mpr fun b hb => isDigit_of_mem_decimal hb] at h
  rw [digitsValue, List.takeWhile_eq_self_iff.mpr hall, List.foldl_append, hn]
  exact le_foldl_digits rest n

theorem atol_append_of_digits {f : List Byte} (hne : f ≠ []) (hf : ∀ b ∈ f, isDigit b = true)
    (rest : List Byte) : atol (f ++ rest) = digitsValue (f ++ rest) := by
  obtain ⟨b, l, rfl⟩ := List.exists_cons_of_ne_nil hne
  obtain ⟨h1, h2, h3⟩ := digit_not_space (hf b (by simp))
  rw [atol, List.cons_append, List.dropWhile_cons_of_neg (by simp [h1])]
  simp [h2, h3]

theorem atol_pad_decimal (w n : ℕ) {rest : List Byte} (hr : rest.takeWhile isDigit = []) :
    atol (padLeft w (decimal n) ++ rest) = n := by
  have hpad : ∀ b ∈ List.replicate (w - (decimal n).length) space, isSpace b = true := by
    intro b hb
    rw [List.eq_of_mem_replicate hb]
    decide
  obtain ⟨d, ds, hd⟩ := List.exists_cons_of_ne_nil (decimal_ne_nil n)
  have hdig : isDigit d = true := isDigit_of_mem_decimal (n := n) (by simp [hd])
  obtain ⟨h1, h2, h3⟩ := digit_not_space hdig
  have hval := digitsValue_decimal n hr
  rw [hd, List.cons_append] at hval
  rw [atol, padLeft, List.append_assoc, List.dropWhile_append_of_pos hpad, hd, List.cons_append,
    List.dropWhile_cons_of_neg (by simp [h1])]
  simp [h2, h3, hval]

theorem atol_padLeft (w n : ℕ) : atol (padLeft w (decimal n)) = n := by
  have h := atol_pad_decimal w n (show ([] : List Byte).takeWhile isDigit = [] from rfl)
  rwa [List.append_nil] at h

theorem atol_decimal (n : ℕ) : atol (decimal n) = n := by
  simpa [padLeft] using atol_padLeft 0 n

theorem length_padLeft {w : ℕ} {s : List Byte} (h : s.length ≤ w) : (padLeft w s).length = w := by
  simp only [padLeft, List.length_append, List.length_replicate]
  omega

theorem atol_decimalInt (n : ℤ) : atol (decimalInt n) = n := by
  cases n with
  | ofNat n => exact atol_decimal n
  | negSucc n =>
    simp only [decimalInt, atol]
    rw [List.dropWhile_cons_of_neg (by decide)]
    simp [digitsValue_decimal_self, Int.negSucc_eq]

theorem decimalInt_injective : Function.Injective decimalInt :=
  Function.LeftInverse.injective atol_decimalInt

end CStrings
