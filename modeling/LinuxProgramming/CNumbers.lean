import LinuxProgramming.CStrings
import Mathlib.Algebra.Order.Group.Unbundled.Int
import Mathlib.Algebra.Order.Ring.Int

/-! # Numbers read by `strtol`

Base 10, and a `long` of 64 bits. The number that a text denotes is kept apart from the `long` that
is returned for it, and that from what is left of it in a narrower field. -/
namespace CNumbers

open CStrings

def longMax : ℤ := 9223372036854775807
def longMin : ℤ := -9223372036854775808

/-- A number that does not fit is replaced by the nearest `long`. -/
def clampLong (v : ℤ) : ℤ := max longMin (min longMax v)

/-- One optional sign: whether it is a minus, and what follows it. -/
def scanSign : List Byte → Bool × List Byte
  | [] => (false, [])
  | b :: s => if b = 45 then (true, s) else if b = 43 then (false, s) else (false, b :: s)

def scanInt (s : List Byte) : Option (ℤ × List Byte) :=
  let t := scanSign (s.dropWhile isSpace)
  if t.2.takeWhile isDigit = [] then none
  else some (if t.1 then -(digitsValue t.2 : ℤ) else digitsValue t.2, t.2.dropWhile isDigit)

/-- The value and the end pointer; without a number nothing is taken. -/
def strtol (s : List Byte) : ℤ × List Byte :=
  match scanInt s with
  | none => (0, s)
  | some (v, rest) => (clampLong v, rest)

theorem clampLong_natCast (v : ℕ) : clampLong v = min longMax v := by
  refine max_eq_right ?_
  simp only [longMin, longMax]
  omega

theorem clampLong_of_mem {v : ℤ} (hmin : longMin ≤ v) (hmax : v ≤ longMax) : clampLong v = v := by
  rw [clampLong, min_eq_right hmax, max_eq_right hmin]

theorem mem_scanSign {s : List Byte} {b : Byte} (hb : b ∈ s) :
    b = 45 ∨ b = 43 ∨ b ∈ (scanSign s).2 := by
  cases s with
  | nil => cases hb
  | cons c t =>
    rw [scanSign]
    by_cases hminus : c = 45
    · rw [if_pos hminus]
      rcases List.mem_cons.mp hb with rfl | hb
      · exact .inl hminus
      · exact .inr (.inr hb)
    · rw [if_neg hminus]
      by_cases hplus : c = 43
      · rw [if_pos hplus]
        rcases List.mem_cons.mp hb with rfl | hb
        · exact .inr (.inl hplus)
        · exact .inr (.inr hb)
      · rw [if_neg hplus]
        exact .inr (.inr hb)

/-- A text that is a number as a whole: white space, a sign and digits. -/
theorem scanInt_chars {s : List Byte} {v : ℤ} (h : scanInt s = some (v, [])) :
    s ≠ [] ∧ ∀ b ∈ s, isSpace b = true ∨ b = 45 ∨ b = 43 ∨ isDigit b = true := by
  unfold scanInt at h
  simp only at h
  split at h
  · cases h
  · rename_i hne
    simp only [Option.some.injEq, Prod.mk.injEq] at h
    have hdigits := List.dropWhile_eq_nil_iff.mp h.2
    constructor
    · rintro rfl
      exact hne rfl
    · intro b hb
      rw [← List.takeWhile_append_dropWhile (p := isSpace) (l := s), List.mem_append] at hb
      rcases hb with hb | hb
      · exact .inl (List.mem_takeWhile_imp hb)
      · rcases mem_scanSign hb with hminus | hplus | hb
        · exact .inr (.inl hminus)
        · exact .inr (.inr (.inl hplus))
        · exact .inr (.inr (.inr (hdigits b hb)))

/-! ## Runs of digits -/

/-- A number as it is written, without a sign. -/
structure Digits where
  text : List Byte
  ne_nil : text ≠ []
  digits : ∀ b ∈ text, isDigit b = true
  deriving DecidableEq

def Digits.value (d : Digits) : ℕ := digitsValue d.text

def Digits.of (b : Byte) (s : List Byte) (h : isDigit b = true) : Digits where
  text := (b :: s).takeWhile isDigit
  ne_nil := by simp [h]
  digits := fun _ hb => List.mem_takeWhile_imp hb

theorem Digits.of_append (b : Byte) (s : List Byte) (h : isDigit b = true) :
    (Digits.of b s h).text ++ (b :: s).dropWhile isDigit = b :: s :=
  List.takeWhile_append_dropWhile

variable (d : Digits) {rest : List Byte}

theorem Digits.takeWhile_append (hrest : ∀ b ∈ rest.head?, isDigit b = false) :
    (d.text ++ rest).takeWhile isDigit = d.text := by
  rw [List.takeWhile_append_of_pos d.digits]
  cases rest with
  | nil => rw [List.takeWhile_nil, List.append_nil]
  | cons b rest => simp [hrest b rfl]

theorem Digits.dropWhile_append (hrest : ∀ b ∈ rest.head?, isDigit b = false) :
    (d.text ++ rest).dropWhile isDigit = rest := by
  rw [List.dropWhile_append_of_pos d.digits]
  cases rest with
  | nil => rfl
  | cons b rest => simp [hrest b rfl]

theorem Digits.exists_cons : ∃ b s, d.text = b :: s ∧ isDigit b = true := by
  obtain ⟨b, s, hs⟩ := List.exists_cons_of_ne_nil d.ne_nil
  exact ⟨b, s, hs, d.digits b (by simp [hs])⟩

theorem Digits.scanInt_append (hrest : ∀ b ∈ rest.head?, isDigit b = false) :
    scanInt (d.text ++ rest) = some ((d.value : ℤ), rest) := by
  obtain ⟨b, s, hs, hb⟩ := d.exists_cons
  obtain ⟨hspace, hminus, hplus⟩ := digit_not_space hb
  have hstart : scanSign ((d.text ++ rest).dropWhile isSpace) = (false, d.text ++ rest) := by
    rw [hs, List.cons_append, List.dropWhile_cons, hspace]
    simp [scanSign, hminus, hplus]
  have hvalue : digitsValue (d.text ++ rest) = d.value := by
    rw [digitsValue, d.takeWhile_append hrest, Digits.value, digitsValue,
      List.takeWhile_eq_self_iff.mpr d.digits]
  simp only [scanInt, hstart, d.takeWhile_append hrest, d.dropWhile_append hrest, hvalue,
    if_neg d.ne_nil]
  rfl

theorem Digits.strtol_append (hrest : ∀ b ∈ rest.head?, isDigit b = false) :
    strtol (d.text ++ rest) = (clampLong d.value, rest) := by
  rw [strtol, d.scanInt_append hrest]

theorem Digits.strtol_text : strtol d.text = (clampLong d.value, []) := by
  have h := d.strtol_append (show ∀ b ∈ ([] : List Byte).head?, isDigit b = false from fun b hb => by cases hb)
  rwa [List.append_nil] at h

/-! ## Narrowing -/

theorem toNat_ofInt_uint16 (v : ℤ) : ((UInt16.ofInt v).toNat : ℤ) = v % 65536 := by
  have hlt : (v % 65536).toNat < 65536 := by omega
  have hmod : (UInt16.ofInt v).toNat = (v % 65536).toNat := UInt16.toNat_ofNat_of_lt hlt
  rw [hmod]
  omega

theorem toNat_ofInt_uint32 (v : ℤ) : ((UInt32.ofInt v).toNat : ℤ) = v % 4294967296 := by
  have hlt : (v % 4294967296).toNat < 4294967296 := by omega
  have hmod : (UInt32.ofInt v).toNat = (v % 4294967296).toNat := UInt32.toNat_ofNat_of_lt hlt
  rw [hmod]
  omega

theorem uint16_keeps_iff (v : ℕ) : (UInt16.ofInt (clampLong v)).toNat = v ↔ v < 65536 := by
  have hmod := toNat_ofInt_uint16 (clampLong v)
  rw [clampLong_natCast] at hmod ⊢
  simp only [longMax] at hmod ⊢
  constructor
  · intro h
    omega
  · intro h
    omega

theorem bmod_cases (v : ℤ) :
    v % 65536 < 32768 ∧ v.bmod 65536 = v % 65536 ∨
      32768 ≤ v % 65536 ∧ v.bmod 65536 = v % 65536 - 65536 := by
  rcases lt_or_ge (v % 65536) 32768 with hlt | hge
  · exact .inl ⟨hlt, if_pos hlt⟩
  · exact .inr ⟨hge, if_neg (not_lt.mpr hge)⟩

theorem int16_keeps_iff (v : ℕ) : (Int16.ofInt (clampLong v)).toInt = v ↔ v < 32768 := by
  have hmod : (Int16.ofInt (clampLong v)).toInt = (clampLong v).bmod 65536 := Int16.toInt_ofInt
  have hcases := bmod_cases (clampLong v)
  rw [clampLong_natCast] at hmod hcases ⊢
  simp only [longMax] at hmod hcases ⊢
  constructor
  · intro h
    omega
  · intro h
    omega

theorem int16_neg_keeps_iff (v : ℕ) :
    (-Int16.ofInt (clampLong v)).toInt = -(v : ℤ) ↔ v ≤ 32768 := by
  have hmod : (Int16.ofInt (clampLong v)).toInt = (clampLong v).bmod 65536 := Int16.toInt_ofInt
  have hneg : (-Int16.ofInt (clampLong v)).toInt = (-(Int16.ofInt (clampLong v)).toInt).bmod 65536 :=
    Int16.toInt_neg _
  have hcases := bmod_cases (clampLong v)
  have hcases' := bmod_cases (-(clampLong v).bmod 65536)
  rw [hmod] at hneg
  rw [clampLong_natCast] at hneg hcases hcases' ⊢
  simp only [longMax] at hneg hcases hcases' ⊢
  constructor
  · intro h
    omega
  · intro h
    omega

end CNumbers
