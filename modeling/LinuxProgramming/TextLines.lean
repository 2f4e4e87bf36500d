import LinuxProgramming.CStrings
import Mathlib.Algebra.Ring.Nat

/-! # Lines and tokens of a text file

What `fgets` and `strtok` return, and the lines of a file with the offsets at which they start.
A line keeps its newline; the last one may lack it. -/
namespace TextLines

open CStrings

/-- `strtok`: the first token, and what the next call goes on with. -/
def strtok (delims s : List Byte) : Option (List Byte × List Byte) :=
  let s := s.dropWhile (· ∈ delims)
  if s = [] then none
  else
    let token := s.takeWhile (· ∉ delims)
    some (token, (s.drop token.length).tail)

/-- `line` is what the call in progress has stored. -/
def fgetsLoop (size : ℕ) : List Byte → List Byte → List (List Byte)
  | [], line => if line = [] then [] else [line]
  | b :: s, line =>
    if b = newline ∨ line.length + 2 = size then (line ++ [b]) :: fgetsLoop size s []
    else fgetsLoop size s (line ++ [b])

/-- What successive calls of `fgets(buf, size, fp)` store, up to the end of the file. -/
def fgetsAll (size : ℕ) (s : List Byte) : List (List Byte) := fgetsLoop size s []

def lines : List Byte → List (List Byte)
  | [] => []
  | b :: s =>
    if b = newline then [b] :: lines s
    else
      match lines s with
      | [] => [[b]]
      | l :: ls => (b :: l) :: ls

variable {s : List Byte} {ls ls' : List (List Byte)}

theorem lines_newline (s : List Byte) : lines (newline :: s) = [newline] :: lines s := by
  rw [lines, if_pos rfl]

theorem lines_nil_cons {b : Byte} (hb : b ≠ newline) (h : lines s = []) : lines (b :: s) = [[b]] := by
  rw [lines, if_neg hb, h]

theorem lines_cons_cons {b : Byte} {l : List Byte} (hb : b ≠ newline) (h : lines s = l :: ls) :
    lines (b :: s) = (b :: l) :: ls := by
  rw [lines, if_neg hb, h]

theorem flatten_lines (s : List Byte) : (lines s).flatten = s := by
  induction s with
  | nil => rfl
  | cons b s ih =>
    by_cases hb : b = newline
    · subst hb
      rw [lines_newline, List.flatten_cons, ih, List.singleton_append]
    · cases h : lines s with
      | nil =>
        rw [h] at ih
        rw [lines_nil_cons hb h, ← ih]
        rfl
      | cons l ls =>
        rw [h] at ih
        rw [lines_cons_cons hb h, ← ih]
        rfl

theorem ne_nil_of_mem_lines {l : List Byte} (h : l ∈ lines s) : l ≠ [] := by
  induction s generalizing l with
  | nil => cases h
  | cons b s ih =>
    by_cases hb : b = newline
    · subst hb
      rw [lines_newline, List.mem_cons] at h
      rcases h with rfl | h
      · simp
      · exact ih h
    · cases hs : lines s with
      | nil =>
        rw [lines_nil_cons hb hs, List.mem_singleton] at h
        simp [h]
      | cons l' ls =>
        rw [lines_cons_cons hb hs, List.mem_cons] at h
        rcases h with rfl | h
        · simp
        · exact ih (by simp [hs, h])

theorem lines_eq_nil (h : lines s = []) : s = [] := by
  rw [← flatten_lines s, h]
  rfl

theorem lines_drop_cons {l : List Byte} (h : lines s = l :: ls) : lines (s.drop l.length) = ls := by
  induction s generalizing l with
  | nil => cases h
  | cons b s ih =>
    by_cases hb : b = newline
    · subst hb
      rw [lines_newline, List.cons.injEq] at h
      obtain ⟨rfl, rfl⟩ := h
      rfl
    · cases hs : lines s with
      | nil =>
        rw [lines_nil_cons hb hs, List.cons.injEq] at h
        obtain ⟨rfl, rfl⟩ := h
        exact hs
      | cons l' ls' =>
        rw [lines_cons_cons hb hs, List.cons.injEq] at h
        obtain ⟨rfl, rfl⟩ := h
        exact ih hs

theorem lines_drop (h : lines s = ls ++ ls') : lines (s.drop ls.flatten.length) = ls' := by
  induction ls generalizing s with
  | nil => exact h
  | cons l ls ih =>
    rw [List.flatten_cons, List.length_append, ← List.drop_drop]
    exact ih (lines_drop_cons h)

theorem fgetsLoop_eq {size : ℕ} {line l : List Byte} (h : lines s = l :: ls)
    (hl : (line ++ l).length < size)
    (hnext : fgetsLoop size (s.drop l.length) [] = ls) : fgetsLoop size s line = (line ++ l) :: ls := by
  induction s generalizing line l with
  | nil => cases h
  | cons b s ih =>
    by_cases hb : b = newline
    · subst hb
      rw [lines_newline, List.cons.injEq] at h
      obtain ⟨rfl, rfl⟩ := h
      rw [fgetsLoop, if_pos (.inl rfl)]
      exact congrArg _ hnext
    · cases hs : lines s with
      | nil =>
        rw [lines_nil_cons hb hs, List.cons.injEq] at h
        obtain ⟨rfl, rfl⟩ := h
        rw [lines_eq_nil hs, fgetsLoop]
        simp [fgetsLoop]
      | cons l' ls' =>
        rw [lines_cons_cons hb hs, List.cons.injEq] at h
        obtain ⟨rfl, rfl⟩ := h
        have hpos : 0 < l'.length := List.length_pos_iff.mpr (ne_nil_of_mem_lines (by rw [hs]; simp))
        simp only [List.length_append, List.length_cons] at hl
        have hgo : ¬ (b = newline ∨ line.length + 2 = size) := by
          rintro (h | h)
          · exact hb h
          · omega
        have hlen : (line ++ [b] ++ l').length < size := by
          simp only [List.length_append, List.length_singleton]
          omega
        have hrest := ih hs hlen hnext
        rw [fgetsLoop, if_neg hgo, hrest, List.append_assoc, List.singleton_append]

theorem fgetsAll_eq {size : ℕ} (h : ∀ l ∈ lines s, l.length < size) : fgetsAll size s = lines s := by
  induction k : (lines s).length generalizing s with
  | zero =>
    have hnil := List.length_eq_zero_iff.mp k
    rw [hnil, lines_eq_nil hnil]
    rfl
  | succ k ih =>
    obtain ⟨l, ls, hs⟩ := List.exists_cons_of_ne_nil (List.ne_nil_of_length_eq_add_one k)
    have hrest := lines_drop_cons hs
    rw [hs] at h k
    have hls : ∀ l' ∈ ls, l'.length < size := fun l' hl' => h l' (by simp [hl'])
    have hnext : fgetsAll size (s.drop l.length) = ls := by
      rw [ih (by rwa [hrest]) (by rw [hrest]; simpa using k), hrest]
    rw [hs, fgetsAll, fgetsLoop_eq hs (h l (by simp)) hnext, List.nil_append]

/-! ## Offsets -/

/-- The lines with the offsets at which they start, the first one at `o`. -/
def placed : ℕ → List (List Byte) → List (ℕ × List Byte)
  | _, [] => []
  | o, l :: ls => (o, l) :: placed (o + l.length) ls

theorem placed_append (o : ℕ) (ls ls' : List (List Byte)) :
    placed o (ls ++ ls') = placed o ls ++ placed (o + ls.flatten.length) ls' := by
  induction ls generalizing o with
  | nil => rfl
  | cons l ls ih =>
    rw [List.cons_append, placed, placed, ih, List.cons_append, List.flatten_cons, List.length_append,
      Nat.add_assoc]

theorem le_of_mem_placed {o : ℕ} {x : ℕ × List Byte} (h : x ∈ placed o ls) : o ≤ x.1 := by
  induction ls generalizing o with
  | nil => cases h
  | cons l ls ih =>
    rw [placed, List.mem_cons] at h
    rcases h with rfl | h
    · exact le_rfl
    · exact le_trans (Nat.le_add_right _ _) (ih h)

theorem placed_pairwise (o : ℕ) (h : ∀ l ∈ ls, l ≠ []) :
    (placed o ls).Pairwise fun x y => x.1 < y.1 := by
  induction ls generalizing o with
  | nil => exact .nil
  | cons l ls ih =>
    have hpos : 0 < l.length := List.length_pos_iff.mpr (h l (by simp))
    refine .cons (fun x hx => ?_) (ih _ fun l' hl' => h l' (by simp [hl']))
    have hle := le_of_mem_placed hx
    simp only
    omega

end TextLines
