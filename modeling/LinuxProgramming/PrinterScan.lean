import LinuxProgramming.PrinterStatus

/-! # The loops of the scan

What each loop of `printer_status` does over bytes that stand in the buffer: one lemma for a
loop, in the order in which an answer is read. -/
namespace PrinterScan

open Printd (ioBufsz atolLong longMax longMin)
open CStrings IppEncoding ByteMachines StateTransition PrinterStatus

variable {jobid : ℤ} {fin : Ending} {s t : St}

def crlf : List Byte := [13, 10]

def Line (l : List Byte) : Prop := ∀ b ∈ l, b ≠ 13 ∧ b ≠ 10

instance (l : List Byte) : Decidable (Line l) := List.decidableBAll (fun b => b ≠ 13 ∧ b ≠ 10) l

/-! ## Skipping bytes -/

theorem loaded_eq {k : ℕ} (h : k < s.bufsz) (f : Byte → St) : s.loaded k f = f (s.mem k) := if_pos h

/-- A loop that goes on over the bytes of `w`. -/
theorem reaches_skip {p : Byte → Prop} {pc : Pc}
    (hstep : ∀ s : St, s.pc = pc → s.cp < s.bufsz → p (s.mem s.cp) →
      step jobid fin s = some s.advance)
    {w : List Byte} (hpc : s.pc = pc) (hw : ∀ b ∈ w, p b) (hm : s.mem.Holds s.cp w)
    (hroom : s.cp + w.length ≤ s.bufsz) :
    Reaches (step jobid fin) s { s with cp := s.cp + w.length } := by
  refine reaches_turns (g := fun k => { s with cp := s.cp + k }) fun k hk => reaches_step ?_
  refine hstep { s with cp := s.cp + k } hpc (by simp only; omega) ?_
  simp only [hm.get hk]
  exact hw _ (List.getElem_mem hk)

theorem step_space (hpc : s.pc = .space) (hk : s.cp < s.bufsz) (h : isSpace (s.mem s.cp) = true) :
    step jobid fin s = some s.advance := by
  simp [step, hpc, loaded_eq hk, h]

theorem step_space_end (hpc : s.pc = .space) (hk : s.cp < s.bufsz)
    (h : isSpace (s.mem s.cp) = false) :
    step jobid fin s = some { s with statcode := s.cp, pc := .digits } := by
  simp [step, hpc, loaded_eq hk, h]

theorem step_digits (hpc : s.pc = .digits) (hk : s.cp < s.bufsz) (h : isDigit (s.mem s.cp) = true) :
    step jobid fin s = some s.advance := by
  simp [step, hpc, loaded_eq hk, h]

theorem step_digits_end (hpc : s.pc = .digits) (hk : s.cp < s.bufsz)
    (h : isDigit (s.mem s.cp) = false) (hne : s.cp ≠ s.statcode) :
    step jobid fin s = some { s with mem := s.mem.write s.cp [0], cp := s.cp + 1, pc := .reason } := by
  simp [step, hpc, loaded_eq hk, h, hne]

theorem step_reason (hpc : s.pc = .reason) (hk : s.cp < s.bufsz)
    (h : s.mem s.cp ≠ 13 ∧ s.mem s.cp ≠ 10) : step jobid fin s = some s.advance := by
  simp only [step, hpc, loaded_eq hk, if_pos h]

theorem step_reason_end (hpc : s.pc = .reason) (hk : s.cp < s.bufsz) (h : s.mem s.cp = 13) :
    step jobid fin s = some (afterReason s) := by
  simp [step, hpc, loaded_eq hk, h]

theorem step_lenSpace (hpc : s.pc = .lenSpace) (hk : s.cp < s.bufsz)
    (h : isSpace (s.mem s.cp) = true) : step jobid fin s = some s.advance := by
  simp [step, hpc, loaded_eq hk, h]

theorem step_lenSpace_end (hpc : s.pc = .lenSpace) (hk : s.cp < s.bufsz)
    (h : isSpace (s.mem s.cp) = false) :
    step jobid fin s = some { s with contentlen := s.cp, pc := .lenDigits } := by
  simp [step, hpc, loaded_eq hk, h]

theorem step_lenDigits (hpc : s.pc = .lenDigits) (hk : s.cp < s.bufsz)
    (h : isDigit (s.mem s.cp) = true) : step jobid fin s = some s.advance := by
  simp [step, hpc, loaded_eq hk, h]

theorem step_lenDigits_end (hpc : s.pc = .lenDigits) (hk : s.cp < s.bufsz)
    (h : isDigit (s.mem s.cp) = false) : step jobid fin s = some (afterLength s) := by
  simp [step, hpc, loaded_eq hk, h]

/-! ## Numbers -/

theorem atolLong_digits {n : ℕ} (hn : n < 2 ^ 31) (rest : List Byte) :
    atolLong (decimal n ++ 0 :: rest) = n := by
  have h : atol (padLeft 0 (decimal n) ++ 0 :: rest) = n := atol_pad_decimal 0 n rfl
  rw [padLeft, Nat.zero_sub, List.replicate_zero, List.nil_append] at h
  rw [atolLong, h]
  simp only [longMin, longMax]
  omega

theorem atoi_text {n a : ℕ} (hm : s.mem.Holds a (decimal n ++ [0]))
    (hroom : a + (decimal n).length + 1 ≤ s.bufsz) (hn : n < 2 ^ 31) : atoi (s.text a) = n := by
  have hlen : s.bufsz - a = (decimal n ++ [0]).length + (s.bufsz - a - ((decimal n).length + 1)) := by
    simp only [List.length_append, List.length_singleton]
    omega
  have hm : s.mem.slice a (decimal n ++ [0]).length = decimal n ++ [0] := hm
  rw [atoi, St.text, hlen, Memory.slice_add, hm, List.append_assoc, List.singleton_append,
    atolLong_digits hn]
  exact Int.bmod_eq_of_le (by omega) (by omega)

/-! ## The status line -/

def statusLine (version : List Byte) (code : ℕ) (reason : List Byte) : List Byte :=
  version ++ space :: decimal code ++ space :: reason

theorem length_statusLine {version : List Byte} (hv : version.length = 8) (code : ℕ)
    (reason : List Byte) :
    (statusLine version code reason).length = 10 + (decimal code).length + reason.length := by
  simp only [statusLine, List.length_append, List.length_cons, hv]
  omega

theorem reaches_reason {reason : List Byte} (hpc : s.pc = .reason) (hreason : Line reason)
    (hm : s.mem.Holds s.cp (reason ++ [13])) (hroom : s.cp + reason.length < s.bufsz) :
    Reaches (step jobid fin) s (afterReason { s with cp := s.cp + reason.length }) := by
  obtain ⟨hm, hcr⟩ := Memory.holds_append.mp hm
  have hskip : Reaches (step jobid fin) s { s with cp := s.cp + reason.length } :=
    reaches_skip (fun _ => step_reason) hpc hreason hm (by omega)
  exact hskip.tail (step_reason_end hpc hroom (Memory.holds_cons.mp hcr).1)

theorem first_digit {m : Memory} {a n : ℕ} (h : m.Holds a (decimal n)) : isSpace (m a) = false := by
  obtain ⟨d, ds, hd⟩ := List.exists_cons_of_ne_nil (decimal_ne_nil n)
  have hdigit : isDigit d = true := isDigit_of_mem_decimal (n := n) (by simp [hd])
  rw [hd] at h
  rw [(Memory.holds_cons.mp h).1]
  exact (digit_not_space hdigit).1

/-- The blank behind the version, the code and the byte behind it. -/
theorem reaches_code {code : ℕ} (hpc : s.pc = .space) (hcp : s.cp = 8)
    (hm : s.mem.Holds 8 (space :: (decimal code ++ [space])))
    (hroom : 9 + (decimal code).length < s.bufsz) :
    Reaches (step jobid fin) s { s with
      cp := 9 + (decimal code).length + 1
      statcode := 9
      mem := s.mem.write (9 + (decimal code).length) [0]
      pc := .reason } := by
  simp only [Memory.holds_append, Memory.holds_cons] at hm
  obtain ⟨hspace, hdigits, hspace', -⟩ := hm
  have hdigit : ∀ b ∈ decimal code, isDigit b = true := fun b hb => isDigit_of_mem_decimal hb
  have h₁ : step jobid fin s = some { s with cp := 9 } := by
    rw [step_space hpc (by omega) (by rw [hcp, hspace]; decide), St.advance, hcp]
  have h₂ : step jobid fin { s with cp := 9 } = some { s with cp := 9, statcode := 9, pc := .digits } :=
    step_space_end hpc (by show 9 < s.bufsz; omega) (first_digit hdigits)
  have h₃ : Reaches (step jobid fin) { s with cp := 9, statcode := 9, pc := .digits }
      { s with cp := 9 + (decimal code).length, statcode := 9, pc := .digits } :=
    reaches_skip (fun _ => step_digits) rfl hdigit hdigits hroom.le
  have h₄ : step jobid fin { s with cp := 9 + (decimal code).length, statcode := 9, pc := .digits } =
      some { s with
        cp := 9 + (decimal code).length + 1
        statcode := 9
        mem := s.mem.write (9 + (decimal code).length) [0]
        pc := .reason } := by
    refine step_digits_end rfl hroom ?_ ?_
    · show isDigit (s.mem (8 + 1 + (decimal code).length)) = false
      rw [hspace']
      decide
    · show 9 + (decimal code).length ≠ 9
      have hpos := List.length_pos_iff.mpr (decimal_ne_nil code)
      omega
  exact (((reaches_step h₁).tail h₂).trans h₃).tail h₄

theorem reaches_status {version reason : List Byte} {code : ℕ} (hv : version.length = 8)
    (hreason : Line reason) (hpc : s.pc = .space) (hcp : s.cp = 8)
    (hm : s.mem.Holds 0 (statusLine version code reason ++ [13]))
    (hroom : (statusLine version code reason).length < s.bufsz) :
    Reaches (step jobid fin) s (afterReason { s with
      pc := .reason
      statcode := 9
      cp := (statusLine version code reason).length
      mem := s.mem.write (9 + (decimal code).length) [0] }) := by
  have hlen := length_statusLine hv code reason
  have hline : statusLine version code reason ++ [13] =
      version ++ (space :: (decimal code ++ [space]) ++ (reason ++ [13])) := by
    simp [statusLine]
  rw [hline] at hm
  obtain ⟨-, hm⟩ := Memory.holds_append.mp hm
  rw [hv, Nat.zero_add] at hm
  obtain ⟨hcode, htail⟩ := Memory.holds_append.mp hm
  have hafter : 8 + (space :: (decimal code ++ [space])).length = 9 + (decimal code).length + 1 := by
    simp only [List.length_cons, List.length_append, List.length_nil]
    omega
  rw [hafter] at htail
  have h₁ : Reaches (step jobid fin) s _ := reaches_code hpc hcp hcode (by omega)
  have h₂ : Reaches (step jobid fin) { s with
      cp := 9 + (decimal code).length + 1
      statcode := 9
      mem := s.mem.write (9 + (decimal code).length) [0]
      pc := .reason } _ :=
    reaches_reason rfl hreason (htail.write (.inl (by simp))) (by simp only; omega)
  have hend : 9 + (decimal code).length + 1 + reason.length =
      (statusLine version code reason).length := by omega
  simp only [hend] at h₂
  exact h₁.trans h₂

/-! ## Comparing without regard to case -/

def StartsWith (x name : List Byte) : Prop := name.map toLower <+: x.map toLower

instance (x name : List Byte) : Decidable (StartsWith x name) :=
  inferInstanceAs (Decidable (name.map toLower <+: x.map toLower))

theorem strncasecmp_append {x p : List Byte} {b : Bool} (h : strncasecmp x p = some b)
    (y : List Byte) : strncasecmp (x ++ y) p = some b := by
  induction p generalizing x with
  | nil =>
    cases x <;> simpa [strncasecmp] using h
  | cons c p ih =>
    cases x with
    | nil => cases h
    | cons a x =>
      simp only [strncasecmp, List.cons_append] at h ⊢
      split at h
      · rw [if_pos ‹_›]
        exact ih h
      · rwa [if_neg ‹_›]

theorem strncasecmp_true {x p : List Byte} : strncasecmp x p = some true ↔ StartsWith x p := by
  induction p generalizing x with
  | nil => cases x <;> simp [strncasecmp, StartsWith]
  | cons c p ih =>
    cases x with
    | nil => simp [strncasecmp, StartsWith]
    | cons a x =>
      simp only [strncasecmp, StartsWith, List.map_cons, List.cons_prefix_cons]
      split
      · rename_i h
        rw [ih, StartsWith]
        simp [h]
      · rename_i h
        simp [Ne.symm h]

theorem strncasecmp_none {x p : List Byte} (h : strncasecmp x p = none) : StartsWith p x := by
  induction p generalizing x with
  | nil => cases x <;> simp [strncasecmp] at h
  | cons c p ih =>
    cases x with
    | nil => simp [StartsWith]
    | cons a x =>
      simp only [strncasecmp] at h
      split at h
      · simp only [StartsWith, List.map_cons, List.cons_prefix_cons]
        exact ⟨‹_›, ih h⟩
      · cases h

/-- No part of the line starts with the name of the content length. -/
def Clean (l : List Byte) : Prop := ∀ t, t <:+ l → ¬ StartsWith t contentLengthName

instance (l : List Byte) : Decidable (Clean l) :=
  decidable_of_iff (∀ t ∈ l.tails, ¬ StartsWith t contentLengthName) (by simp [Clean])

theorem strncasecmp_line {t rest : List Byte} (h : ¬ StartsWith t contentLengthName) :
    strncasecmp (t ++ 13 :: rest) contentLengthName = some false := by
  have hcr : toLower 13 ∉ contentLengthName.map toLower := by decide +kernel
  have hout : ¬ (t ++ [13]).map toLower <+: contentLengthName.map toLower := by
    intro hpre
    exact hcr (hpre.subset (by simp))
  cases hc : strncasecmp (t ++ 13 :: rest) contentLengthName with
  | none =>
    have hpre : (t ++ 13 :: rest).map toLower <+: contentLengthName.map toLower := strncasecmp_none hc
    refine absurd (List.IsPrefix.trans ?_ hpre) hout
    rw [List.map_append, List.map_append]
    exact List.prefix_append_right_inj _ |>.mpr (by simp)
  | some b =>
    cases b with
    | false => rfl
    | true =>
      have hpre : contentLengthName.map toLower <+: (t ++ 13 :: rest).map toLower :=
        strncasecmp_true.mp hc
      have hleft : t.map toLower <+: (t ++ 13 :: rest).map toLower := by simp
      have hcut : (t ++ [13]).map toLower <+: (t ++ 13 :: rest).map toLower := by simp
      by_cases hlen : contentLengthName.length ≤ t.length
      · refine absurd (List.prefix_of_prefix_length_le hpre hleft ?_) h
        simpa using hlen
      · refine absurd (List.prefix_of_prefix_length_le hcut hpre ?_) hout
        simp only [List.length_map, List.length_append, List.length_singleton]
        omega

/-! ## The search for the content length -/

theorem text_of_holds {a : ℕ} {w : List Byte} (hm : s.mem.Holds a w) (hroom : a + w.length ≤ s.bufsz) :
    ∃ y, s.text a = w ++ y := by
  have hlen : s.bufsz - a = w.length + (s.bufsz - a - w.length) := by omega
  refine ⟨s.mem.slice (a + w.length) (s.bufsz - a - w.length), ?_⟩
  rw [St.text, hlen, Memory.slice_add, show s.mem.slice a w.length = w from hm, Nat.add_sub_cancel_left]

theorem step_findC (hpc : s.pc = .findC) (hk : s.cp < s.bufsz) : step jobid fin s = some
    (if s.mem s.cp ≠ 67 ∧ s.mem s.cp ≠ 99 ∧ s.i < s.nr then { s with cp := s.cp + 1, i := s.i + 1 }
    else s.goto .moreHeader) := by
  simp only [step, hpc, loaded_eq hk]

theorem more_idle (hlt : s.i < s.nr) (pc : Pc) :
    s.more fin (s.nr ≤ s.i) pc = { s with cp := s.i, pc := pc } := by
  have hdec : decide (s.nr ≤ s.i) = false := by simpa using hlt
  rw [hdec]
  rfl

theorem step_moreHeader_idle (hpc : s.pc = .moreHeader) (hlt : s.i < s.nr) :
    step jobid fin s = some { s with cp := s.i, pc := .compare } := by
  simp only [step, hpc]
  exact congrArg some (more_idle hlt .compare)

theorem reaches_compare (hpc : s.pc = .findC) (hsync : s.cp = s.i) (hlt : s.i < s.nr)
    (hfits : s.nr ≤ s.bufsz) (hc : s.mem s.cp = 67 ∨ s.mem s.cp = 99) :
    Reaches (step jobid fin) s { s with pc := .compare } := by
  have hno : ¬ (s.mem s.cp ≠ 67 ∧ s.mem s.cp ≠ 99 ∧ s.i < s.nr) := by
    rintro ⟨h67, h99, -⟩
    exact hc.elim h67 h99
  have h₁ : step jobid fin s = some (s.goto .moreHeader) := by
    rw [step_findC hpc (by omega), if_neg hno]
  have h₂ : step jobid fin (s.goto .moreHeader) = some { s with cp := s.i, pc := .compare } :=
    step_moreHeader_idle rfl hlt
  have heq : ({ s with cp := s.i, pc := .compare } : St) = { s with pc := .compare } := by rw [← hsync]
  rw [heq] at h₂
  exact (reaches_step h₁).tail h₂

/-- The name does not start at `cp`. -/
theorem step_compare_miss {w : List Byte} (hpc : s.pc = .compare) (hm : s.mem.Holds s.cp w)
    (hroom : s.cp + w.length ≤ s.bufsz) (hmiss : strncasecmp w contentLengthName = some false) :
    step jobid fin s = some { s with cp := s.cp + 1, i := s.i + 1, pc := .findC } := by
  obtain ⟨y, hy⟩ := text_of_holds hm hroom
  have hcmp := strncasecmp_append hmiss y
  rw [← hy] at hcmp
  simp only [step, hpc, hcmp]

theorem reaches_miss {w : List Byte} (hpc : s.pc = .findC ∨ s.pc = .compare) (hsync : s.cp = s.i)
    (hm : s.mem.Holds s.cp w) (hlt : s.i < s.nr) (hnr : s.i + w.length ≤ s.nr)
    (hfits : s.nr ≤ s.bufsz) (hmiss : strncasecmp w contentLengthName = some false) :
    Reaches (step jobid fin) s { s with cp := s.cp + 1, i := s.i + 1, pc := .findC } := by
  have hback : step jobid fin { s with pc := .compare } = some { s with
      cp := s.cp + 1, i := s.i + 1, pc := .findC } :=
    step_compare_miss rfl hm (by simp only; omega) hmiss
  rcases hpc with hpc | hpc
  · by_cases hc : s.mem s.cp = 67 ∨ s.mem s.cp = 99
    · exact (reaches_compare hpc hsync hlt hfits hc).tail hback
    · rw [not_or] at hc
      refine reaches_step ?_
      rw [step_findC hpc (by omega), if_pos ⟨hc.1, hc.2, hlt⟩, ← hpc]
  · rw [← hpc] at hback
    exact reaches_step hback

/-- The bytes of `w` are passed when the name does not start in them. -/
theorem reaches_passed {w rest : List Byte} (hpc : s.pc = .findC ∨ s.pc = .compare)
    (hsync : s.cp = s.i) (hw : w ≠ []) (hm : s.mem.Holds s.cp (w ++ rest))
    (hnr : s.i + (w ++ rest).length ≤ s.nr) (hfits : s.nr ≤ s.bufsz)
    (hmiss : ∀ t, t <:+ w → t ≠ [] → strncasecmp (t ++ rest) contentLengthName = some false) :
    Reaches (step jobid fin) s { s with cp := s.cp + w.length, i := s.i + w.length, pc := .findC } := by
  induction w generalizing s with
  | nil => exact absurd rfl hw
  | cons b w ih =>
    have hlen : (b :: w ++ rest).length = (w ++ rest).length + 1 := rfl
    have hone : Reaches (step jobid fin) s { s with cp := s.cp + 1, i := s.i + 1, pc := .findC } :=
      reaches_miss hpc hsync hm (by omega) hnr hfits (hmiss (b :: w) (List.suffix_refl _) (by simp))
    by_cases hnil : w = []
    · subst hnil
      exact hone
    · have hrest := ih (s := { s with cp := s.cp + 1, i := s.i + 1, pc := .findC }) (.inl rfl)
        (by simp [hsync]) hnil (Memory.holds_cons.mp hm).2 (by simp only; omega) hfits
        (fun t ht => hmiss t (ht.trans (List.suffix_cons b w)))
      simp only [Nat.add_assoc, Nat.add_comm 1] at hrest
      exact hone.trans hrest

theorem first_letter {name : List Byte} (hname : name.map toLower = contentLengthName.map toLower) :
    ∃ b t, name = b :: t ∧ (b = 67 ∨ b = 99) := by
  have hletter : ∀ b : Byte, toLower b = 99 → b = 67 ∨ b = 99 := by
    intro b hb
    simp only [toLower] at hb
    split at hb
    · have h := congrArg (· - 32) hb
      simp only [UInt8.add_sub_cancel] at h
      exact .inl h
    · exact .inr hb
  have hfirst : (contentLengthName.map toLower).head? = some 99 := by decide +kernel
  cases name with
  | nil => simp [← hname] at hfirst
  | cons b t =>
    rw [← hname] at hfirst
    exact ⟨b, t, rfl, hletter b (by simpa using hfirst)⟩

theorem length_name {name : List Byte} (hname : name.map toLower = contentLengthName.map toLower) :
    name.length = 15 := by
  have h := congrArg List.length hname
  have h15 : contentLengthName.length = 15 := by decide +kernel
  simpa [h15] using h

theorem reaches_name {name : List Byte} (hpc : s.pc = .findC ∨ s.pc = .compare) (hsync : s.cp = s.i)
    (hname : name.map toLower = contentLengthName.map toLower) (hm : s.mem.Holds s.cp name)
    (hnr : s.i + name.length ≤ s.nr) (hfits : s.nr ≤ s.bufsz) :
    Reaches (step jobid fin) s { s with cp := s.cp + 15, pc := .lenSpace } := by
  have hlen := length_name hname
  rw [hlen] at hnr
  obtain ⟨y, hy⟩ := text_of_holds hm (by omega)
  have hcmp : strncasecmp (s.text s.cp) contentLengthName = some true := by
    rw [hy]
    exact strncasecmp_append (strncasecmp_true.mpr ⟨[], by simpa using hname.symm⟩) y
  have hfound : step jobid fin { s with pc := .compare } =
      some { s with cp := s.cp + 15, pc := .lenSpace } := by
    have htext : St.text { s with pc := .compare } s.cp = s.text s.cp := rfl
    simp only [step, htext, hcmp]
  rcases hpc with hpc | hpc
  · obtain ⟨b, t, rfl, hb⟩ := first_letter hname
    have hfirst := (Memory.holds_cons.mp hm).1
    exact (reaches_compare hpc hsync (by omega) hfits (by rwa [hfirst])).tail hfound
  · rw [← hpc] at hfound
    exact reaches_step hfound

/-- The digits behind `contentlen`, with the byte that ends them. -/
theorem afterLength_eq {n : ℕ} (hn : n < 2 ^ 31) (hm : s.mem.Holds s.contentlen (decimal n))
    (hcp : s.contentlen + (decimal n).length = s.cp) (hroom : s.cp < s.bufsz) :
    afterLength s = { s with
      mem := s.mem.write s.cp [0], cp := s.cp + 1, i := s.cp + 1, len := n, pc := .moreBlank } := by
  have hzero : (s.mem.write s.cp [0]).Holds s.contentlen (decimal n ++ [0]) := by
    refine Memory.holds_append.mpr ⟨hm.write (.inr hcp.le), ?_⟩
    rw [hcp]
    exact Memory.holds_write_self _ _ _
  have hlen := atoi_text (s := { s with mem := s.mem.write s.cp [0], cp := s.cp + 1 }) hzero
    (by simp only; omega) hn
  simp only [afterLength, hlen]

/-- White space, the digits of the length and the byte behind them. -/
theorem reaches_digits {blanks : List Byte} {n : ℕ} {c : Byte} (hpc : s.pc = .lenSpace)
    (hblanks : ∀ b ∈ blanks, isSpace b = true) (hn : n < 2 ^ 31) (hc : isDigit c = false)
    (hm : s.mem.Holds s.cp (blanks ++ decimal n ++ [c]))
    (hroom : s.cp + (blanks ++ decimal n ++ [c]).length ≤ s.bufsz) :
    Reaches (step jobid fin) s { s with
      mem := s.mem.write (s.cp + (blanks ++ decimal n).length) [0]
      cp := s.cp + (blanks ++ decimal n).length + 1
      i := s.cp + (blanks ++ decimal n).length + 1
      contentlen := s.cp + blanks.length
      len := n
      pc := .moreBlank } := by
  simp only [List.length_append, List.length_singleton, ← Nat.add_assoc] at hroom ⊢
  simp only [List.append_assoc, Memory.holds_append, Memory.holds_cons] at hm
  obtain ⟨hm₁, hm₂, hstop, -⟩ := hm
  have hdigit : ∀ b ∈ decimal n, isDigit b = true := fun b hb => isDigit_of_mem_decimal hb
  have h₁ : Reaches (step jobid fin) s { s with cp := s.cp + blanks.length } :=
    reaches_skip (fun _ => step_lenSpace) hpc hblanks hm₁ (by omega)
  have h₂ : step jobid fin { s with cp := s.cp + blanks.length } = some { s with
      cp := s.cp + blanks.length, contentlen := s.cp + blanks.length, pc := .lenDigits } :=
    step_lenSpace_end hpc (by show s.cp + blanks.length < s.bufsz; omega) (first_digit hm₂)
  have h₃ : Reaches (step jobid fin)
      { s with cp := s.cp + blanks.length, contentlen := s.cp + blanks.length, pc := .lenDigits }
      { s with
        cp := s.cp + blanks.length + (decimal n).length
        contentlen := s.cp + blanks.length
        pc := .lenDigits } :=
    reaches_skip (fun _ => step_lenDigits) rfl hdigit hm₂
      (by show s.cp + blanks.length + (decimal n).length ≤ s.bufsz; omega)
  have hend : s.cp + blanks.length + (decimal n).length < s.bufsz := by omega
  have h₄ : step jobid fin { s with
        cp := s.cp + blanks.length + (decimal n).length
        contentlen := s.cp + blanks.length
        pc := .lenDigits } = some (afterLength _) :=
    step_lenDigits_end rfl hend (by
      show isDigit (s.mem (s.cp + blanks.length + (decimal n).length)) = false
      rwa [hstop])
  rw [afterLength_eq (s := { s with
    cp := s.cp + blanks.length + (decimal n).length
    contentlen := s.cp + blanks.length
    pc := .lenDigits }) hn hm₂ rfl hend] at h₄
  exact ((h₁.tail h₂).trans h₃).tail h₄

theorem reaches_length {name blanks : List Byte} {n : ℕ} {c : Byte}
    (hpc : s.pc = .findC ∨ s.pc = .compare) (hsync : s.cp = s.i)
    (hname : name.map toLower = contentLengthName.map toLower)
    (hblanks : ∀ b ∈ blanks, isSpace b = true) (hn : n < 2 ^ 31) (hc : isDigit c = false)
    (hm : s.mem.Holds s.i (name ++ (blanks ++ decimal n ++ [c])))
    (hnr : s.i + (name ++ (blanks ++ decimal n ++ [c])).length ≤ s.nr) (hfits : s.nr ≤ s.bufsz) :
    Reaches (step jobid fin) s { s with
      mem := s.mem.write (s.i + 15 + (blanks ++ decimal n).length) [0]
      cp := s.i + 15 + (blanks ++ decimal n).length + 1
      i := s.i + 15 + (blanks ++ decimal n).length + 1
      contentlen := s.i + 15 + blanks.length
      len := n
      pc := .moreBlank } := by
  obtain ⟨hm, hm'⟩ := Memory.holds_append.mp hm
  rw [List.length_append] at hnr
  have h₁ : Reaches (step jobid fin) s { s with cp := s.cp + 15, pc := .lenSpace } :=
    reaches_name hpc hsync hname (by rwa [hsync]) (by omega) hfits
  rw [length_name hname] at hm' hnr
  have h₂ : Reaches (step jobid fin) { s with cp := s.i + 15, pc := .lenSpace } _ :=
    reaches_digits rfl hblanks hn hc hm' (by simp only; omega)
  rw [hsync] at h₁
  exact h₁.trans h₂

/-! ## The blank line -/

/-- The end of a line and the next one, as the search for the blank line meets them. -/
def nextLine (l : List Byte) : List Byte := 10 :: l ++ [13]

theorem length_nextLine (l : List Byte) : (nextLine l).length = l.length + 2 := by simp [nextLine]

theorem step_blank (hpc : s.pc = .blank) (hlt : s.i < s.nr - 2) :
    step jobid fin s = some (lookBlank s) := by
  simp only [step, hpc, if_pos hlt]

theorem step_blank_pass (hpc : s.pc = .blank) (hsync : s.cp = s.i) (hlt : s.i < s.nr - 2)
    (hfits : s.nr ≤ s.bufsz)
    (hno : ¬ (s.mem s.cp = 10 ∧ s.mem (s.cp + 1) = 13 ∧ s.mem (s.cp + 2) = 10)) :
    step jobid fin s = some { s with cp := s.cp + 1, i := s.i + 1 } := by
  rw [step_blank hpc hlt, lookBlank_pass (by omega) hno]

theorem step_blank_found (hpc : s.pc = .blank) (hsync : s.cp = s.i) (hlt : s.i < s.nr - 2)
    (hfits : s.nr ≤ s.bufsz) (hm : s.mem.Holds s.cp [10, 13, 10]) :
    step jobid fin s = some { s with cp := s.cp + 3, i := s.i + 3, pc := .moreFound true } := by
  simp only [Memory.holds_cons] at hm
  obtain ⟨h₀, h₁, h₂, -⟩ := hm
  have hk : s.cp + 2 < s.bufsz := by omega
  have hk₁ : s.cp + 1 < s.bufsz := by omega
  have hk₀ : s.cp < s.bufsz := by omega
  rw [step_blank hpc hlt]
  simp only [lookBlank, St.loaded, hk, hk₁, hk₀, h₀, h₁, show s.mem (s.cp + 2) = 10 from h₂,
    if_true, ne_eq, not_true, if_false]

theorem step_moreBlank_idle (hpc : s.pc = .moreBlank) (hlt : s.i < s.nr) :
    step jobid fin s = some { s with cp := s.i, pc := .blank } := by
  simp only [step, hpc]
  exact congrArg some (more_idle hlt .blank)

theorem reaches_pass {w : List Byte} (hpc : s.pc = .blank) (hsync : s.cp = s.i)
    (hm : s.mem.Holds s.cp w) (hw : ∀ b ∈ w, b ≠ 10) (hnr : s.i + w.length + 2 ≤ s.nr)
    (hfits : s.nr ≤ s.bufsz) :
    Reaches (step jobid fin) s { s with cp := s.cp + w.length, i := s.i + w.length } := by
  refine reaches_turns (g := fun k => { s with cp := s.cp + k, i := s.i + k }) fun k hk =>
    reaches_step ?_
  refine step_blank_pass hpc (by simp only; omega) (by simp only; omega) hfits fun h => ?_
  rw [hm.get hk] at h
  exact hw _ (List.getElem_mem hk) h.1

theorem reaches_line {l : List Byte} (hpc : s.pc = .blank) (hsync : s.cp = s.i) (hl : Line l)
    (hne : l ≠ []) (hm : s.mem.Holds s.cp (nextLine l)) (hnr : s.i + (nextLine l).length + 2 ≤ s.nr)
    (hfits : s.nr ≤ s.bufsz) :
    Reaches (step jobid fin) s
      { s with cp := s.cp + (nextLine l).length, i := s.i + (nextLine l).length } := by
  obtain ⟨-, hm⟩ := Memory.holds_cons.mp hm
  have hsecond : s.mem (s.cp + 1) ≠ 13 := by
    obtain ⟨b, t, rfl⟩ := List.exists_cons_of_ne_nil hne
    rw [(Memory.holds_cons.mp hm).1]
    exact (hl b (by simp)).1
  rw [length_nextLine] at hnr
  have hone : step jobid fin s = some { s with cp := s.cp + 1, i := s.i + 1 } :=
    step_blank_pass hpc hsync (by omega) hfits fun h => hsecond h.2.1
  have hrest : Reaches (step jobid fin) { s with cp := s.cp + 1, i := s.i + 1 } _ :=
    reaches_pass (w := l ++ [13]) hpc (by simp [hsync]) hm
      (fun b hb => by
        rcases List.mem_append.mp hb with hb | hb
        · exact (hl b hb).2
        · rw [List.mem_singleton.mp hb]
          decide)
      (by
        simp only [List.length_append, List.length_singleton]
        omega)
      hfits
  have hend : ({ s with cp := s.cp + 1 + (l ++ [13]).length, i := s.i + 1 + (l ++ [13]).length } : St) =
      { s with cp := s.cp + (nextLine l).length, i := s.i + (nextLine l).length } := by
    simp only [nextLine, List.length_cons, List.cons_append, Nat.add_assoc, Nat.add_comm 1]
  rw [← hend]
  exact (reaches_step hone).trans hrest

theorem reaches_lines {ls : List (List Byte)} (hpc : s.pc = .blank) (hsync : s.cp = s.i)
    (hls : ∀ l ∈ ls, Line l ∧ l ≠ []) (hm : s.mem.Holds s.cp (ls.flatMap nextLine))
    (hnr : s.i + (ls.flatMap nextLine).length + 2 ≤ s.nr) (hfits : s.nr ≤ s.bufsz) :
    Reaches (step jobid fin) s { s with
      cp := s.cp + (ls.flatMap nextLine).length
      i := s.i + (ls.flatMap nextLine).length } := by
  induction ls generalizing s with
  | nil => exact .refl
  | cons l ls ih =>
    rw [List.flatMap_cons] at hm hnr ⊢
    obtain ⟨hm, hm'⟩ := Memory.holds_append.mp hm
    rw [List.length_append] at hnr ⊢
    obtain ⟨hl, hne⟩ := hls l (by simp)
    have hone : Reaches (step jobid fin) s _ := reaches_line hpc hsync hl hne hm (by omega) hfits
    have hrest := ih (s := { s with
        cp := s.cp + (nextLine l).length, i := s.i + (nextLine l).length })
      hpc (by simp [hsync]) (fun l' hl' => hls l' (by simp [hl'])) hm' (by simp only; omega) hfits
    simp only [Nat.add_assoc] at hrest
    exact hone.trans hrest

/-- The header lines behind the content length and the blank line. -/
theorem reaches_found {ls : List (List Byte)} (hpc : s.pc = .blank) (hsync : s.cp = s.i)
    (hls : ∀ l ∈ ls, Line l ∧ l ≠ []) (hm : s.mem.Holds s.cp (ls.flatMap nextLine ++ [10, 13, 10]))
    (hnr : s.i + (ls.flatMap nextLine ++ [10, 13, 10]).length ≤ s.nr) (hfits : s.nr ≤ s.bufsz) :
    Reaches (step jobid fin) s { s with
      cp := s.cp + (ls.flatMap nextLine ++ [10, 13, 10]).length
      i := s.i + (ls.flatMap nextLine ++ [10, 13, 10]).length
      pc := .moreFound true } := by
  obtain ⟨hm, hend⟩ := Memory.holds_append.mp hm
  simp only [List.length_append, List.length_cons, List.length_nil, ← Nat.add_assoc] at hnr ⊢
  have hlines : Reaches (step jobid fin) s _ := reaches_lines hpc hsync hls hm (by omega) hfits
  exact hlines.tail (step_blank_found hpc (by simp [hsync]) (by simp only; omega) hfits hend)

end PrinterScan
