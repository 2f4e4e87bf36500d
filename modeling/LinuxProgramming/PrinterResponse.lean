import LinuxProgramming.PrinterScan
import LinuxProgramming.IppRequest

/-! # Answers in pieces

An answer of the printer as a sequence of segments, and what `printer_status` makes of it when
its reads end at the ends of segments. -/
namespace PrinterResponse

open Printd (ioBufsz)
open IppRequest (lowWord lowWord_lt ippHeader written_ippHeader)
open CStrings IppEncoding ByteMachines StateTransition PrinterStatus PrinterScan

variable {jobid : ℤ} {fin : Ending} {s t : St}

/-! ## The first line -/

/-- The state in which the status line has been passed. -/
structure AtReason (s : St) (code : ℕ) (first : ℕ) (tail : List Byte) : Prop where
  code : atoi (St.text { s with mem := s.mem.write s.cp [0] } s.statcode) = code
  cp : s.cp = first
  holds : s.mem.Holds (s.cp + 1) tail
  nr : s.nr = s.cp + 1 + tail.length
  bufsz : s.bufsz = ioBufsz

section FirstLine

variable {version reason tail : List Byte} {code : ℕ} {ps : List (List Byte)}
  (hv : version.length = 8) (hreason : Line reason) (hpc : s.pc = .tread) (hbuf : s.bufsz = ioBufsz)
  (hp : s.pieces = (statusLine version code reason ++ 13 :: tail) :: ps)
include hv hreason hpc hbuf hp

theorem reaches_afterReason (hroom : (statusLine version code reason ++ 13 :: tail).length ≤ ioBufsz)
    (hcode : code < 2 ^ 31) : ∃ u, Reaches (step jobid fin) s (afterReason u) ∧
      AtReason u code (statusLine version code reason).length tail ∧
      u.pieces = ps ∧ u.success = s.success := by
  obtain ⟨m, hm⟩ : ∃ m, s.mem.write 0 (statusLine version code reason ++ 13 :: tail) = m := ⟨_, rfl⟩
  have hread : step jobid fin s = some { s with
      mem := m
      pieces := ps
      nr := (statusLine version code reason ++ 13 :: tail).length
      cp := 8
      pc := .space } := by
    have hpos : (0 : ℤ) < (statusLine version code reason ++ 13 :: tail).length := by
      simp only [List.length_append, List.length_cons]
      omega
    simp only [step, hpc, tread_cons hp, List.take_of_length_le hroom, if_pos hroom, if_pos hpos, hm]
  have hall := Memory.holds_write_self s.mem 0 (statusLine version code reason ++ 13 :: tail)
  rw [hm, List.append_cons] at hall
  obtain ⟨hall, htail⟩ := Memory.holds_append.mp hall
  have hdigits : m.Holds 9 (decimal code) := by
    have h := (Memory.holds_append.mp hall).1
    simp only [statusLine, List.append_assoc, List.cons_append, Memory.holds_append,
      Memory.holds_cons, hv, Nat.zero_add] at h
    exact h.2.2.1
  have hlen := length_statusLine hv code reason
  simp only [List.length_append, List.length_cons] at hroom
  rw [Nat.zero_add, List.length_append, List.length_singleton] at htail
  have hrun : Reaches (step jobid fin) _ _ := reaches_status (s := { s with
      mem := m
      pieces := ps
      nr := (statusLine version code reason ++ 13 :: tail).length
      cp := 8
      pc := .space }) hv hreason rfl rfl hall (by simp only; omega)
  have hbehind : 9 + (decimal code).length + 1 ≤ (statusLine version code reason).length := by omega
  refine ⟨_, (reaches_step hread).trans hrun, ?_, rfl, rfl⟩
  constructor
  · refine atoi_text (Memory.holds_append.mpr ⟨?_, ?_⟩) ?_ hcode
    · exact (hdigits.write (.inr le_rfl)).write (.inr (Nat.le_of_succ_le hbehind))
    · exact (Memory.holds_write_self _ _ _).write (.inr hbehind)
    · simp only
      omega
  · rfl
  · exact htail.write (.inl (Nat.le_succ_of_le hbehind))
  · simp only [List.length_append, List.length_cons]
    omega
  · exact hbuf

theorem reaches_info (hroom : (statusLine version code reason ++ 13 :: tail).length ≤ ioBufsz)
    (hcode : httpInfo code = true) : ∃ t, Reaches (step jobid fin) s t ∧ t.pc = .tread ∧ t.bufsz = ioBufsz ∧ t.pieces = ps ∧
      t.success = s.success := by
  have hlt : code < 2 ^ 31 := by
    simp only [httpInfo, Bool.and_eq_true, decide_eq_true_eq] at hcode
    omega
  obtain ⟨u, hrun, hu, hps, hs⟩ := reaches_afterReason hv hreason hpc hbuf hp hroom hlt
  refine ⟨_, hrun, ?_⟩
  simp only [afterReason, hu.code, hcode, if_true]
  exact ⟨rfl, hu.bufsz, hps, hs⟩

theorem reaches_failure (hroom : (statusLine version code reason ++ 13 :: tail).length < ioBufsz)
    (hlt : code < 2 ^ 31) (hinfo : httpInfo code = false) (hcode : httpSuccess code = false) : ∃ t, Reaches (step jobid fin) s t ∧ t.pc = .returned ∧ t.success = s.success := by
  obtain ⟨u, hrun, hu, -, hs⟩ := reaches_afterReason hv hreason hpc hbuf hp hroom.le hlt
  have hnr : u.nr < u.bufsz := by
    rw [hu.nr, hu.bufsz, hu.cp]
    simp only [List.length_append, List.length_cons] at hroom
    omega
  have hafter : afterReason u = { u with
      mem := (u.mem.write u.cp [0]).write u.nr.toNat [0], pc := .out } := by
    simp only [afterReason, hu.code, hinfo, hcode, Bool.false_eq_true, if_false, if_pos hnr]
  rw [hafter] at hrun
  exact ⟨_, hrun.tail rfl, rfl, hs⟩

/-- An answer of success: on to the search for the content length. -/
theorem reaches_success (hroom : (statusLine version code reason ++ 13 :: tail).length ≤ ioBufsz)
    (hcode : httpSuccess code = true) : ∃ t, Reaches (step jobid fin) s t ∧ t.pc = .findC ∧ t.cp = t.i ∧
      t.i = (statusLine version code reason).length ∧ t.mem.Holds t.i (0 :: tail) ∧
      t.nr = t.i + 1 + tail.length ∧ t.bufsz = ioBufsz ∧ t.pieces = ps ∧ t.success = s.success := by
  have hbounds : code < 2 ^ 31 ∧ httpInfo code = false := by
    simp only [httpSuccess, httpInfo, Bool.and_eq_true, decide_eq_true_eq, Bool.and_eq_false_iff,
      decide_eq_false_iff_not] at hcode ⊢
    omega
  obtain ⟨hlt, hinfo⟩ := hbounds
  obtain ⟨u, hrun, hu, hps, hs⟩ := reaches_afterReason hv hreason hpc hbuf hp hroom hlt
  refine ⟨_, hrun, ?_⟩
  simp only [afterReason, hu.code, hinfo, hcode, Bool.false_eq_true, if_false, if_true]
  refine ⟨trivial, trivial, hu.cp, ?_, hu.nr, hu.bufsz, hps, hs⟩
  exact Memory.holds_cons.mpr ⟨(Memory.holds_cons.mp (Memory.holds_write_self _ _ _)).1,
    hu.holds.write (.inl (by simp))⟩

end FirstLine

/-! ## Reading on at the end of a segment -/

/-- The segments that have been read and not been passed, and those that further reads bring. -/
structure Window (s : St) (cur : List (List Byte)) (groups : List (List (List Byte))) : Prop where
  sync : s.cp = s.i
  holds : s.mem.Holds s.i cur.flatten
  nr : s.nr = s.i + cur.flatten.length
  pieces : s.pieces = groups.map List.flatten
  full : ∀ g ∈ groups, g.flatten ≠ []
  room : s.i + (cur ++ groups.flatten).flatten.length < s.bufsz
  success : s.success = false

namespace Window

variable {cur : List (List Byte)} {groups : List (List (List Byte))} {x : List Byte}

theorem goto (h : Window s cur groups) (pc : Pc) : Window { s with pc := pc } cur groups :=
  ⟨h.sync, h.holds, h.nr, h.pieces, h.full, h.room, h.success⟩

theorem fits (h : Window s cur groups) : s.nr ≤ s.bufsz := by
  have hnr := h.nr
  have hroom := h.room
  rw [List.flatten_append, List.length_append] at hroom
  omega

theorem pass (h : Window s (x :: cur) groups) (pc : Pc) :
    Window { s with cp := s.cp + x.length, i := s.i + x.length, pc := pc } cur groups := by
  have hholds := h.holds
  have hnr := h.nr
  have hroom := h.room
  simp only [List.flatten_cons, List.cons_append, List.length_append] at hholds hnr hroom
  refine ⟨?_, (Memory.holds_append.mp hholds).2, ?_, h.pieces, h.full, ?_, h.success⟩
  · simp only [h.sync]
  · simp only
    omega
  · simp only
    omega

end Window

theorem more_read {p : List Byte} {ps : List (List Byte)} (hp : s.pieces = p :: ps) (hne : p ≠ [])
    (hroom : s.i + p.length ≤ s.bufsz) (pc : Pc) :
    s.more fin true pc = { s with
      mem := s.mem.write s.i p
      pieces := ps
      nr := s.i + p.length
      cp := s.i
      pc := pc } := by
  have hpos : 0 < p.length := List.length_pos_iff.mpr hne
  have hgrow : s.grow s.i = s := by
    rw [St.grow, if_neg (by omega)]
  have hfit : p.length ≤ s.bufsz - s.i := by omega
  have hread : s.readmore fin s.i = { s with
      mem := s.mem.write s.i p
      pieces := ps
      nr := s.i + p.length } := by
    rw [St.readmore, hgrow, tread_cons hp, List.take_of_length_le hfit, if_pos hfit]
    simp only
    rw [if_pos (by omega)]
  rw [St.more, if_pos rfl, hread]
  simp only
  rw [if_neg (by omega)]

/-- With a segment left, `more` reads where nothing is at hand and leaves the window otherwise. -/
theorem Window.more {cur : List (List Byte)} {groups : List (List (List Byte))} {x : List Byte}
    {xs : List (List Byte)} (h : Window s cur groups) (fin : Ending) (hx : x ≠ [])
    (hall : cur ++ groups.flatten = x :: xs) (pc : Pc) :
    ∃ m n ps cur' groups', s.more fin (s.nr ≤ s.i) pc = { s with
        mem := m, nr := n, pieces := ps, cp := s.i, pc := pc } ∧
      Window { s with mem := m, nr := n, pieces := ps, cp := s.i, pc := pc } (x :: cur') groups' ∧
      cur' ++ groups'.flatten = xs := by
  have hnr := h.nr
  have hroom := h.room
  cases cur with
  | nil =>
    cases groups with
    | nil => cases hall
    | cons g gs =>
      have hg := h.full g (by simp)
      cases g with
      | nil => exact absurd rfl hg
      | cons y g =>
        simp only [List.nil_append, List.flatten_cons, List.cons_append, List.cons.injEq] at hall
        obtain ⟨rfl, rfl⟩ := hall
        simp only [List.flatten_nil, List.length_nil] at hnr
        have hdec : decide (s.nr ≤ s.i) = true := by
          rw [decide_eq_true_eq]
          omega
        simp only [List.nil_append, List.flatten_cons, List.flatten_append, List.length_append] at hroom
        rw [hdec, more_read h.pieces hg (by simp only [List.flatten_cons, List.length_append]; omega)]
        refine ⟨_, _, _, g, gs, rfl, ⟨rfl, Memory.holds_write_self _ _ _, rfl, rfl, ?_, ?_, h.success⟩, rfl⟩
        · exact fun g' hg' => h.full g' (by simp [hg'])
        · simp only [List.flatten_append, List.flatten_cons, List.length_append]
          omega
  | cons y cur =>
    simp only [List.cons_append, List.cons.injEq] at hall
    obtain ⟨rfl, rfl⟩ := hall
    have hpos : 0 < y.length := List.length_pos_iff.mpr hx
    simp only [List.flatten_cons, List.length_append] at hnr
    rw [more_idle (by omega)]
    exact ⟨_, _, _, cur, groups, rfl, ⟨rfl, h.holds, h.nr, h.pieces, h.full, h.room, h.success⟩, rfl⟩

/-! ## Up to the content length -/

theorem strncasecmp_head {b : Byte} (hb : toLower b ≠ 99) (x : List Byte) :
    strncasecmp (b :: x) contentLengthName = some false := by
  have hname : contentLengthName = 67 :: contentLengthName.tail := by decide +kernel
  have hfirst : toLower 67 = 99 := by decide
  rw [hname, strncasecmp, hfirst, if_neg hb]

theorem line_miss {l t rest : List Byte} (hl : Clean l) (ht : t <:+ l ++ crlf) (hne : t ≠ []) :
    strncasecmp (t ++ rest) contentLengthName = some false := by
  have hcrlf : l ++ crlf = l ++ [13] ++ [10] := by simp [crlf]
  rw [hcrlf, List.suffix_concat_iff] at ht
  rcases ht with rfl | ⟨t', rfl, ht'⟩
  · exact absurd rfl hne
  · rcases List.suffix_concat_iff.mp ht' with rfl | ⟨u, rfl, hu⟩
    · exact strncasecmp_head (by decide) _
    · rw [List.append_assoc, List.append_assoc]
      exact strncasecmp_line (hl u hu)

theorem nul_miss {t rest : List Byte} (ht : t <:+ [0, 10]) (hne : t ≠ []) :
    strncasecmp (t ++ rest) contentLengthName = some false := by
  rcases List.suffix_cons_iff.mp ht with rfl | ht
  · exact strncasecmp_head (by decide) _
  · rcases List.suffix_cons_iff.mp ht with rfl | ht
    · exact strncasecmp_head (by decide) _
    · exact absurd (List.suffix_nil.mp ht) hne

section Search

variable {cur : List (List Byte)} {groups : List (List (List Byte))} {x : List Byte}
  {xs : List (List Byte)}

theorem reaches_front (h : Window s cur groups) (hpc : s.pc = .findC) (hx : x ≠ [])
    (hall : cur ++ groups.flatten = x :: xs) :
    ∃ t cur' groups', Reaches (step jobid fin) s t ∧ (t.pc = .findC ∨ t.pc = .compare) ∧
      Window t (x :: cur') groups' ∧ cur' ++ groups'.flatten = xs := by
  cases cur with
  | nil =>
    have hnr := h.nr
    have hroom := h.room
    have hsync := h.sync
    simp only [List.flatten_nil, List.length_nil] at hnr
    have hempty : ¬ (s.mem s.cp ≠ 67 ∧ s.mem s.cp ≠ 99 ∧ s.i < s.nr) := by
      rintro ⟨-, -, hlt⟩
      omega
    have h₁ : step jobid fin s = some (s.goto .moreHeader) := by
      rw [step_findC hpc (by omega), if_neg hempty]
    obtain ⟨m, n, ps, cur', groups', hmore, hw, hxs⟩ :=
      (h.goto .moreHeader).more fin hx hall .compare
    have h₂ : step jobid fin (s.goto .moreHeader) = some _ := congrArg some hmore
    exact ⟨_, cur', groups', (reaches_step h₁).tail h₂, .inr rfl, hw, hxs⟩
  | cons y cur =>
    simp only [List.cons_append, List.cons.injEq] at hall
    obtain ⟨rfl, rfl⟩ := hall
    exact ⟨s, cur, groups, .refl, .inl hpc, h, rfl⟩

theorem reaches_behind (h : Window s (x :: cur) groups) (hpc : s.pc = .findC ∨ s.pc = .compare)
    (hx : x ≠ [])
    (hmiss : ∀ t, t <:+ x → t ≠ [] → strncasecmp (t ++ cur.flatten) contentLengthName = some false) :
    ∃ t, Reaches (step jobid fin) s t ∧ t.pc = .findC ∧ Window t cur groups := by
  have hholds := h.holds
  have hnr := h.nr
  rw [List.flatten_cons] at hholds hnr
  refine ⟨_, reaches_passed hpc h.sync hx ?_ hnr.ge h.fits hmiss, rfl, h.pass .findC⟩
  rwa [h.sync]

/-- Over the lines in front of the content length, whatever the reads bring. -/
theorem reaches_ending {before : List (List Byte)} (hbefore : ∀ l ∈ before, Clean l)
    (h : Window s cur groups) (hpc : s.pc = .findC) (hx : x ≠ [])
    (hall : cur ++ groups.flatten = before.map (· ++ crlf) ++ x :: xs) :
    ∃ t cur' groups', Reaches (step jobid fin) s t ∧ (t.pc = .findC ∨ t.pc = .compare) ∧
      Window t (x :: cur') groups' ∧ cur' ++ groups'.flatten = xs := by
  induction before generalizing s cur groups with
  | nil => exact reaches_front h hpc hx hall
  | cons l before ih =>
    have hne : l ++ crlf ≠ [] := by simp [crlf]
    obtain ⟨t, cur₁, groups₁, hrun, hpc₁, hw, hrest⟩ := reaches_front h hpc hne hall
    obtain ⟨u, hrun', hpc₂, hw'⟩ := reaches_behind hw hpc₁ hne fun _ => line_miss (hbefore l (by simp))
    obtain ⟨v, cur', groups', hrun'', hv⟩ :=
      ih (fun l' hl' => hbefore l' (by simp [hl'])) hw' hpc₂ hrest
    exact ⟨v, cur', groups', (hrun.trans hrun').trans hrun'', hv⟩

end Search

/-! ## From the content length to the body -/

theorem lines_eq (ls : List (List Byte)) :
    10 :: ls.flatMap (· ++ crlf) ++ crlf = ls.flatMap nextLine ++ [10, 13, 10] := by
  induction ls with
  | nil => rfl
  | cons l ls ih =>
    have hl : nextLine l ++ [10] = 10 :: (l ++ crlf) := by simp [nextLine, crlf]
    calc 10 :: (l :: ls).flatMap (· ++ crlf) ++ crlf
        = 10 :: (l ++ crlf) ++ ls.flatMap (· ++ crlf) ++ crlf := by
          rw [List.flatMap_cons]
          rfl
      _ = nextLine l ++ (10 :: ls.flatMap (· ++ crlf) ++ crlf) := by
          rw [← hl]
          simp
      _ = (l :: ls).flatMap nextLine ++ [10, 13, 10] := by
          rw [ih, List.flatMap_cons, List.append_assoc]

/-- The segment with the content length and what is left of the header. -/
structure Ends (x : List Byte) (n : ℕ) where
  name : List Byte
  blanks : List Byte
  stop : Byte
  rest : List Byte
  behind : List (List Byte)
  name_eq : name.map toLower = contentLengthName.map toLower
  blanks_space : ∀ b ∈ blanks, isSpace b = true
  stop_digit : isDigit stop = false
  rest_ne : ∀ b ∈ rest, b ≠ 10
  behind_lines : ∀ l ∈ behind, Line l ∧ l ≠ []
  eq : x = name ++ (blanks ++ decimal n ++ [stop]) ++ (rest ++ (behind.flatMap nextLine ++ [10, 13, 10]))

theorem reaches_header_end {cur : List (List Byte)} {groups : List (List (List Byte))} {x : List Byte}
    {n : ℕ} (h : Window s (x :: cur) groups) (hpc : s.pc = .findC ∨ s.pc = .compare) (e : Ends x n)
    (hn : n < 2 ^ 31) :
    ∃ t, Reaches (step jobid fin) s t ∧ t.pc = .moreFound true ∧ t.len = n ∧ Window t cur groups := by
  have hholds := h.holds
  have hnr := h.nr
  have hroom := h.room
  have hfits := h.fits
  have hx : x.length = (e.name ++ (e.blanks ++ decimal n ++ [e.stop])).length +
      (e.rest.length + (e.behind.flatMap nextLine ++ [10, 13, 10]).length) :=
    (congrArg List.length e.eq).trans (by simp only [List.length_append])
  rw [List.flatten_cons, e.eq, List.append_assoc] at hholds
  rw [List.flatten_cons, List.length_append, hx] at hnr
  obtain ⟨hm₁, hm₂⟩ := Memory.holds_append.mp hholds
  obtain ⟨k, hk⟩ : ∃ k, s.i + 15 + (e.blanks ++ decimal n).length = k := ⟨_, rfl⟩
  have hk₁ : s.i + (e.name ++ (e.blanks ++ decimal n ++ [e.stop])).length = k + 1 := by
    simp only [List.length_append, length_name e.name_eq, List.length_singleton] at hk ⊢
    omega
  have h₁ : Reaches (step jobid fin) s _ :=
    reaches_length hpc h.sync e.name_eq e.blanks_space hn e.stop_digit hm₁ (by omega) hfits
  rw [hk] at h₁
  rw [hk₁] at hm₂
  rw [List.append_assoc] at hm₂
  -- the byte behind the digits is now a NUL, what is behind it as before
  have hm₃ : (s.mem.write k [0]).Holds (k + 1) _ := hm₂.write (.inl le_rfl)
  obtain ⟨hrest, hm₃⟩ := Memory.holds_append.mp hm₃
  obtain ⟨hlines, hcur⟩ := Memory.holds_append.mp hm₃
  have hthree : 3 ≤ (e.behind.flatMap nextLine ++ [10, 13, 10]).length := by simp
  have h₂ : step jobid fin { s with
      mem := s.mem.write k [0], cp := k + 1, i := k + 1, contentlen := s.i + 15 + e.blanks.length
      len := n, pc := .moreBlank } = some { s with
      mem := s.mem.write k [0], cp := k + 1, i := k + 1, contentlen := s.i + 15 + e.blanks.length
      len := n, pc := .blank } :=
    step_moreBlank_idle rfl (by simp only; omega)
  have h₃ : Reaches (step jobid fin) { s with
      mem := s.mem.write k [0], cp := k + 1, i := k + 1, contentlen := s.i + 15 + e.blanks.length
      len := n, pc := .blank } _ :=
    reaches_pass rfl rfl hrest e.rest_ne (by simp only; omega) hfits
  have h₄ : Reaches (step jobid fin) { s with
      mem := s.mem.write k [0], cp := k + 1 + e.rest.length, i := k + 1 + e.rest.length
      contentlen := s.i + 15 + e.blanks.length, len := n, pc := .blank } _ :=
    reaches_found rfl rfl e.behind_lines hlines (by simp only; omega) hfits
  refine ⟨_, ((h₁.tail h₂).trans h₃).trans h₄, rfl, rfl, ?_⟩
  constructor
  · rfl
  · exact hcur
  · simp only
    omega
  · exact h.pieces
  · exact h.full
  · rw [List.cons_append, List.flatten_cons, List.length_append] at hroom
    simp only
    omega
  · exact h.success

/-! ## The body -/

def accepts (body : List Byte) (jobid : ℤ) : Bool :=
  (beNat ((body.drop 4).take 4) : ℤ) = jobid && statclassOk (beNat ((body.drop 2).take 2))

theorem step_moreBody_idle (hpc : s.pc = .moreBody) (hlen : s.nr - s.i = s.len) :
    step jobid fin s = some { s with cp := s.i, pc := .ippHdr } := by
  have hdec : decide (s.nr - s.i < s.len) = false := by
    rw [decide_eq_false_iff_not]
    omega
  simp only [step, hpc, hdec]
  rfl

theorem reaches_body {cur : List (List Byte)} {groups : List (List (List Byte))} {body : List Byte}
    (h : Window s cur groups) (hpc : s.pc = .moreFound true) (hlen : s.len = body.length)
    (height : 8 ≤ body.length) (hall : cur ++ groups.flatten = [body]) :
    ∃ t, Reaches (step jobid fin) s t ∧ t.pc = .returned ∧ t.success = accepts body jobid := by
  have hne : body ≠ [] := by
    rintro rfl
    simp at height
  obtain ⟨m, n, ps, cur', groups', hmore, hw, hnil⟩ := h.more fin hne hall .moreBody
  obtain ⟨rfl, -⟩ := List.append_eq_nil_iff.mp hnil
  have hholds := hw.holds
  have hnr := hw.nr
  have hroom := hw.fits
  simp only [List.flatten_cons, List.flatten_nil, List.append_nil] at hholds hnr hroom
  have h₁ : step jobid fin s = some { s with mem := m, nr := n, pieces := ps, cp := s.i, pc := .moreBody } := by
    simp only [step, hpc, if_true]
    exact congrArg some hmore
  have h₂ : step jobid fin { s with mem := m, nr := n, pieces := ps, cp := s.i, pc := .moreBody } =
      some { s with mem := m, nr := n, pieces := ps, cp := s.i, pc := .ippHdr } :=
    step_moreBody_idle rfl (by simp only; omega)
  have hst : m.slice (s.i + 2) 2 = (body.drop 2).take 2 := hholds.slice_drop (by omega)
  have hid : m.slice (s.i + 4) 4 = (body.drop 4).take 4 := hholds.slice_drop (by omega)
  have h₃ : step jobid fin { s with mem := m, nr := n, pieces := ps, cp := s.i, pc := .ippHdr } =
      some { s with
        mem := m, nr := n, pieces := ps, cp := s.i, success := accepts body jobid, pc := .out } := by
    have hfit : s.i + 8 ≤ s.bufsz := by omega
    simp only [step, checkIpp, hst, hid, if_pos hfit, h.success, Bool.false_or, accepts]
  exact ⟨_, (((reaches_step h₁).tail h₂).tail h₃).tail rfl, rfl, rfl⟩

/-! ## Whole answers -/

def white (b : Byte) : Bool := b = space || b = 9

theorem white_spec {b : Byte} (h : white b = true) :
    isSpace b = true ∧ isDigit b = false ∧ b ≠ 10 := by
  simp only [white, Bool.or_eq_true, decide_eq_true_eq] at h
  rcases h with rfl | rfl <;> decide

/-- A block of header lines that announces an answer to come. -/
structure Interim where
  version : List Byte
  code : ℕ
  reason : List Byte
  lines : List (List Byte)
  version_length : version.length = 8
  code_info : httpInfo code = true
  reason_line : Line reason

def Interim.bytes (b : Interim) : List Byte :=
  statusLine b.version b.code b.reason ++ crlf ++ b.lines.flatMap (· ++ crlf) ++ crlf

/-- The final answer: a header with a content length, and an IPP message of that length. -/
structure Response where
  version : List Byte
  code : ℕ
  reason : List Byte
  before : List (List Byte)
  name : List Byte
  blanks : List Byte
  trail : List Byte
  behind : List (List Byte)
  body : List Byte
  version_length : version.length = 8
  code_lt : code < 1000
  code_final : httpInfo code = false
  reason_line : Line reason
  before_lines : ∀ l ∈ before, Line l ∧ l ≠ [] ∧ Clean l
  name_eq : name.map toLower = contentLengthName.map toLower
  blanks_white : ∀ b ∈ blanks, white b = true
  trail_white : ∀ b ∈ trail, white b = true
  behind_lines : ∀ l ∈ behind, Line l ∧ l ≠ []
  body_length : 8 ≤ body.length

namespace Response

variable (r : Response)

def opening : List Byte := statusLine r.version r.code r.reason ++ crlf

def closing : List Byte :=
  r.name ++ r.blanks ++ decimal r.body.length ++ r.trail ++ crlf ++ r.behind.flatMap (· ++ crlf) ++ crlf

def segments : List (List Byte) := r.opening :: r.before.map (· ++ crlf) ++ [r.closing, r.body]

def bytes : List Byte := r.segments.flatten

theorem closing_eq : r.closing = r.name ++ (r.blanks ++ (decimal r.body.length ++
    (r.trail ++ 13 :: (r.behind.flatMap nextLine ++ [10, 13, 10])))) := by
  rw [← lines_eq]
  simp [closing, crlf]

theorem exists_ends : Nonempty (Ends r.closing r.body.length) := by
  have hblanks : ∀ b ∈ r.blanks, isSpace b = true := fun b hb => (white_spec (r.blanks_white b hb)).1
  cases htrail : r.trail with
  | nil =>
    refine ⟨⟨r.name, r.blanks, 13, [], r.behind, r.name_eq, hblanks, by decide, by simp,
      r.behind_lines, ?_⟩⟩
    simp [closing_eq, htrail]
  | cons c tr =>
    have hc := white_spec (r.trail_white c (by simp [htrail]))
    refine ⟨⟨r.name, r.blanks, c, tr ++ [13], r.behind, r.name_eq, hblanks, hc.2.1, fun b hb => ?_,
      r.behind_lines, ?_⟩⟩
    · rcases List.mem_append.mp hb with hb | hb
      · exact (white_spec (r.trail_white b (by simp [htrail, hb]))).2.2
      · rw [List.mem_singleton.mp hb]
        decide
    · simp [closing_eq, htrail]

theorem closing_ne : r.closing ≠ [] := by simp [closing, crlf]

end Response

def CutAt (segments pieces : List (List Byte)) : Prop :=
  ∃ groups : List (List (List Byte)), groups.flatten = segments ∧ pieces = groups.map List.flatten

theorem cutAt_whole (r : Response) : CutAt r.segments [r.bytes] := ⟨[r.segments], by simp, rfl⟩

theorem reaches_end (hpc : s.pc = .tread) (hp : s.pieces = []) :
    ∃ t, Reaches (step jobid fin) s t ∧ t.pc = .returned ∧ t.success = s.success := by
  have h₁ : step jobid fin s = some { s with nr := fin.result, pc := .out } := by
    have hneg : ¬ 0 < fin.result := by
      have := result_nonpos fin
      omega
    simp only [step, hpc, tread_nil hp, if_neg hneg]
  exact ⟨_, (reaches_step h₁).tail rfl, rfl, rfl⟩

theorem reaches_interims (blocks : List Interim) {ps : List (List Byte)} (hpc : s.pc = .tread)
    (hbuf : s.bufsz = ioBufsz) (hp : s.pieces = blocks.map Interim.bytes ++ ps)
    (hroom : ∀ b ∈ blocks, b.bytes.length ≤ ioBufsz) :
    ∃ t, Reaches (step jobid fin) s t ∧ t.pc = .tread ∧ t.bufsz = ioBufsz ∧ t.pieces = ps ∧
      t.success = s.success := by
  induction blocks generalizing s with
  | nil => exact ⟨s, .refl, hpc, hbuf, hp, rfl⟩
  | cons b blocks ih =>
    have hb : b.bytes = statusLine b.version b.code b.reason ++
        13 :: (10 :: b.lines.flatMap (· ++ crlf) ++ crlf) := by
      simp [Interim.bytes, crlf]
    have hone := hroom b (by simp)
    rw [List.map_cons, List.cons_append, hb] at hp
    rw [hb] at hone
    obtain ⟨t, hrun, htpc, htbuf, htp, hts⟩ :=
      reaches_info b.version_length b.reason_line hpc hbuf hp hone b.code_info
    obtain ⟨u, hrun', hupc, hubuf, hup, hus⟩ :=
      ih htpc htbuf htp fun b' hb' => hroom b' (by simp [hb'])
    exact ⟨u, hrun.trans hrun', hupc, hubuf, hup, hus.trans hts⟩

theorem reaches_result {r : Response} {cur : List (List Byte)} {groups : List (List (List Byte))}
    (h : Window s cur groups) (hpc : s.pc = .findC) (hroom : r.bytes.length < ioBufsz)
    (hall : cur ++ groups.flatten = r.before.map (· ++ crlf) ++ [r.closing, r.body]) :
    ∃ t, Reaches (step jobid fin) s t ∧ t.pc = .returned ∧ t.success = accepts r.body jobid := by
  have hn : r.body.length < 2 ^ 31 := by
    have hle : r.body.length ≤ r.bytes.length := by simp [Response.bytes, Response.segments]; omega
    have hbuf : ioBufsz < 2 ^ 31 := by decide
    omega
  obtain ⟨e⟩ := r.exists_ends
  obtain ⟨t, cur₁, groups₁, hrun, htpc, hw, hrest⟩ :=
    reaches_ending (fun l hl => (r.before_lines l hl).2.2) h hpc r.closing_ne hall
  obtain ⟨u, hrun', hupc, hlen, hw'⟩ := reaches_header_end hw htpc e hn
  obtain ⟨v, hrun'', hv⟩ := reaches_body hw' hupc hlen r.body_length hrest
  exact ⟨v, (hrun.trans hrun').trans hrun'', hv⟩

/-- The answer, read piece by piece from a state that waits for it. -/
theorem reaches_answer {r : Response} {pieces : List (List Byte)} (hcut : CutAt r.segments pieces)
    (hne : ∀ p ∈ pieces, p ≠ []) (hroom : r.bytes.length < ioBufsz) (hpc : s.pc = .tread)
    (hbuf : s.bufsz = ioBufsz) (hp : s.pieces = pieces) (hs : s.success = false) :
    ∃ t, Reaches (step jobid fin) s t ∧ t.pc = .returned ∧
      t.success = (httpSuccess r.code && accepts r.body jobid) := by
  obtain ⟨groups, hall, rfl⟩ := hcut
  cases groups with
  | nil => cases hall
  | cons g gs =>
    cases g with
    | nil => exact absurd rfl (hne [] (by simp))
    | cons x g =>
      rw [List.flatten_cons, List.cons_append, Response.segments, List.cons_append,
        List.cons.injEq] at hall
      obtain ⟨rfl, hall⟩ := hall
      have hfirst : (r.opening :: g).flatten =
          statusLine r.version r.code r.reason ++ 13 :: 10 :: g.flatten := by
        simp [Response.opening, crlf]
      have hbytes : r.bytes.length = (r.opening :: g).flatten.length + gs.flatten.flatten.length := by
        rw [Response.bytes, Response.segments, List.cons_append, ← hall]
        simp [Nat.add_assoc]
      rw [List.map_cons, hfirst] at hp
      rw [hfirst] at hbytes
      cases hcode : httpSuccess r.code with
      | false =>
        have hlt : r.code < 2 ^ 31 := lt_trans r.code_lt (by decide)
        obtain ⟨t, hrun, htpc, hts⟩ := reaches_failure r.version_length r.reason_line hpc hbuf hp
          (by omega) hlt r.code_final hcode
        exact ⟨t, hrun, htpc, by rw [hts, hs, Bool.false_and]⟩
      | true =>
        obtain ⟨t, hrun, htpc, hsync, hi, hholds, hnr, htbuf, htp, hts⟩ :=
          reaches_success r.version_length r.reason_line hpc hbuf hp (by omega) hcode
        -- the carriage return has become a NUL
        have hw : Window t ([0, 10] :: g) gs := by
          refine ⟨hsync, by simpa using hholds, ?_, htp, ?_, ?_, hts.trans hs⟩
          · rw [hnr]
            simp only [List.flatten_cons, List.length_append, List.length_cons, List.length_nil]
            omega
          · exact fun g' hg' => hne _ (List.mem_map_of_mem (List.mem_cons_of_mem _ hg'))
          · rw [hi, htbuf]
            simp only [List.flatten_cons, List.flatten_append, List.cons_append, List.length_append,
              List.length_cons, List.length_nil] at hbytes ⊢
            omega
        obtain ⟨u, hrun', hupc, hw'⟩ := reaches_behind hw (.inl htpc) (by simp) fun _ => nul_miss
        obtain ⟨v, hrun'', hvpc, hv⟩ := reaches_result hw' hupc hroom hall
        exact ⟨v, (hrun.trans hrun').trans hrun'', hvpc, by rw [hv, Bool.true_and]⟩

def continueBlock : Interim where
  version := ascii "HTTP/1.1"
  code := 100
  reason := ascii "Continue"
  lines := []
  version_length := by decide +kernel
  code_info := by decide
  reason_line := by decide +kernel

def okAnswer (id : List Byte) (hid : id.length = 4) : Response where
  version := ascii "HTTP/1.1"
  code := 200
  reason := ascii "OK"
  before := [ascii "Content-Type: application/ipp"]
  name := contentLengthName
  blanks := [space]
  trail := []
  behind := []
  body := [1, 1, 0, 0] ++ id
  version_length := by decide +kernel
  code_lt := by decide
  code_final := by decide
  reason_line := by decide +kernel
  before_lines := by decide +kernel
  name_eq := rfl
  blanks_white := by simp [white]
  trail_white := by simp
  behind_lines := by decide
  body_length := by simp [hid]

/-- An answer with the blocks in front of it, from the start of the call. -/
theorem reaches_judged (jobid : ℤ) (fin : Ending) (junk : Memory) (blocks : List Interim)
    {r : Response} {pieces : List (List Byte)} (hcut : CutAt r.segments pieces)
    (hne : ∀ p ∈ pieces, p ≠ []) (hblocks : ∀ b ∈ blocks, b.bytes.length ≤ ioBufsz)
    (hroom : r.bytes.length < ioBufsz) :
    ∃ t, Reaches (step jobid fin) (start junk (blocks.map Interim.bytes ++ pieces)) t ∧
      t.pc = .returned ∧ t.success = (httpSuccess r.code && accepts r.body jobid) := by
  obtain ⟨t, hrun, htpc, htbuf, htp, hts⟩ :=
    reaches_interims (s := start junk (blocks.map Interim.bytes ++ pieces)) blocks rfl rfl rfl hblocks
  obtain ⟨u, hrun', hu⟩ := reaches_answer hcut hne hroom htpc htbuf htp hts
  exact ⟨u, hrun.trans hrun', hu⟩

theorem judged_iff {code : ℕ} {body : List Byte} {jobid : ℤ} :
    (httpSuccess code && accepts body jobid) = true ↔ (200 ≤ code ∧ code ≤ 299) ∧
      statclassOk (beNat ((body.drop 2).take 2)) = true ∧
      (beNat ((body.drop 4).take 4) : ℤ) = jobid := by
  have hcode : httpSuccess code = true ↔ 200 ≤ code ∧ code ≤ 299 := by
    simp only [httpSuccess, Bool.and_eq_true, decide_eq_true_eq]
    omega
  rw [Bool.and_eq_true, hcode, accepts, Bool.and_eq_true, decide_eq_true_eq,
    and_comm (a := (beNat _ : ℤ) = jobid)]

/-- What has been read of the header breaks off between the content length and the blank line. -/
theorem reaches_stuck {groups : List (List (List Byte))} {x blanks rest : List Byte} {n : ℕ} {c : Byte}
    (h : Window s [x] groups) (hpc : s.pc = .findC ∨ s.pc = .compare)
    (hblanks : ∀ b ∈ blanks, isSpace b = true) (hn : n < 2 ^ 31) (hc : isDigit c = false)
    (hx : x = contentLengthName ++ (blanks ++ decimal n ++ [c]) ++ rest) (hne : rest ≠ [])
    (hrest : ¬ [10, 13, 10] <:+: rest) :
    ∃ t, Reaches (step jobid fin) s t ∧ Stuck t := by
  have hholds := h.holds
  have hnr := h.nr
  have hfits := h.fits
  have hpos : 0 < rest.length := List.length_pos_iff.mpr hne
  simp only [List.flatten_cons, List.flatten_nil, List.append_nil] at hholds hnr
  rw [hx, List.length_append] at hnr
  rw [hx] at hholds
  obtain ⟨hm₁, hm₂⟩ := Memory.holds_append.mp hholds
  have h₁ : Reaches (step jobid fin) s _ :=
    reaches_length hpc h.sync rfl hblanks hn hc hm₁ (by omega) hfits
  obtain ⟨k, hk⟩ : ∃ k, s.i + 15 + (blanks ++ decimal n).length = k := ⟨_, rfl⟩
  have hk₁ : s.i + (contentLengthName ++ (blanks ++ decimal n ++ [c])).length = k + 1 := by
    simp only [List.length_append, length_name rfl, List.length_singleton] at hk ⊢
    omega
  rw [hk] at h₁
  rw [hk₁] at hm₂
  have hm₃ : (s.mem.write k [0]).Holds (k + 1) rest := hm₂.write (.inl le_rfl)
  refine ⟨_, h₁.tail (step_moreBlank_idle rfl (by simp only; omega)), rfl, rfl, ?_, hfits, ?_⟩
  · simp only
    omega
  · intro j hj hlt hblank
    simp only at hj hlt hblank
    have hslice := hm₃.slice_drop (b := j - (k + 1)) (n := 3) (by omega)
    rw [Nat.add_sub_cancel' hj] at hslice
    refine hrest (List.IsInfix.trans ?_ (List.drop_suffix (j - (k + 1)) rest).isInfix)
    refine List.IsInfix.trans ?_ (List.take_prefix 3 _).isInfix
    rw [← hslice, Memory.slice_succ, Memory.slice_succ, Memory.slice_succ, Memory.slice_zero,
      hblank.1, hblank.2.1, show s.mem.write k [0] (j + 1 + 1) = 10 from hblank.2.2]

theorem requestId_written (printerName usernm jobnm : List Byte) (flags : ℕ) (jobid : ℤ)
    (ibuf : List Byte) :
    ((ippHeader printerName usernm jobnm flags jobid ibuf).written.drop 4).take 4 =
      be 4 (lowWord jobid) := by
  have hfour : ([1, 1] ++ be 2 IppRequest.opPrintJob).length = 4 := by simp
  rw [(written_ippHeader printerName usernm jobnm flags jobid ibuf).2]
  simp only [List.append_assoc]
  rw [← List.append_assoc [1, 1], List.drop_left' hfour, List.take_left' (length_be 4 _)]

/-- The answer to a success carries the id of `other`'s request. -/
theorem echo_judged {jobid other : ℤ} {code : ℕ} {body : List Byte} (hcode : 200 ≤ code ∧ code ≤ 299)
    (hst : statclassOk (beNat ((body.drop 2).take 2)) = true)
    (hid : (body.drop 4).take 4 = be 4 (lowWord other)) :
    (httpSuccess code && accepts body jobid) = true ↔ other % 2 ^ 32 = jobid := by
  have hword : (beNat (be 4 (lowWord other)) : ℤ) = other % 2 ^ 32 := by
    rw [beNat_be_of_lt (lowWord_lt other), lowWord, Int.toNat_of_nonneg (Int.emod_nonneg _ (by decide))]
  rw [judged_iff, hid, hword]
  exact ⟨fun h => h.2.2, fun h => ⟨hcode, hst, h⟩⟩

def echo (jobid : ℤ) : Response :=
  okAnswer (((ippHeader (ascii "lp") (ascii "sar") (ascii "memo") 0 jobid []).written.drop 4).take 4)
    (by rw [requestId_written, length_be])

end PrinterResponse
