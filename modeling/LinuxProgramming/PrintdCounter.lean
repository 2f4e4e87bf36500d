import LinuxProgramming.Printd
import Mathlib.Algebra.Order.Ring.Int
import Mathlib.Tactic.Positivity

/-! # The job counter and its file

`update_jobno` writes the counter over the start of its file and never shortens the file.
What `init_request` reads back then depends on every number that was written before, in
this life of the daemon or in an earlier one. -/
namespace PrintdCounter

open CStrings ByteFiles Interleaving Volumes Printd

/-- `get_newjobno` and then `update_jobno`, both to their ends. -/
def turn (s : Shared) : Option Shared :=
  (follow (fun x t => getNewjobno x.1 t x.2) (s, .jobnoLock blankReq)
    (List.replicate 4 (.client 0))).bind fun x =>
  (follow (fun x ans => updateJobno x.1 ans x.2) (x.1, .updateSprintf 0) [.ok, .ok]).map Prod.fst

/-- The counter with the numbers written so far, the last one first. -/
structure Counter where
  shared : Shared
  written : List ℤ

inductive Action where
  | turn
  | restart (junk : List Byte)
  deriving DecidableEq, Repr

def next (c : Counter) : Action → Option Counter
  | .turn => (turn c.shared).map fun s => ⟨s, s.nextjob :: c.written⟩
  | .restart junk => some ⟨boot c.shared junk, c.written⟩

def first (spool : Volume Printd.Path) (junk : List Byte) : Counter :=
  ⟨boot (initial spool []).shared junk, []⟩

def places (n : ℤ) : ℕ := (decimalInt n).length

def longest (l : List ℤ) : ℕ := (l.map places).foldr max 0

theorem longest_le {l : List ℤ} {k : ℕ} : longest l ≤ k ↔ ∀ m ∈ l, places m ≤ k := by
  induction l with
  | nil => simp [longest]
  | cons m l ih =>
    rw [longest] at ih
    simp [longest, ih]

theorem longest_cons (m : ℤ) (l : List ℤ) : longest (m :: l) = max (places m) (longest l) := rfl

/-! ## The two functions -/

/-- The number behind `n`. -/
def following (n : ℤ) : ℤ := if toLong (n + 1) ≤ 0 then 1 else toLong (n + 1)

theorem turn_eq {s : Shared} (h : s.lock = none) :
    turn s = some { s with
      nextjob := following s.nextjob
      jobno := pwrite s.jobno 0 (decimalInt (following s.nextjob)) } := by
  obtain ⟨spool, jobno, history, nextjob, lock, jobwait, links, jobs, live, log, accepts⟩ := s
  cases h
  by_cases hn : toLong (nextjob + 1) ≤ 0 <;>
    simp [turn, follow, getNewjobno, updateJobno, Shared.take, Shared.release, following, hn,
      List.replicate]

theorem following_lt {n : ℤ} (h0 : 0 < n) (h : n < longMax) : following n = n + 1 := by
  have hl : toLong (n + 1) = n + 1 := by
    rw [toLong]
    simp only [longMax] at h
    exact Int.bmod_eq_of_le (by omega) (by omega)
  rw [following, hl, if_neg (by omega)]

theorem following_longMax : following longMax = 1 := by decide

theorem following_bounds {n : ℤ} (h0 : 0 < n) (h : n ≤ longMax) :
    0 < following n ∧ following n ≤ longMax := by
  rcases lt_or_eq_of_le h with hlt | rfl
  · rw [following_lt h0 hlt]
    omega
  · rw [following_longMax]
    decide

/-! ## Decimal places -/

theorem places_pos {n : ℤ} (h : 0 < n) : 0 < places n := by
  obtain ⟨m, rfl⟩ := Int.eq_ofNat_of_zero_le h.le
  exact List.length_pos_iff.mpr (decimal_ne_nil m)

theorem places_le {n : ℤ} (h : 0 < n) {k : ℕ} (hk : 0 < k) : places n ≤ k ↔ n < 10 ^ k := by
  obtain ⟨m, rfl⟩ := Int.eq_ofNat_of_zero_le h.le
  have := length_decimal_le (n := m) hk
  simp only [places, decimalInt] at this ⊢
  rw [this]
  norm_cast

theorem pow_places_le {n : ℤ} (h : 0 < n) : (10 : ℤ) ^ (places n - 1) ≤ n := by
  by_cases hone : places n - 1 = 0
  · rw [hone, pow_zero]
    exact h
  · have := places_le h (k := places n - 1) (by omega)
    omega

theorem lt_places {n : ℤ} (h : 0 < n) {k : ℕ} (hk : (10 : ℤ) ^ k ≤ n) : k < places n := by
  by_contra hle
  have hpos := places_pos h
  exact absurd ((places_le h (by omega)).mp (not_lt.mp hle)) (not_lt.mpr hk)

theorem places_mono {m n : ℤ} (h0 : 0 < m) (h : m ≤ n) : places m ≤ places n := by
  have hn := places_pos (lt_of_lt_of_le h0 h)
  rw [places_le h0 hn]
  exact lt_of_le_of_lt h ((places_le (lt_of_lt_of_le h0 h) hn).mp le_rfl)

theorem places_le_nineteen {n : ℤ} (h0 : 0 < n) (h : n ≤ longMax) : places n ≤ 19 := by
  rw [places_le h0 (by decide)]
  exact lt_of_le_of_lt h (by decide)

/-! ## Reading back -/

theorem jobFileName_drop {k : ℕ} (hk : k ≤ 19) (junk : List Byte) :
    ((jobFileName ++ 0 :: junk).drop k).takeWhile isDigit = [] := by
  have hlen : jobFileName.length = 24 := by decide +kernel
  have hnone : ∀ b ∈ jobFileName, isDigit b = false := by decide +kernel
  obtain ⟨b, l, hl⟩ := List.exists_cons_of_length_pos (l := jobFileName.drop k)
    (by rw [List.length_drop]; omega)
  have hb : b ∈ jobFileName := List.mem_of_mem_drop (by rw [hl]; exact List.mem_cons_self)
  rw [List.drop_append_of_le_length (by omega), hl, List.cons_append,
    List.takeWhile_cons_of_neg (by simp [hnone b hb])]

theorem initRequest_digits {f : List Byte} (hne : f ≠ []) (hf : ∀ b ∈ f, isDigit b = true)
    (hlen : f.length ≤ 19) (junk : List Byte) :
    initRequest f junk = min (digitsValue f : ℤ) longMax := by
  have hmin : min filenmsz f.length = f.length := by
    simp only [filenmsz]
    omega
  have hpos : f.length ≠ 0 := fun h => hne (List.length_eq_zero_iff.mp h)
  have hval := digitsValue_append hf (jobFileName_drop hlen junk)
  have hatol : atol (f ++ (jobFileName ++ 0 :: junk).drop f.length) = digitsValue f := by
    rw [← hval]
    exact atol_append_of_digits hne hf _
  simp only [initRequest, hmin, if_neg hpos, List.take_length, atolLong, hatol]
  refine max_eq_right (le_min ?_ (by decide))
  exact le_trans (by decide) (Int.natCast_nonneg _)

/-- The file starts with a number that was written, and more digits may stand behind it. -/
structure Image (c : Counter) (n : ℕ) (rest : List Byte) : Prop where
  jobno : c.shared.jobno = decimal n ++ rest
  pos : 0 < n
  digits : ∀ b ∈ rest, isDigit b = true

/-- The counter is the number written last, or what the last restart has read. -/
def Current (c : Counter) (n : ℕ) : Prop :=
  c.shared.nextjob = n ∨ c.shared.nextjob = min (digitsValue c.shared.jobno : ℤ) longMax

structure CounterOK (c : Counter) : Prop where
  lock : c.shared.lock = none
  pos : 0 < c.shared.nextjob
  le : c.shared.nextjob ≤ longMax
  short : c.shared.jobno.length ≤ 19
  length : c.shared.jobno.length = longest c.written
  image : c.shared.jobno = [] ∧ c.shared.nextjob = 1 ∨
    ∃ n rest, Image c n rest ∧ Current c n

namespace CounterOK

variable {c : Counter}

theorem digits (h : CounterOK c) : ∀ b ∈ c.shared.jobno, isDigit b = true := by
  intro b hb
  rcases h.image with ⟨hnil, -⟩ | ⟨n, rest, hi, -⟩
  · rw [hnil] at hb
    cases hb
  · rw [hi.jobno] at hb
    rcases List.mem_append.mp hb with hb | hb
    · exact isDigit_of_mem_decimal hb
    · exact hi.digits b hb

theorem initRequest_eq (h : CounterOK c) {n : ℕ} {rest : List Byte} (hi : Image c n rest)
    (junk : List Byte) :
    initRequest c.shared.jobno junk = min (digitsValue c.shared.jobno : ℤ) longMax := by
  refine initRequest_digits ?_ h.digits h.short junk
  rw [hi.jobno]
  exact List.append_ne_nil_of_left_ne_nil (decimal_ne_nil n) rest

theorem le_value {n : ℕ} {rest : List Byte} (hi : Image c n rest) :
    n * 10 ^ rest.length ≤ digitsValue c.shared.jobno := by
  rw [hi.jobno]
  exact le_digitsValue n hi.digits

theorem turn (h : CounterOK c) {c' : Counter} (hnext : next c .turn = some c') : CounterOK c' := by
  obtain ⟨hpos, hle⟩ := following_bounds h.pos h.le
  rw [next, turn_eq h.lock, Option.map_some, Option.some.injEq] at hnext
  subst hnext
  obtain ⟨k, hk⟩ := Int.eq_ofNat_of_zero_le hpos.le
  have hwrite : pwrite c.shared.jobno 0 (decimalInt (following c.shared.nextjob)) =
      decimal k ++ c.shared.jobno.drop (decimal k).length := by
    simp [hk, pwrite, decimalInt]
  have hplaces : places (following c.shared.nextjob) = (decimal k).length := by
    rw [hk]
    rfl
  have h19 := places_le_nineteen hpos hle
  have hshort := h.short
  constructor
  case lock => exact h.lock
  case pos => exact hpos
  case le => exact hle
  case short =>
    simp only [hwrite, List.length_append, List.length_drop]
    omega
  case length =>
    have hlength := h.length
    simp only [hwrite, List.length_append, List.length_drop, longest_cons, hplaces]
    omega
  case image =>
    refine .inr ⟨k, c.shared.jobno.drop (decimal k).length, ⟨hwrite, by omega, ?_⟩, .inl hk⟩
    exact fun b hb => h.digits b (List.mem_of_mem_drop hb)

theorem restart (h : CounterOK c) (junk : List Byte) :
    CounterOK ⟨boot c.shared junk, c.written⟩ := by
  rcases h.image with ⟨hnil, -⟩ | ⟨n, rest, hi, -⟩
  · have hone : initRequest c.shared.jobno junk = 1 := by simp [initRequest, hnil]
    exact ⟨rfl, by simp [boot, hone], by simp [boot, hone, longMax], h.short, h.length,
      .inl ⟨hnil, hone⟩⟩
  · have hread := h.initRequest_eq hi junk
    have hvalue : 0 < digitsValue c.shared.jobno :=
      lt_of_lt_of_le (Nat.mul_pos hi.pos (Nat.pow_pos (by decide))) (le_value hi)
    constructor
    case lock => rfl
    case pos =>
      simp only [boot, hread]
      exact lt_min (by exact_mod_cast hvalue) (by decide)
    case le =>
      simp only [boot, hread]
      exact min_le_right _ _
    case short => exact h.short
    case length => exact h.length
    case image => exact .inr ⟨n, rest, ⟨hi.jobno, hi.pos, hi.digits⟩, .inr hread⟩

theorem of_run {spool : Volume Printd.Path} {junk : List Byte} {ok : Counter → Action → Prop}
    (hrun : Run next ok (first spool junk) c) : CounterOK c := by
  refine hrun.invariant ⟨rfl, ?_, ?_, ?_, ?_, .inl ⟨rfl, ?_⟩⟩ fun c a c' hc _ hnext => ?_
  · exact Int.one_pos
  · show (1 : ℤ) ≤ longMax
    decide
  · exact Nat.zero_le _
  · rfl
  · rfl
  · cases a with
    | turn => exact hc.turn hnext
    | restart junk =>
      cases hnext
      exact hc.restart junk

/-- A restart finds the counter unless more digits stand in the file than the counter has. -/
theorem reads_iff (h : CounterOK c) (junk : List Byte) :
    initRequest c.shared.jobno junk = c.shared.nextjob ↔
      longest c.written ≤ places c.shared.nextjob := by
  rw [← h.length]
  rcases h.image with ⟨hnil, hone⟩ | ⟨n, rest, hi, hcur⟩
  · simp [hnil, hone, initRequest]
  · have hread := h.initRequest_eq hi junk
    have hvalue := le_value hi
    have hn : (0 : ℤ) < n := by exact_mod_cast hi.pos
    have hlen : c.shared.jobno.length = places n + rest.length := by
      rw [hi.jobno, List.length_append]
      rfl
    have hshort := h.short
    rcases hcur with hcur | hcur
    -- the number written last stands in front, and is all of the file or is followed by digits
    · rw [hcur, hlen]
      cases hrest : rest with
      | nil =>
        have hback : digitsValue c.shared.jobno = n := by
          have := digitsValue_decimal n (show ([] : List Byte).takeWhile isDigit = [] from rfl)
          rwa [← hrest, ← hi.jobno] at this
        have hmax : (n : ℤ) ≤ longMax := hcur ▸ h.le
        rw [hread, hback, min_eq_left hmax]
        simp
      | cons b l =>
        have hlong : 0 < rest.length := by simp [hrest]
        have hten : n * 10 ≤ digitsValue c.shared.jobno := by
          refine le_trans (Nat.mul_le_mul_left n ?_) hvalue
          exact Nat.le_self_pow (by omega) 10
        have hlt : (n : ℤ) < 10 ^ 18 := (places_le hn (by decide)).mp (by omega)
        have hne : min (digitsValue c.shared.jobno : ℤ) longMax ≠ n := by
          simp only [longMax]
          omega
        rw [hread]
        simp [hne]
    -- the counter is what stands in the file, cut at the largest number
    · have hten : (10 : ℤ) ^ (c.shared.jobno.length - 1) ≤ c.shared.nextjob := by
        rw [hcur]
        refine le_min (le_trans ?_ (Int.ofNat_le.mpr hvalue)) (le_trans ?_ (show 10 ^ 18 ≤ longMax by decide))
        · have hfirst := pow_places_le hn
          have hplaces := places_pos hn
          rw [hlen, show places n + rest.length - 1 = places n - 1 + rest.length by omega, pow_add]
          push_cast
          exact mul_le_mul_of_nonneg_right hfirst (by positivity)
        · exact pow_le_pow_right₀ (by decide) (by omega)
      have hplaces := lt_places h.pos hten
      simp only [hread, ← hcur, true_iff]
      omega

end CounterOK

/-! ## Restarts -/

/-- The action does not take the counter past the largest number. -/
def noWrap (c : Counter) (a : Action) : Prop := a = .turn → c.shared.nextjob < longMax

/-- Without a wrap-around the numbers in the file never had more places than the counter. -/
theorem longest_le_of_noWrap {spool : Volume Printd.Path} {junk : List Byte} {c : Counter}
    (hrun : Run next noWrap (first spool junk) c) :
    longest c.written ≤ places c.shared.nextjob := by
  induction hrun with
  | refl => exact Nat.zero_le _
  | @tail c c' a hrun hok hnext ih =>
    have hc := CounterOK.of_run hrun
    cases a with
    | turn =>
      rw [next, turn_eq hc.lock, Option.map_some, Option.some.injEq] at hnext
      subst hnext
      have hmono := places_mono hc.pos (Int.le_add_one le_rfl)
      simp only [longest_cons, following_lt hc.pos (hok rfl)]
      omega
    | restart junk =>
      cases hnext
      have hread := (hc.reads_iff junk).mpr ih
      simp only [boot, hread]
      exact ih

/-- A number that does not have fewer places than the file is all of it after the next turn. -/
theorem next_turn {c : Counter} (hc : CounterOK c) (hlt : c.shared.nextjob < longMax)
    (hlen : c.shared.jobno.length ≤ places c.shared.nextjob) :
    ∃ c', next c .turn = some c' ∧ c'.shared.nextjob = c.shared.nextjob + 1 ∧
      c'.shared.jobno = decimalInt (c.shared.nextjob + 1) := by
  have hmono : places c.shared.nextjob ≤ places (c.shared.nextjob + 1) :=
    places_mono hc.pos (Int.le_add_one le_rfl)
  have hdrop : c.shared.jobno.drop (decimalInt (c.shared.nextjob + 1)).length = [] :=
    List.drop_eq_nil_of_le (le_trans hlen hmono)
  rw [next, turn_eq hc.lock, following_lt hc.pos hlt]
  exact ⟨_, rfl, rfl, by simp [pwrite, hdrop]⟩

theorem counts_to (spool : Volume Printd.Path) (junk : List Byte) (n : ℕ) (h : (n : ℤ) + 2 ≤ longMax) :
    ∃ c, Run next noWrap (first spool junk) c ∧ c.shared.nextjob = n + 2 ∧
      c.shared.jobno = decimalInt (n + 2) := by
  induction n with
  | zero =>
    have hone : (first spool junk).shared.nextjob = 1 := rfl
    have hrun : Run next noWrap (first spool junk) (first spool junk) := .refl _
    obtain ⟨c, hnext, hjob, hfile⟩ := next_turn (CounterOK.of_run hrun) (by rw [hone]; decide)
      (Nat.zero_le _)
    exact ⟨c, hrun.tail (fun _ => by rw [hone]; decide) hnext, hjob, hfile⟩
  | succ n ih =>
    obtain ⟨c, hrun, hjob, hfile⟩ := ih (by push_cast at h; omega)
    have hlt : c.shared.nextjob < longMax := by
      rw [hjob]
      push_cast at h
      omega
    obtain ⟨c', hnext, hjob', hfile'⟩ := next_turn (CounterOK.of_run hrun) hlt
      (by rw [hfile, hjob]; exact le_rfl)
    have hcast : ((n + 1 : ℕ) : ℤ) + 2 = n + 2 + 1 := by push_cast; omega
    rw [hcast]
    exact ⟨c', hrun.tail (fun _ => hlt) hnext, by rw [hjob', hjob], by rw [hfile', hjob]⟩

/-- After any history of calls and restarts a restart reads `nextjob` back exactly when no
number that was ever written has more places than `nextjob`. So it is while the counter has
never passed its largest value. -/
theorem restart_reads_nextjob (spool : Volume Printd.Path) (junk : List Byte) :
    (∀ c, Run next anyStep (first spool junk) c → ∀ junk',
      (initRequest c.shared.jobno junk' = c.shared.nextjob ↔
        ∀ m ∈ c.written, places m ≤ places c.shared.nextjob)) ∧
    (∀ c, Run next noWrap (first spool junk) c → ∀ junk',
      initRequest c.shared.jobno junk' = c.shared.nextjob) := by
  constructor
  · intro c hrun junk'
    rw [(CounterOK.of_run hrun).reads_iff junk', longest_le]
  · intro c hrun junk'
    exact ((CounterOK.of_run hrun).reads_iff junk').mpr (longest_le_of_noWrap hrun)

def emptySpool : Volume Printd.Path := ⟨[], fun _ => [], 0⟩

theorem restart_reads_three :
    ∃ c, Run next noWrap (first emptySpool []) c ∧ c.shared.nextjob = 3 ∧
      initRequest c.shared.jobno [] = 3 := by
  obtain ⟨c, hrun, hjob, -⟩ := counts_to emptySpool [] 1 (by decide)
  exact ⟨c, hrun, hjob, ((restart_reads_nextjob emptySpool []).2 c hrun []).trans hjob⟩

/-- Past the largest number the counter is 1, and a restart reads 1223372036854775807. -/
theorem counter_lost_at_wrap :
    ∃ c, Run next anyStep (first emptySpool []) c ∧ c.shared.nextjob = 1 ∧
      initRequest c.shared.jobno [] = 1223372036854775807 := by
  obtain ⟨c, hrun, hjob, hfile⟩ := counts_to emptySpool [] (2 ^ 63 - 3) (by decide)
  have hc := CounterOK.of_run hrun
  have hmax : c.shared.nextjob = longMax := hjob.trans (by decide)
  have hturn := turn_eq hc.lock
  rw [hmax, following_longMax] at hturn
  have hnext : next c .turn = some ⟨{ c.shared with
      nextjob := 1
      jobno := pwrite c.shared.jobno 0 (decimalInt 1) }, 1 :: c.written⟩ := by
    rw [next, hturn, Option.map_some]
  refine ⟨_, (hrun.mono fun _ _ _ => trivial).tail trivial hnext, rfl, ?_⟩
  show initRequest (pwrite c.shared.jobno 0 (decimalInt 1)) [] = _
  rw [hfile]
  decide +kernel

end PrintdCounter
