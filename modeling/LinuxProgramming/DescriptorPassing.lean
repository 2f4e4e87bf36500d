import LinuxProgramming.CStrings
import Mathlib.Data.List.Infix

/-! # The two-byte protocol of `send_fd` and `recv_fd`

A stream socket carries bytes; a descriptor passed by `sendmsg` travels with the first
byte of that call. The receiver sees the stream cut into `recvmsg` results of its
kernel's choice, and a passed descriptor arrives as the control data of the result that
holds its byte. -/
namespace DescriptorPassing

open CStrings

def maxLine : ℕ := 4096

structure Cell where
  byte : Byte
  rights : Option ℤ
  deriving DecidableEq, Repr

def plain (bs : List Byte) : List Cell := bs.map fun b => ⟨b, none⟩

/-- The conversion of an `int` to `char`. -/
def toChar (n : ℤ) : Byte := UInt8.ofNat (n % 256).toNat

def sendFd (fdToSend : ℤ) : List Cell :=
  if fdToSend < 0 then
    let status := toChar (-fdToSend)
    -- -256 and its multiples would read as a passed descriptor
    [⟨0, none⟩, ⟨if status = 0 then 1 else status, none⟩]
  else [⟨0, some fdToSend⟩, ⟨0, none⟩]

def sendErr (errcode : ℤ) (msg : List Byte) : List Cell :=
  plain msg ++ sendFd (if errcode ≥ 0 then -1 else errcode)

/-- One result of `recvmsg`; no cells is the end of the stream. -/
inductive Recvmsg where
  | failed
  | received (cells : List Cell)
  deriving DecidableEq, Repr

def control (cells : List Cell) : Option ℤ := cells.findSome? Cell.rights

inductive Outcome where
  | returned (r : ℤ)
  | errSys (text : String)
  | errDump (text : String)
  | waiting
  deriving DecidableEq, Repr

structure Scan where
  nr : ℕ
  status : ℤ
  newfd : ℤ
  deriving DecidableEq, Repr

/-- The search for the NUL flag, with `ptr` at the head of the bytes left in the buffer. -/
def scan (ctl : Option ℤ) : ℕ → List Byte → Scan → Except String Scan
  | _, [], s => .ok s
  | ptr, b :: rest, s =>
    if ptr < s.nr then
      if b = 0 then
        if ptr + 1 ≠ s.nr - 1 then .error "message format error"
        else
          let status : ℤ := (rest.headD 0).toNat
          if status = 0 then
            match ctl with
            | none => .error "status = 0 but no fd"
            | some fd => scan ctl (ptr + 1) rest ⟨s.nr - 2, status, fd⟩
          else scan ctl (ptr + 1) rest ⟨s.nr - 2, status, -status⟩
      else scan ctl (ptr + 1) rest s
    else .ok s

/-- The receiving loop, with the blocks it has handed to `userfunc`. -/
def recvLoop (userfunc : List Byte → ℤ) : List Recvmsg → ℤ → ℤ → Outcome × List (List Byte)
  | [], _, _ => (.waiting, [])
  | .failed :: _, _, _ => (.errSys "recvmsg error", [])
  | .received cells :: more, status, newfd =>
    if cells = [] then (.returned (-1), [])
    else
      let buf := cells.map Cell.byte
      match scan (control cells) 0 buf ⟨buf.length, status, newfd⟩ with
      | .error text => (.errDump text, [])
      | .ok s =>
        let block := buf.take s.nr
        if s.nr > 0 ∧ userfunc block ≠ s.nr then (.returned (-1), [block])
        else
          let handed := if s.nr > 0 then [block] else []
          if s.status ≥ 0 then (.returned s.newfd, handed)
          else
            let r := recvLoop userfunc more s.status s.newfd
            (r.1, handed ++ r.2)

def recvFd (userfunc : List Byte → ℤ) (results : List Recvmsg) : Outcome × List (List Byte) :=
  recvLoop userfunc results (-1) 0

/-- A way the socket may cut the stream into `recvmsg` results. -/
structure Cut (stream : List Cell) (parts : List (List Cell)) : Prop where
  whole : parts.flatten = stream
  sizes : ∀ p ∈ parts, 1 ≤ p.length ∧ p.length ≤ maxLine

/-- `recv_fd` hands exactly `data` to `userfunc` and then returns `r`. -/
def Delivers (userfunc : List Byte → ℤ) (parts : List (List Cell)) (data : List Byte)
    (r : ℤ) : Prop :=
  ∃ handed, recvFd userfunc (parts.map .received) = (.returned r, handed) ∧
    handed.flatten = data

@[simp] theorem map_byte_plain (bs : List Byte) : (plain bs).map Cell.byte = bs := by
  simp [plain, Function.comp_def]

@[simp] theorem control_plain (bs : List Byte) (cells : List Cell) :
    control (plain bs ++ cells) = control cells := by
  induction bs with
  | nil => rfl
  | cons b bs ih => simpa [plain, control] using ih

theorem scan_data (ctl : Option ℤ) {d : List Byte} (hd : (0 : Byte) ∉ d) (ptr : ℕ)
    (rest : List Byte) {s : Scan} (hs : ptr + d.length ≤ s.nr) :
    scan ctl ptr (d ++ rest) s = scan ctl (ptr + d.length) rest s := by
  induction d generalizing ptr with
  | nil => rfl
  | cons b d ih =>
    simp only [List.mem_cons, not_or] at hd
    simp only [List.length_cons] at hs ⊢
    have hlt : ptr < s.nr := by omega
    simp only [List.cons_append, scan, hlt, if_true, Ne.symm hd.1, if_false]
    rw [ih hd.2 (ptr + 1) (by omega)]
    congr 1
    omega

/-- What `recv_fd` makes of the status byte and the control data. -/
def flagResult (st : Byte) (ctl : Option ℤ) : Option ℤ :=
  if st = 0 then ctl else some (-(st.toNat : ℤ))

theorem scan_flag {ctl : Option ℤ} {st : Byte} {r : ℤ} (hr : flagResult st ctl = some r)
    (ptr : ℕ) (newfd : ℤ) :
    scan ctl ptr [0, st] ⟨ptr + 2, -1, newfd⟩ = .ok ⟨ptr, st.toNat, r⟩ := by
  -- the two bytes are taken off the count, so the loop ends behind the flag
  have hend : ¬ ptr + 1 < ptr := by omega
  by_cases hst : st = 0
  · subst hst
    simp only [flagResult, if_true] at hr
    subst hr
    simp [scan, hend]
  · simp only [flagResult, hst, if_false, Option.some.injEq] at hr
    subst hr
    have hz : st.toNat ≠ 0 := fun h => hst (UInt8.toNat_inj.mp h)
    simp [scan, hz, hend]

theorem sendFd_descriptor {v : ℤ} (hv : 0 ≤ v) : sendFd v = [⟨0, some v⟩, ⟨0, none⟩] := by
  simp [sendFd, Int.not_lt.mpr hv]

theorem sendFd_status {v : ℤ} (hv : v < 0) :
    ∃ st : Byte, st ≠ 0 ∧ sendFd v = [⟨0, none⟩, ⟨st, none⟩] ∧ (-255 ≤ v → (st.toNat : ℤ) = -v) := by
  by_cases hz : toChar (-v) = 0
  · refine ⟨1, by decide, by simp [sendFd, hv, hz], fun hlow => ?_⟩
    have hn := congrArg UInt8.toNat hz
    simp only [toChar, UInt8.toNat_ofNat', UInt8.toNat_zero] at hn
    omega
  · refine ⟨toChar (-v), hz, by simp [sendFd, hv, hz], fun hlow => ?_⟩
    simp only [toChar, UInt8.toNat_ofNat']
    omega

section Results

variable {userfunc : List Byte → ℤ} {d : List Byte} {status newfd : ℤ}

theorem recvLoop_data (hu : ∀ bs, userfunc bs = bs.length) (hd : (0 : Byte) ∉ d) (hne : d ≠ [])
    (more : List Recvmsg) :
    recvLoop userfunc (.received (plain d) :: more) (-1) newfd =
      ((recvLoop userfunc more (-1) newfd).1, d :: (recvLoop userfunc more (-1) newfd).2) := by
  have hcells : plain d ≠ [] := by simpa [plain] using hne
  have hpos : d.length > 0 := List.length_pos_iff.mpr hne
  have hscan := scan_data (control (plain d)) hd 0 []
    (s := ⟨d.length, -1, newfd⟩) (by simp)
  rw [List.append_nil] at hscan
  simp only [recvLoop, hcells, if_false, map_byte_plain, hscan, scan]
  simp [hpos, hu]

theorem recvLoop_flag (hu : ∀ bs, userfunc bs = bs.length) (hd : (0 : Byte) ∉ d) (v : ℤ)
    (more : List Recvmsg) : ∃ r handed,
      recvLoop userfunc (.received (plain d ++ sendFd v) :: more) (-1) newfd =
        (.returned r, handed) ∧ handed.flatten = d ∧
      (0 ≤ v → r = v) ∧ (-255 ≤ v ∧ v ≤ -1 → r = v) := by
  have hflag : ∃ st ctl r, sendFd v = [⟨0, ctl⟩, ⟨st, none⟩] ∧ flagResult st ctl = some r ∧
      (0 ≤ v → r = v) ∧ (-255 ≤ v ∧ v ≤ -1 → r = v) := by
    by_cases hv : v < 0
    · obtain ⟨st, hst, hsend, hval⟩ := sendFd_status hv
      refine ⟨st, none, -(st.toNat : ℤ), hsend, by simp [flagResult, hst], ?_, ?_⟩ <;> omega
    · have hv := Int.not_lt.mp hv
      exact ⟨0, some v, v, sendFd_descriptor hv, rfl, fun _ => rfl, fun _ => rfl⟩
  obtain ⟨st, ctl, r, hsend, hr, hfd, herr⟩ := hflag
  have hctl : control (plain d ++ [⟨0, ctl⟩, ⟨st, none⟩]) = ctl := by
    rw [control_plain]
    cases ctl <;> rfl
  have hcells : plain d ++ [(⟨0, ctl⟩ : Cell), ⟨st, none⟩] ≠ [] := by simp
  have hscan : scan ctl 0 (d ++ [0, st]) ⟨(d ++ [0, st]).length, -1, newfd⟩ =
      .ok ⟨d.length, st.toNat, r⟩ := by
    have hlen : (d ++ [0, st]).length = d.length + 2 := by simp
    rw [hlen, scan_data ctl hd 0 [0, st] (by simp), Nat.zero_add]
    exact scan_flag hr d.length newfd
  refine ⟨r, if d.length > 0 then [d] else [], ?_, ?_, hfd, herr⟩
  · rw [hsend]
    simp only [recvLoop, hcells, if_false, hctl, List.map_append, map_byte_plain, List.map_cons,
      List.map_nil, hscan]
    simp [hu]
  · cases d <;> simp

/-- A result that ends with the NUL byte of the flag is taken for a broken message. -/
theorem recvLoop_broken (hd : (0 : Byte) ∉ d) (ctl : Option ℤ) (more : List Recvmsg) :
    recvLoop userfunc (.received (plain d ++ [⟨0, ctl⟩]) :: more) (-1) newfd =
      (.errDump "message format error", []) := by
  have hcells : plain d ++ [(⟨0, ctl⟩ : Cell)] ≠ [] := by simp
  have hscan := scan_data (control (plain d ++ [⟨0, ctl⟩])) hd 0 [0]
    (s := ⟨(d ++ [0]).length, -1, newfd⟩) (by simp)
  simp only [recvLoop, hcells, if_false, List.map_append, map_byte_plain, List.map_cons,
    List.map_nil, hscan]
  simp [scan]

end Results

def FlagTogether (parts : List (List Cell)) : Prop := 2 ≤ (parts.getLastD []).length

instance (parts : List (List Cell)) : Decidable (FlagTogether parts) :=
  inferInstanceAs (Decidable (2 ≤ _))

theorem sendFd_cells (v : ℤ) : ∃ st ctl, sendFd v = [⟨0, ctl⟩, ⟨st, none⟩] := by
  by_cases hv : v < 0
  · obtain ⟨st, -, hsend, -⟩ := sendFd_status hv
    exact ⟨st, none, hsend⟩
  · exact ⟨0, some v, sendFd_descriptor (Int.not_lt.mp hv)⟩

/-- The first result of a cut: data only, data and the NUL byte alone, or everything. -/
theorem first_part {d : List Byte} {c₀ c₁ : Cell} {p rest : List Cell}
    (h : p ++ rest = plain d ++ [c₀, c₁]) :
    (∃ d₁ d₂, d = d₁ ++ d₂ ∧ p = plain d₁ ∧ rest = plain d₂ ++ [c₀, c₁]) ∨
    (p = plain d ++ [c₀] ∧ rest = [c₁]) ∨ (p = plain d ++ [c₀, c₁] ∧ rest = []) := by
  rcases List.append_eq_append_iff.mp h with ⟨q, hd, hrest⟩ | ⟨q, hp, hq⟩
  · left
    obtain ⟨d₁, d₂, rfl, h₁, h₂⟩ := List.map_eq_append_iff.mp (show d.map _ = p ++ q from hd)
    exact ⟨d₁, d₂, rfl, h₁.symm, by rw [hrest, ← h₂]; rfl⟩
  · match q, hq with
    | [], hq => exact Or.inl ⟨d, [], by simp, by simpa using hp, by simpa [plain] using hq.symm⟩
    | [a], hq =>
      simp only [List.cons_append, List.nil_append, List.cons.injEq] at hq
      exact Or.inr (Or.inl ⟨by rw [hp, hq.1], hq.2.symm⟩)
    | a :: b :: q, hq =>
      simp only [List.cons_append, List.cons.injEq] at hq
      obtain ⟨rfl, rfl, hq⟩ := hq
      obtain ⟨rfl, rfl⟩ := List.append_eq_nil_iff.mp hq.symm
      exact Or.inr (Or.inr ⟨hp, rfl⟩)

section Cuts

variable {userfunc : List Byte → ℤ} {d : List Byte} {v : ℤ} {parts : List (List Cell)}

theorem parts_nil (hsizes : ∀ p ∈ parts, 1 ≤ p.length) (h : parts.flatten = []) : parts = [] := by
  cases parts with
  | nil => rfl
  | cons p parts =>
    have hp := hsizes p (by simp)
    simp only [List.flatten_cons, List.append_eq_nil_iff] at h
    simp [h.1] at hp

/-- Over every cut of the stream: the flag in one piece is understood and a flag cut in two
is taken for a broken message. -/
theorem recvLoop_cut (newfd : ℤ) (hu : ∀ bs, userfunc bs = bs.length) (hd : (0 : Byte) ∉ d)
    (hsizes : ∀ p ∈ parts, 1 ≤ p.length) (hflat : parts.flatten = plain d ++ sendFd v) :
    (FlagTogether parts → ∃ r handed,
      recvLoop userfunc (parts.map .received) (-1) newfd = (.returned r, handed) ∧
      handed.flatten = d ∧ (0 ≤ v → r = v) ∧ (-255 ≤ v ∧ v ≤ -1 → r = v)) ∧
    (¬ FlagTogether parts →
      (recvLoop userfunc (parts.map .received) (-1) newfd).1 = .errDump "message format error") := by
  obtain ⟨st, ctl, hsend⟩ := sendFd_cells v
  induction parts generalizing d with
  | nil => simp [hsend] at hflat
  | cons p parts ih =>
    have hp : 1 ≤ p.length := hsizes p (by simp)
    have hrest : ∀ q ∈ parts, 1 ≤ q.length := fun q hq => hsizes q (by simp [hq])
    rw [List.flatten_cons, hsend] at hflat
    rcases first_part hflat with ⟨d₁, d₂, rfl, rfl, h⟩ | ⟨rfl, h⟩ | ⟨rfl, h⟩
    · -- only data so far, and the flag is in the results behind
      have hne : d₁ ≠ [] := by
        rintro rfl
        simp [plain] at hp
      obtain ⟨h₁, h₂⟩ : (0 : Byte) ∉ d₁ ∧ (0 : Byte) ∉ d₂ := by simpa using hd
      have hparts : parts ≠ [] := by
        rintro rfl
        simp at h
      have hlast : FlagTogether (plain d₁ :: parts) ↔ FlagTogether parts := by
        obtain ⟨q, qs, rfl⟩ := List.exists_cons_of_ne_nil hparts
        simp [FlagTogether]
      obtain ⟨hok, hbad⟩ := ih h₂ hrest (by rw [h, hsend])
      rw [List.map_cons, recvLoop_data hu h₁ hne, hlast]
      refine ⟨fun ht => ?_, hbad⟩
      obtain ⟨r, handed, hr, hh, hfd, herr⟩ := hok ht
      exact ⟨r, d₁ :: handed, by rw [hr], by simp [hh], hfd, herr⟩
    · have hparts : ∃ q, parts = [q] ∧ q.length = 1 := by
        obtain ⟨q, qs, rfl⟩ := List.exists_cons_of_ne_nil
          (show parts ≠ [] by rintro rfl; simp at h)
        have hq := hrest q (by simp)
        have hl := congrArg List.length h
        simp only [List.flatten_cons, List.length_append, List.length_singleton] at hl
        have hqs : qs = [] :=
          parts_nil (fun x hx => hrest x (by simp [hx])) (List.length_eq_zero_iff.mp (by omega))
        exact ⟨q, by rw [hqs], by omega⟩
      obtain ⟨q, rfl, hq⟩ := hparts
      refine ⟨fun ht => ?_, fun _ => ?_⟩
      · simp [FlagTogether, hq] at ht
      · rw [List.map_cons, recvLoop_broken hd]
    · obtain rfl := parts_nil hrest h
      refine ⟨fun _ => ?_, fun ht => ?_⟩
      · rw [List.map_cons, ← hsend]
        exact recvLoop_flag hu hd v _
      · simp [FlagTogether] at ht

/-- What `recv_fd` owes to the sender of an error. -/
def ErrorArrives (userfunc : List Byte → ℤ) (parts : List (List Cell)) (errcode : ℤ)
    (msg : List Byte) : Prop :=
  ∃ r, Delivers userfunc parts msg r ∧ (-255 ≤ errcode ∧ errcode ≤ -1 → r = errcode) ∧
    (0 ≤ errcode → r = -1)

def StopsWithFormatError (userfunc : List Byte → ℤ) (parts : List (List Cell)) : Prop :=
  (recvFd userfunc (parts.map .received)).1 = .errDump "message format error"

theorem not_delivers_of_stops {r : ℤ} (h : StopsWithFormatError userfunc parts) :
    ¬ Delivers userfunc parts d r := by
  rintro ⟨handed, hr, -⟩
  rw [StopsWithFormatError, hr] at h
  cases h

theorem arrives_iff_flagTogether (hu : ∀ bs, userfunc bs = bs.length) (hd : (0 : Byte) ∉ d)
    (hcut : Cut (plain d ++ sendFd v) parts) {P : ℤ → Prop}
    (hP : ∀ r, (0 ≤ v → r = v) ∧ (-255 ≤ v ∧ v ≤ -1 → r = v) → P r) :
    ((∃ r, Delivers userfunc parts d r ∧ P r) ↔ FlagTogether parts) ∧
    (StopsWithFormatError userfunc parts ↔ ¬ FlagTogether parts) := by
  obtain ⟨hok, hbad⟩ := recvLoop_cut 0 hu hd (fun p hp => (hcut.sizes p hp).1)
    hcut.whole
  have harrives : FlagTogether parts → ∃ r, Delivers userfunc parts d r ∧ P r := by
    intro ht
    obtain ⟨r, handed, hr, hh, hv⟩ := hok ht
    exact ⟨r, ⟨handed, hr, hh⟩, hP r hv⟩
  refine ⟨⟨fun ⟨r, hr, _⟩ => ?_, harrives⟩, fun hstop ht => ?_, hbad⟩
  · by_contra ht
    exact not_delivers_of_stops (hbad ht) hr
  · obtain ⟨r, hr, -⟩ := harrives ht
    exact not_delivers_of_stops hstop hr

/-- Errors and descriptors get through exactly under the cuts that keep the two bytes of the
flag together; under every other cut the receiver dumps core. -/
theorem round_trip_iff_flagTogether (userfunc : List Byte → ℤ)
    (hu : ∀ bs, userfunc bs = bs.length) (msg : List Byte) (hmsg : (0 : Byte) ∉ msg) :
    (∀ errcode parts, Cut (sendErr errcode msg) parts →
      (ErrorArrives userfunc parts errcode msg ↔ FlagTogether parts) ∧
      (StopsWithFormatError userfunc parts ↔ ¬ FlagTogether parts)) ∧
    (∀ fd parts, 0 ≤ fd → Cut (plain msg ++ sendFd fd) parts →
      (Delivers userfunc parts msg fd ↔ FlagTogether parts) ∧
      (StopsWithFormatError userfunc parts ↔ ¬ FlagTogether parts)) := by
  constructor
  · intro errcode parts hcut
    refine arrives_iff_flagTogether hu hmsg hcut fun r hr => ?_
    by_cases he : errcode ≥ 0
    · simp only [he, if_true] at hr
      have := hr.2 (by decide)
      omega
    · simp only [he, if_false] at hr
      exact ⟨hr.2, fun h => absurd h he⟩
  · intro fd parts hfd hcut
    have h := arrives_iff_flagTogether hu hmsg hcut (P := (· = fd)) fun r hr => hr.1 hfd
    simpa only [exists_eq_right] using h

theorem round_trip_iff_flagTogether_hi :
    ErrorArrives (fun bs => bs.length) [plain [104], plain [105] ++ [⟨0, none⟩, ⟨3, none⟩]] (-3)
      [104, 105] ∧
    Delivers (fun bs => bs.length) [[⟨0, some 7⟩, ⟨0, none⟩]] [] 7 := by
  have hi := round_trip_iff_flagTogether (fun bs => bs.length) (fun _ => rfl) [104, 105] (by decide)
  have none := round_trip_iff_flagTogether (fun bs => bs.length) (fun _ => rfl) [] (by decide)
  exact ⟨(hi.1 (-3) _ ⟨by decide, by decide⟩).1.mpr (by decide),
    (none.2 7 _ (by decide) ⟨by decide, by decide⟩).1.mpr (by decide)⟩

/-- The NUL byte at the end of one result and the status byte alone in the next. -/
theorem cut_flag_dumps_core :
    Cut (sendErr (-1) [104, 105]) [plain [104, 105] ++ [⟨0, none⟩], [⟨1, none⟩]] ∧
    recvFd (fun bs => bs.length)
      ([plain [104, 105] ++ [⟨0, none⟩], [⟨1, none⟩]].map .received) =
        (.errDump "message format error", []) :=
  ⟨⟨by decide, by decide⟩, by decide⟩

end Cuts

end DescriptorPassing
