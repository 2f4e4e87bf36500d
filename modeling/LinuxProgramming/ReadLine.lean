import LinuxProgramming.CStrings

/-! # Reading lines with and without a buffer

`readLine` makes one system call for each byte; `readLineBuf` keeps up to ten bytes for the next
call. Both are compared with taking a line off the bytes that are still to come. -/
namespace ReadLine

open CStrings

/-! ## The descriptor -/

/-- What successive reads find: bytes, the end of what one read returns, and failed reads. Behind
the last item there is the end of the file. -/
inductive Input where
  | byte (b : Byte)
  | cut
  | error (errno : ℕ)
  deriving DecidableEq, Repr

def eintr : ℕ := 4
def einval : ℕ := 22

/-- At most `count` bytes, as many as stand together. -/
def readBytes : ℕ → List Input → List Byte × List Input
  | count + 1, .byte b :: inp => (b :: (readBytes count inp).1, (readBytes count inp).2)
  | _, inp => ([], inp)

def read (count : ℕ) : List Input → Except ℕ (List Byte) × List Input
  | [] => (.ok [], [])
  | .cut :: inp => read count inp
  | .error e :: inp => (.error e, inp)
  | .byte b :: inp => (.ok (readBytes count (.byte b :: inp)).1, (readBytes count (.byte b :: inp)).2)

def bytes : List Input → List Byte
  | [] => []
  | .byte b :: inp => b :: bytes inp
  | _ :: inp => bytes inp

def Errorless (inp : List Input) : Prop := ∀ e, .error e ∉ inp

variable {n count : ℕ} {inp inp' : List Input}

theorem readBytes_spec (count : ℕ) (inp : List Input) :
    (readBytes count inp).1 ++ bytes (readBytes count inp).2 = bytes inp ∧
    (readBytes count inp).1.length + (readBytes count inp).2.length = inp.length ∧
    (readBytes count inp).1.length ≤ count ∧ (readBytes count inp).2 <:+ inp := by
  induction inp generalizing count with
  | nil => cases count <;> simp [readBytes]
  | cons i inp ih =>
    cases count with
    | zero => simp [readBytes]
    | succ count =>
      cases i with
      | byte b =>
        obtain ⟨hbytes, hlen, hle, hsuffix⟩ := ih count
        refine ⟨?_, ?_, ?_, hsuffix.trans (List.suffix_cons _ _)⟩
        · exact congrArg (b :: ·) hbytes
        · simp only [readBytes, List.length_cons]
          omega
        · simp only [readBytes, List.length_cons]
          omega
      | cut => simp [readBytes]
      | error e => simp [readBytes]

/-- A read brings the next bytes; it brings none only at the end. -/
inductive ReadOK (count : ℕ) (inp : List Input) : Except ℕ (List Byte) × List Input → Prop
  | eof (h : bytes inp = []) : ReadOK count inp (.ok [], [])
  | data {b : Byte} {bs : List Byte} {inp' : List Input} (hbytes : b :: bs ++ bytes inp' = bytes inp)
    (hlen : (b :: bs).length + inp'.length ≤ inp.length) (hcount : (b :: bs).length ≤ count)
    (hsuffix : inp' <:+ inp) : ReadOK count inp (.ok (b :: bs), inp')
  | failed {e : ℕ} {inp' : List Input} (he : .error e ∈ inp) (hbytes : bytes inp' = bytes inp)
    (hlen : inp'.length < inp.length) (hsuffix : inp' <:+ inp) : ReadOK count inp (.error e, inp')

theorem read_ok (hcount : 0 < count) (inp : List Input) : ReadOK count inp (read count inp) := by
  induction inp with
  | nil => exact .eof rfl
  | cons i inp ih =>
    cases i with
    | byte b =>
      obtain ⟨count, rfl⟩ := Nat.exists_eq_add_one_of_ne_zero hcount.ne'
      obtain ⟨hbytes, hlen, hle, hsuffix⟩ := readBytes_spec (count + 1) (.byte b :: inp)
      exact .data hbytes hlen.le hle hsuffix
    | cut =>
      rw [read]
      cases hread : read count inp with
      | mk r inp' =>
        rw [hread] at ih
        have hsuffix {l : List Input} (h : l <:+ inp) : l <:+ .cut :: inp :=
          h.trans (List.suffix_cons _ _)
        cases ih with
        | eof h => exact .eof h
        | data hbytes hlen hcount hs =>
          exact .data hbytes (hlen.trans (Nat.le_succ _)) hcount (hsuffix hs)
        | failed he hbytes hlen hs =>
          exact .failed (List.mem_cons_of_mem _ he) hbytes (hlen.trans (Nat.lt_succ_self _)) (hsuffix hs)
    | error e => exact .failed List.mem_cons_self rfl (Nat.lt_succ_self _) (List.suffix_cons _ _)

/-! ## The two functions -/

/-- The value that is returned, and what has been stored from the start of the buffer on. -/
structure Reply where
  ret : ℤ
  errno : Option ℕ
  stored : List Byte
  deriving DecidableEq, Repr

def store (room : ℕ) (buf : List Byte) (ch : Byte) : List Byte :=
  if buf.length < room then buf ++ [ch] else buf

/-- The loop of `readLine`; `buf` has been stored, which are `totRead` bytes. -/
def readLineLoop (n : ℕ) (buf : List Byte) (inp : List Input) : Reply × List Input :=
  match h : read 1 inp with
  | (.error e, inp') =>
    if e = eintr then readLineLoop n buf inp' else (⟨-1, some e, buf⟩, inp')
  | (.ok [], inp') =>
    if buf.length = 0 then (⟨0, none, buf⟩, inp') else (⟨buf.length, none, buf ++ [0]⟩, inp')
  | (.ok (ch :: _), inp') =>
    let buf := store (n - 1) buf ch
    if ch = newline then (⟨buf.length, none, buf ++ [0]⟩, inp') else readLineLoop n buf inp'
termination_by inp.length
decreasing_by
  all_goals
    have hok := read_ok Nat.one_pos inp
    rw [h] at hok
    cases hok
  · assumption
  · simp only [List.length_cons] at *
    omega

def readLine (n : ℕ) (inp : List Input) : Reply × List Input :=
  if n ≤ 0 then (⟨-1, some einval, []⟩, inp) else readLineLoop n [] inp

def rlMaxBuf : ℕ := 10

/-- `buf` holds what the last read has stored. -/
structure ReadLineBuf where
  buf : List Byte
  next : ℕ
  len : ℤ
  deriving DecidableEq, Repr

def readLineBufInit (junk : List Byte) : ReadLineBuf := ⟨junk, 0, 0⟩

def ReadLineBuf.unread (rlbuf : ReadLineBuf) : List Byte := (rlbuf.buf.take rlbuf.len.toNat).drop rlbuf.next

inductive Refill where
  | ready
  | eof
  | failed (errno : ℕ)
  deriving DecidableEq, Repr

def refill (rlbuf : ReadLineBuf) (inp : List Input) : Refill × ReadLineBuf × List Input :=
  if rlbuf.len ≤ rlbuf.next then
    match read rlMaxBuf inp with
    | (.error e, inp) => (.failed e, { rlbuf with len := -1 }, inp)
    | (.ok [], inp) => (.eof, { rlbuf with len := 0 }, inp)
    | (.ok (b :: bs), inp) => (.ready, ⟨b :: bs, 0, (b :: bs).length⟩, inp)
  else (.ready, rlbuf, inp)

theorem refill_work {rlbuf rlbuf' : ReadLineBuf} (h : refill rlbuf inp = (.ready, rlbuf', inp')) :
    rlbuf'.next < rlbuf'.len ∧
      inp'.length + (rlbuf'.len - rlbuf'.next).toNat ≤ inp.length + (rlbuf.len - rlbuf.next).toNat := by
  unfold refill at h
  split at h
  · have hok := read_ok (show 0 < rlMaxBuf by decide) inp
    split at h
    · cases h
    · cases h
    · rename_i hread
      rw [hread] at hok
      cases hok with
      | data hbytes hlen hcount hsuffix =>
        cases h
        simp only [List.length_cons] at hlen ⊢
        omega
  · cases h
    omega

/-- The loop of `readLineBuf`; `buffer` has been stored, which are `cnt` bytes. -/
def readLineBufLoop (n : ℕ) (buffer : List Byte) (rlbuf : ReadLineBuf) (inp : List Input) :
    Reply × ReadLineBuf × List Input :=
  match h : refill rlbuf inp with
  | (.failed e, rlbuf, inp) => (⟨-1, some e, buffer⟩, rlbuf, inp)
  | (.eof, rlbuf, inp) => (⟨buffer.length, none, buffer⟩, rlbuf, inp)
  | (.ready, rlbuf', inp') =>
    let c := rlbuf'.buf.getD rlbuf'.next 0
    let buffer := store n buffer c
    if c = newline then (⟨buffer.length, none, buffer⟩, { rlbuf' with next := rlbuf'.next + 1 }, inp')
    else readLineBufLoop n buffer { rlbuf' with next := rlbuf'.next + 1 } inp'
termination_by inp.length + (rlbuf.len - rlbuf.next).toNat
decreasing_by
  obtain ⟨hlt, hle⟩ := refill_work h
  omega

def readLineBuf (n : ℕ) (rlbuf : ReadLineBuf) (inp : List Input) : Reply × ReadLineBuf × List Input :=
  if n ≤ 0 then (⟨-1, some einval, []⟩, rlbuf, inp) else readLineBufLoop n [] rlbuf inp

/-! ## A line of the bytes to come -/

/-- The bytes up to and with the next newline, and those behind it. -/
def splitLine : List Byte → List Byte × List Byte
  | [] => ([], [])
  | b :: s => if b = newline then ([b], s) else (b :: (splitLine s).1, (splitLine s).2)

theorem splitLine_cons_newline (s : List Byte) : splitLine (newline :: s) = ([newline], s) := by
  rw [splitLine, if_pos rfl]

theorem splitLine_cons {b : Byte} (hb : b ≠ newline) (s : List Byte) :
    splitLine (b :: s) = (b :: (splitLine s).1, (splitLine s).2) := by
  rw [splitLine, if_neg hb]

theorem splitLine_append (s : List Byte) : (splitLine s).1 ++ (splitLine s).2 = s := by
  induction s with
  | nil => rfl
  | cons b s ih =>
    by_cases hb : b = newline
    · subst hb
      rw [splitLine_cons_newline]
      rfl
    · rw [splitLine_cons hb]
      exact congrArg (b :: ·) ih

theorem length_store {buf : List Byte} {room : ℕ} (h : buf.length ≤ room) (b : Byte) :
    (store room buf b).length ≤ room := by
  unfold store
  split
  · simp
    omega
  · exact h

theorem take_store {buf : List Byte} {room : ℕ} (h : buf.length ≤ room) (b : Byte) (s : List Byte) :
    (store room buf b ++ s).take room = (buf ++ b :: s).take room := by
  unfold store
  split
  · rw [List.append_assoc, List.singleton_append]
  · have hroom : buf.length = room := by omega
    rw [List.take_left' hroom, List.take_left' hroom]

theorem store_eq_take {buf : List Byte} {room : ℕ} (h : buf.length ≤ room) (b : Byte) :
    store room buf b = (buf ++ [b]).take room := by
  have := take_store h b []
  rwa [List.append_nil, List.take_of_length_le (length_store h b)] at this

def lineReply (n : ℕ) (line : List Byte) : Reply := ⟨(line.take n).length, none, line.take n⟩

/-- `readLine` adds the NUL, but not at the end of the file. -/
def withNul (r : Reply) : Reply := if r.ret = 0 then r else { r with stored := r.stored ++ [0] }

theorem errorless_nil : Errorless [] := fun _ he => List.not_mem_nil he

theorem Errorless.suffix (h : Errorless inp) (hs : inp' <:+ inp) : Errorless inp' :=
  fun e he => h e (hs.subset he)

theorem withNul_lineReply {room : ℕ} (hroom : 0 < room) {line : List Byte} (hline : line ≠ []) :
    withNul (lineReply room line) = ⟨(line.take room).length, none, line.take room ++ [0]⟩ := by
  have hpos : 0 < line.length := List.length_pos_iff.mpr hline
  refine if_neg ?_
  simp only [lineReply, List.length_take]
  omega

theorem readLineLoop_eq (buf : List Byte) (hbuf : buf.length ≤ n - 1) (hn : 1 < n) (h : Errorless inp) :
    ∃ inp', readLineLoop n buf inp =
        (withNul (lineReply (n - 1) (buf ++ (splitLine (bytes inp)).1)), inp') ∧
      Errorless inp' ∧ bytes inp' = (splitLine (bytes inp)).2 := by
  have hok := read_ok Nat.one_pos inp
  fun_induction readLineLoop n buf inp with
  | case1 buf inp inp' hread ih =>
    rw [hread] at hok
    cases hok with
    | failed he => exact absurd he (h _)
  | case2 buf inp e inp' hread hne =>
    rw [hread] at hok
    cases hok with
    | failed he => exact absurd he (h _)
  | case3 buf inp inp' hread hempty =>
    rw [hread] at hok
    cases hok with
    | eof hbytes =>
      rw [hbytes, List.length_eq_zero_iff.mp hempty]
      refine ⟨[], ?_, errorless_nil, rfl⟩
      simp [splitLine, lineReply, withNul]
  | case4 buf inp inp' hread hsome =>
    rw [hread] at hok
    cases hok with
    | eof hbytes =>
      have hne : buf ≠ [] := fun hnil => hsome (List.length_eq_zero_iff.mpr hnil)
      rw [hbytes]
      refine ⟨[], ?_, errorless_nil, rfl⟩
      simp only [splitLine, List.append_nil]
      rw [withNul_lineReply (by omega) hne, List.take_of_length_le hbuf]
  | case5 buf inp tail inp' hread buf' =>
    rw [hread] at hok
    cases hok with
    | data hbytes hlen hcount hsuffix =>
      obtain rfl : tail = [] := List.length_eq_zero_iff.mp (by simpa using hcount)
      rw [← hbytes, List.singleton_append, splitLine_cons_newline]
      refine ⟨inp', ?_, h.suffix hsuffix, rfl⟩
      rw [withNul_lineReply (by omega) (by simp), ← store_eq_take hbuf]
  | case6 buf inp ch tail inp' hread buf' hch ih =>
    rw [hread] at hok
    cases hok with
    | data hbytes hlen hcount hsuffix =>
      obtain rfl : tail = [] := List.length_eq_zero_iff.mp (by simpa using hcount)
      obtain ⟨inp'', heq, herr, hrest⟩ :=
        ih (length_store hbuf ch) (h.suffix hsuffix) (read_ok Nat.one_pos inp')
      rw [← hbytes, List.singleton_append, splitLine_cons hch]
      refine ⟨inp'', ?_, herr, hrest⟩
      rw [heq, lineReply, take_store hbuf]
      rfl

/-- No read fails and the bytes to come, those in the buffer first, are `s`. -/
structure Pending (rlbuf : ReadLineBuf) (inp : List Input) (s : List Byte) : Prop where
  errorless : Errorless inp
  filled : rlbuf.len ≤ rlbuf.buf.length
  eq : rlbuf.unread ++ bytes inp = s

theorem unread_eq_nil {rlbuf : ReadLineBuf} (h : rlbuf.len ≤ rlbuf.next) : rlbuf.unread = [] := by
  refine List.drop_eq_nil_of_le ?_
  rw [List.length_take]
  omega

theorem unread_eq_cons {rlbuf : ReadLineBuf} (hfilled : rlbuf.len ≤ rlbuf.buf.length)
    (h : rlbuf.next < rlbuf.len) :
    rlbuf.unread = rlbuf.buf.getD rlbuf.next 0 :: { rlbuf with next := rlbuf.next + 1 }.unread := by
  have hlen : rlbuf.next < (rlbuf.buf.take rlbuf.len.toNat).length := by
    rw [List.length_take]
    omega
  have hbuf : rlbuf.next < rlbuf.buf.length := by omega
  have hget : rlbuf.buf.getD rlbuf.next 0 = rlbuf.buf[rlbuf.next] := by simp [hbuf]
  rw [ReadLineBuf.unread, List.drop_eq_getElem_cons hlen, List.getElem_take, hget]
  rfl

variable {rlbuf rlbuf' : ReadLineBuf} {s : List Byte}

/-- Behind a refill there is a byte to take, or there is none to come. -/
theorem Pending.refill (h : Pending rlbuf inp s) :
    (s = [] ∧ ∃ rlbuf', refill rlbuf inp = (.eof, rlbuf', []) ∧ Pending rlbuf' [] []) ∨
    ∃ rlbuf' inp', ReadLine.refill rlbuf inp = (.ready, rlbuf', inp') ∧ Pending rlbuf' inp' s ∧
      rlbuf'.next < rlbuf'.len := by
  have heq := h.eq
  by_cases hle : rlbuf.len ≤ rlbuf.next
  · rw [unread_eq_nil hle, List.nil_append] at heq
    have hok := read_ok (show 0 < rlMaxBuf by decide) inp
    rw [ReadLine.refill, if_pos hle]
    cases hread : read rlMaxBuf inp with
    | mk r inp' =>
      rw [hread] at hok
      cases hok with
      | failed he => exact absurd he (h.errorless _)
      | eof hbytes =>
        refine .inl ⟨heq.symm.trans hbytes, _, rfl, errorless_nil, by simp, ?_⟩
        rw [unread_eq_nil (by simp)]
        rfl
      | data hbytes hlen hcount hsuffix =>
        refine .inr ⟨_, _, rfl, ⟨h.errorless.suffix hsuffix, Int.le_refl _, ?_⟩, by simp⟩
        simpa [ReadLineBuf.unread] using hbytes.trans heq
  · rw [ReadLine.refill, if_neg hle]
    exact .inr ⟨_, _, rfl, h, by omega⟩

theorem Pending.take (h : Pending rlbuf inp s) (hlt : rlbuf.next < rlbuf.len) :
    ∃ s', s = rlbuf.buf.getD rlbuf.next 0 :: s' ∧
      Pending { rlbuf with next := rlbuf.next + 1 } inp s' := by
  have heq := h.eq
  rw [unread_eq_cons h.filled hlt, List.cons_append] at heq
  exact ⟨_, heq.symm, h.errorless, h.filled, rfl⟩

theorem readLineBufLoop_eq (buffer : List Byte) (hbuf : buffer.length ≤ n) (h : Pending rlbuf inp s) :
    ∃ rlbuf' inp', readLineBufLoop n buffer rlbuf inp =
        (lineReply n (buffer ++ (splitLine s).1), rlbuf', inp') ∧
      Pending rlbuf' inp' (splitLine s).2 := by
  fun_induction readLineBufLoop n buffer rlbuf inp generalizing s with
  | case1 buffer rlbuf inp e rlbuf' inp' hrefill =>
    have hcases := h.refill
    rw [hrefill] at hcases
    obtain ⟨-, _, ⟨⟩, -⟩ | ⟨_, _, ⟨⟩, -, -⟩ := hcases
  | case2 buffer rlbuf inp rlbuf' inp' hrefill =>
    have hcases := h.refill
    rw [hrefill] at hcases
    obtain ⟨rfl, _, ⟨⟩, hp⟩ | ⟨_, _, ⟨⟩, -, -⟩ := hcases
    refine ⟨_, _, ?_, hp⟩
    rw [splitLine, List.append_nil, lineReply, List.take_of_length_le hbuf]
  | case3 buffer rlbuf inp rlbuf' inp' hrefill c buffer' =>
    rename_i hc
    have hcases := h.refill
    rw [hrefill] at hcases
    obtain ⟨-, _, ⟨⟩, -⟩ | ⟨_, _, ⟨⟩, hp, hlt⟩ := hcases
    obtain ⟨s', rfl, htake⟩ := hp.take hlt
    rw [show rlbuf'.buf.getD rlbuf'.next 0 = newline from hc, splitLine_cons_newline]
    refine ⟨_, _, ?_, htake⟩
    rw [lineReply, ← store_eq_take hbuf, ← hc]
  | case4 buffer rlbuf inp rlbuf' inp' hrefill c buffer' hc =>
    rename_i ih
    have hcases := h.refill
    rw [hrefill] at hcases
    obtain ⟨-, _, ⟨⟩, -⟩ | ⟨_, _, ⟨⟩, hp, hlt⟩ := hcases
    obtain ⟨s', rfl, htake⟩ := hp.take hlt
    obtain ⟨rlbuf'', inp'', heq, hpend⟩ := ih (length_store hbuf c) htake
    rw [splitLine_cons hc]
    refine ⟨rlbuf'', inp'', ?_, hpend⟩
    rw [heq, lineReply, take_store hbuf]
    rfl

/-! ## Successive calls -/

/-- What the next `k` calls of `readLine` give. -/
def readLines (n : ℕ) : ℕ → List Input → List Reply
  | 0, _ => []
  | k + 1, inp => (readLine n inp).1 :: readLines n k (readLine n inp).2

/-- What the next `k` calls of `readLineBuf` give. -/
def readLineBufs (n : ℕ) : ℕ → ReadLineBuf → List Input → List Reply
  | 0, _, _ => []
  | k + 1, rlbuf, inp =>
    (readLineBuf n rlbuf inp).1 ::
      readLineBufs n k (readLineBuf n rlbuf inp).2.1 (readLineBuf n rlbuf inp).2.2

/-- The replies to `k` calls, the bytes to come cut into lines. -/
def lineReplies (n : ℕ) : ℕ → List Byte → List Reply
  | 0, _ => []
  | k + 1, s => lineReply n (splitLine s).1 :: lineReplies n k (splitLine s).2

theorem readLines_eq (hn : 1 ≤ n) (k : ℕ) (h : Errorless inp) :
    readLines (n + 1) k inp = (lineReplies n k (bytes inp)).map withNul := by
  induction k generalizing inp with
  | zero => rfl
  | succ k ih =>
    obtain ⟨inp', heq, herr, hrest⟩ := readLineLoop_eq (n := n + 1) [] (Nat.zero_le _) (by omega) h
    have hcall : readLine (n + 1) inp = readLineLoop (n + 1) [] inp := if_neg (by omega)
    rw [readLines, hcall, heq, ih herr, hrest]
    rfl

theorem readLineBufs_eq (hn : 1 ≤ n) (k : ℕ) (h : Pending rlbuf inp s) :
    readLineBufs n k rlbuf inp = lineReplies n k s := by
  induction k generalizing rlbuf inp s with
  | zero => rfl
  | succ k ih =>
    obtain ⟨rlbuf', inp', heq, hpend⟩ := readLineBufLoop_eq [] (Nat.zero_le _) h
    have hcall : readLineBuf n rlbuf inp = readLineBufLoop n [] rlbuf inp := if_neg (by omega)
    rw [readLineBufs, hcall, heq, ih hpend]
    rfl

theorem pending_init (junk : List Byte) (h : Errorless inp) :
    Pending (readLineBufInit junk) inp (bytes inp) :=
  ⟨h, by simp [readLineBufInit], by rw [unread_eq_nil (by simp [readLineBufInit])]; rfl⟩

/-- Each call before the end takes a byte, so that the end is reported. -/
theorem exists_end (n : ℕ) (s : List Byte) :
    ∃ k, ∃ r ∈ lineReplies n k s, r.ret = 0 := by
  induction hs : s.length using Nat.strong_induction_on generalizing s with
  | _ len ih =>
    by_cases hnil : (splitLine s).1 = []
    · refine ⟨1, lineReply n (splitLine s).1, List.mem_cons_self, ?_⟩
      rw [hnil]
      simp [lineReply]
    · have happ := congrArg List.length (splitLine_append s)
      have hpos := List.length_pos_iff.mpr hnil
      rw [List.length_append] at happ
      obtain ⟨k, r, hr, hret⟩ := ih _ (by omega) (splitLine s).2 rfl
      exact ⟨k + 1, r, List.mem_cons_of_mem _ hr, hret⟩

/-- Over one stream, however the reads of each are cut, `readLine` with one byte more for the NUL
gives what `readLineBuf` gives, call for call, up to the end of the file and behind it. -/
theorem readLines_eq_readLineBufs (hn : 1 ≤ n) (junk : List Byte) (h : Errorless inp)
    (h' : Errorless inp') (hbytes : bytes inp = bytes inp') :
    (∀ k, readLines (n + 1) k inp = (readLineBufs n k (readLineBufInit junk) inp').map withNul) ∧
      (∀ k, readLineBufs n k (readLineBufInit junk) inp' = lineReplies n k (bytes inp)) ∧
      ∃ k, ∃ r ∈ readLineBufs n k (readLineBufInit junk) inp', r.ret = 0 := by
  have hbufs k := readLineBufs_eq hn k (pending_init junk h')
  refine ⟨fun k => ?_, fun k => ?_, ?_⟩
  · rw [readLines_eq hn k h, hbufs, hbytes]
  · rw [hbufs, hbytes]
  · obtain ⟨k, hend⟩ := exists_end n (bytes inp')
    exact ⟨k, (hbufs k).symm ▸ hend⟩

/-- A line that is longer than the buffer and than one refill, and one that the file ends in. -/
theorem readLines_eq_readLineBufs_abcdef :
    let inp := (ascii "abcdefghijkl\nm").map Input.byte
    let inp' := (ascii "abcdefg").map Input.byte ++ .cut :: (ascii "hijkl\nm").map Input.byte
    readLines 6 3 inp = (readLineBufs 5 3 (readLineBufInit []) inp').map withNul ∧
      readLineBufs 5 3 (readLineBufInit []) inp' =
        [⟨5, none, ascii "abcde"⟩, ⟨1, none, ascii "m"⟩, ⟨0, none, []⟩] := by
  intro inp inp'
  have herr : Errorless inp := by simp [Errorless, inp]
  have herr' : Errorless inp' := by simp [Errorless, inp']
  have hagree := readLines_eq_readLineBufs (n := 5) (by decide) [] herr herr' (by decide +kernel)
  exact ⟨hagree.1 3, (hagree.2.1 3).trans (by decide +kernel)⟩

end ReadLine
