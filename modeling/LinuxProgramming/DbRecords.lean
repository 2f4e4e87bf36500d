import LinuxProgramming.DbImage
import LinuxProgramming.SoloRuns

/-! # The record functions of db.c on an image

First each function as the system calls it makes, given arguments in range. Then what it
does when one process runs it alone on the files of an image. -/
namespace DbRecords

open CStrings ByteFiles SyscallPrograms SoloRuns DbLibrary DbImage

/-! ## Parsing an index record -/

theorem set_mid {α : Type} (a : List α) (x y : α) (b : List α) :
    (a ++ x :: b).set a.length y = a ++ y :: b := by
  induction a with
  | nil => rfl
  | cons c a ih => exact congrArg (c :: ·) ih

theorem drop_mid {α : Type} (a : List α) (x : α) (b : List α) :
    (a ++ x :: b).drop (a.length + 1) = b := by
  induction a with
  | nil => rfl
  | cons c a ih => exact ih

theorem sizeT_natCast {n : ℕ} (h : n < 2 ^ 64) : sizeT n = n := by
  unfold sizeT
  omega

theorem sep_notMem_decimal (n : ℕ) : sep ∉ decimal n := notMem_decimal (by decide)

theorem nul_notMem_decimal (n : ℕ) : (0 : Byte) ∉ decimal n := notMem_decimal (by decide)

/-- What _db_readidx makes of text that holds two separators or more. -/
theorem parseIdxbuf_split (db : DB) {a b c : List Byte} (ha : sep ∉ a) (hb : sep ∉ b)
    (za : (0 : Byte) ∉ a) (zb : (0 : Byte) ∉ b) (zc : (0 : Byte) ∉ c)
    (hl : db.idxlen = (a ++ sep :: (b ++ sep :: c)).length + 1) :
    parseIdxbuf db (a ++ sep :: (b ++ sep :: c) ++ [newline]) =
      if sep ∈ c then fatal .readidx "too many separators"
      else
        let db := { db with
          idxbuf := a ++ 0 :: (b ++ 0 :: (c ++ [0]))
          datoff := atol (b ++ 0 :: (c ++ [0]))
          datlen := sizeT (atol (c ++ [0])) }
        if db.datoff < 0 then fatal .readidx "starting offset < 0"
        else if db.datlen = 0 ∨ db.datlen > datlenMax then fatal .readidx "invalid length"
        else .ret (db.ptrval, db) := by
  have hlast : (a ++ sep :: (b ++ sep :: c) ++ [newline]).getD (db.idxlen - 1) 0 = newline := by
    rw [hl, Nat.add_sub_cancel, List.getD_eq_getElem?_getD, List.getElem?_concat_length]
    rfl
  have hset : (a ++ sep :: (b ++ sep :: c) ++ [newline]).set (db.idxlen - 1) 0 =
      a ++ sep :: (b ++ sep :: (c ++ [0])) := by
    rw [hl, Nat.add_sub_cancel, set_mid]
    simp
  have hset₂ : (a ++ 0 :: (b ++ sep :: (c ++ [0]))).set (a.length + 1 + b.length) 0 =
      a ++ 0 :: (b ++ 0 :: (c ++ [0])) := by
    simp [Nat.add_assoc, Nat.add_comm 1]
  have hdrop₂ : (a ++ 0 :: (b ++ 0 :: (c ++ [0]))).drop (a.length + 1 + b.length + 1) =
      c ++ [0] := by
    simp [Nat.add_assoc, Nat.add_comm 1, drop_mid]
  have hthird : (strchr sep (c ++ [0])).isSome = decide (sep ∈ c) := by
    by_cases hc : sep ∈ c
    · obtain ⟨x, y, rfl, hx⟩ := List.eq_append_cons_of_mem hc
      have zx : (0 : Byte) ∉ x := fun h => zc (List.mem_append_left _ h)
      rw [List.append_assoc, List.cons_append, strchr_append hx zx]
      simp
    · rw [strchr_before_nul (by decide) hc]
      simp [hc]
  unfold parseIdxbuf
  rw [if_neg (not_not_intro hlast)]
  dsimp only
  rw [hset, strchr_append ha za]
  dsimp only
  rw [set_mid, drop_mid, strchr_append hb zb]
  dsimp only
  rw [hset₂, hdrop₂, hthird, drop_mid]
  simp only [decide_eq_true_eq]

def tooMany : Fatal := ⟨.readidx, "too many separators"⟩

/-- The index buffer after its two separators and its newline have become NULs. -/
def Parsed (e : Entry) : List Byte :=
  e.key.1 ++ 0 :: (decimal e.datoff ++ 0 :: (decimal e.datlen ++ [0]))

theorem cstr_parsed (e : Entry) : cstr (Parsed e) = e.key.1 := cstr_append_nul e.key.2 _

theorem atol_before_nul (n : ℕ) (rest : List Byte) : atol (decimal n ++ 0 :: rest) = n := by
  have hr : (0 :: rest : List Byte).takeWhile isDigit = [] := by simp [isDigit]
  have h := atol_pad_decimal 0 n hr
  simpa [padLeft] using h

theorem entryText_eq (e : Entry) :
    e.text = e.key.1 ++ sep :: (decimal e.datoff ++ sep :: decimal e.datlen) ++ [newline] := by
  simp [Entry.text, entryText]

theorem parseIdxbuf_clean {db : DB} {e : Entry} (hl : db.idxlen = e.text.length)
    (hs : sep ∉ e.key.1) :
    parseIdxbuf db e.text = .ret (db.ptrval,
      { db with idxbuf := Parsed e, datoff := e.datoff, datlen := e.datlen }) := by
  have hd := e.datlen_le
  have hp := e.datlen_pos
  rw [entryText_eq e, List.length_append, List.length_singleton] at hl
  rw [entryText_eq e, parseIdxbuf_split db hs (sep_notMem_decimal _) e.key.2 (nul_notMem_decimal _)
    (nul_notMem_decimal _) hl, if_neg (sep_notMem_decimal _)]
  have hlen : sizeT (e.datlen : ℤ) = e.datlen :=
    sizeT_natCast (Nat.lt_of_le_of_lt hd (by decide))
  simp only [atol_before_nul, hlen]
  rw [if_neg (by omega), if_neg (by omega)]
  rfl

/-- A separator in the key makes three, and _db_readidx allows two. -/
theorem parseIdxbuf_poisoned {db : DB} {e : Entry} (hl : db.idxlen = e.text.length)
    (hs : sep ∈ e.key.1) : parseIdxbuf db e.text = .abort tooMany := by
  have zk := e.key.2
  have ht := entryText_eq e
  rw [ht, List.length_append, List.length_singleton] at hl
  rw [ht]
  obtain ⟨a, k, hk, ha⟩ := List.eq_append_cons_of_mem hs
  rw [hk] at zk
  have za : (0 : Byte) ∉ a := fun h => zk (by simp [h])
  have zk' : (0 : Byte) ∉ k := fun h => zk (by simp [h])
  have z := nul_notMem_decimal
  by_cases hk' : sep ∈ k
  · obtain ⟨b, c, rfl, hb⟩ := List.eq_append_cons_of_mem hk'
    have hsplit : e.key.1 ++ sep :: (decimal e.datoff ++ sep :: decimal e.datlen) =
        a ++ sep :: (b ++ sep :: (c ++ sep :: (decimal e.datoff ++ sep :: decimal e.datlen))) := by
      simp [hk]
    rw [hsplit] at hl ⊢
    rw [parseIdxbuf_split db ha hb za (fun h => zk' (by simp [h])) ?_ hl, if_pos (by simp)]
    · rfl
    · simp only [List.mem_append, List.mem_cons, not_or]
      exact ⟨fun h => zk' (by simp [h]), by decide, z _, by decide, z _⟩
  · have hsplit : e.key.1 ++ sep :: (decimal e.datoff ++ sep :: decimal e.datlen) =
        a ++ sep :: (k ++ sep :: (decimal e.datoff ++ sep :: decimal e.datlen)) := by
      simp [hk]
    rw [hsplit] at hl ⊢
    rw [parseIdxbuf_split db ha hk' za zk' ?_ hl, if_pos (by simp)]
    · rfl
    · simp only [List.mem_append, List.mem_cons, not_or]
      exact ⟨z _, by decide, z _⟩

/-! ## Functions as system calls -/

theorem readptr_eq (db : DB) (o : ℕ) :
    dbReadptr db o = .read .idx o ptrSz fun bs =>
      if bs.length ≠ ptrSz then fatal .readptr "read error of ptr field"
      else .ret (atol bs, { db with idxpos := o + bs.length }) := by
  have ho : ¬ (o : ℤ) < 0 := by omega
  simp only [dbReadptr, lseek, if_neg ho]
  rfl

/-- The handle when _db_readidx has read the record `e` at the current offset. -/
def readBack (db : DB) (v : ℕ) (e : Entry) : DB :=
  { db with
    idxoff := db.idxpos
    ptrval := v
    idxlen := e.text.length
    idxbuf := Parsed e
    datoff := e.datoff
    datlen := e.datlen
    idxpos := db.idxpos + e.size }

/-- The part of _db_readidx behind the read of pointer and length. -/
def readText (db : DB) (v n : ℕ) : Act (ℤ × DB) :=
  .read .idx (db.idxpos + (ptrSz + idxlenSz)) n fun buf =>
    if buf.length ≠ n then fatal .readidx "read error of index record"
    else parseIdxbuf { db with
      idxoff := db.idxpos
      ptrval := v
      idxlen := n
      idxpos := db.idxpos + (ptrSz + idxlenSz) + buf.length } buf

def readFront (db : DB) (offset : ℤ) (iov : List Byte) : Act (ℤ × DB) :=
  if iov.length ≠ ptrSz + idxlenSz then
    if iov.length = 0 ∧ offset = 0 then
      .ret (-1, { db with idxoff := db.idxpos, idxpos := db.idxpos + iov.length })
    else fatal .readidx "readv error of index record"
  else
    let db := { db with
      idxoff := db.idxpos
      ptrval := atol (iov.take ptrSz)
      idxlen := sizeT (atol (iov.drop ptrSz))
      idxpos := db.idxpos + iov.length }
    if db.idxlen < idxlenMin ∨ db.idxlen > idxlenMax then fatal .readidx "invalid length"
    else .read .idx db.idxpos db.idxlen fun buf =>
      if buf.length ≠ db.idxlen then fatal .readidx "read error of index record"
      else parseIdxbuf { db with idxpos := db.idxpos + buf.length } buf

theorem readRecord_eq (db : DB) (offset : ℤ) :
    readRecord db offset = .read .idx db.idxpos (ptrSz + idxlenSz) (readFront db offset) := rfl

theorem readFront_entry (db : DB) (offset : ℤ) {v : ℕ} (hv : v ≤ ptrMax) (e : Entry) :
    readFront db offset (pointerText v ++ padLeft idxlenSz (decimal e.text.length)) =
      readText db v e.text.length := by
  have h₁ := length_pointerText hv
  have h₂ := length_lenText e
  have hge := e.length_ge
  have hle := e.length_le
  have hlen : (pointerText v ++ padLeft idxlenSz (decimal e.text.length)).length =
      ptrSz + idxlenSz := by rw [List.length_append, h₁, h₂]
  have htake : (pointerText v ++ padLeft idxlenSz (decimal e.text.length)).take ptrSz =
      pointerText v := by rw [← h₁, List.take_left]
  have hdrop : (pointerText v ++ padLeft idxlenSz (decimal e.text.length)).drop ptrSz =
      padLeft idxlenSz (decimal e.text.length) := by rw [← h₁, List.drop_left]
  have hsize : sizeT (e.text.length : ℤ) = e.text.length :=
    sizeT_natCast (Nat.lt_of_le_of_lt hle (by decide))
  unfold readFront
  rw [if_neg (not_not_intro hlen), htake, hdrop, hlen]
  simp only [pointerText, atol_padLeft, hsize]
  rw [if_neg (by unfold Entry.text at *; omega)]
  rfl

theorem readFront_eof (db : DB) : readFront db 0 [] =
    .ret (-1, { db with idxoff := db.idxpos, idxpos := db.idxpos }) := rfl

theorem readidx_eq (db : DB) {o : ℕ} (ho : o ≠ 0) :
    dbReadidx db o = readRecord { db with idxpos := o } o := by
  have h₁ : ¬ (o : ℤ) = 0 := by omega
  have h₂ : ¬ (o : ℤ) < 0 := by omega
  simp only [dbReadidx, lseek, if_neg h₁, if_neg h₂]
  rfl

theorem readidx_zero_eq (db : DB) : dbReadidx db 0 = readRecord db 0 := rfl

theorem readdat_eq (db : DB) {o : ℕ} (ho : db.datoff = o) :
    dbReaddat db = .read .dat o db.datlen fun buf =>
      if buf.length ≠ db.datlen then fatal .readdat "read error"
      else if buf.getD (db.datlen - 1) 0 ≠ newline then fatal .readdat "missing newline"
      else .ret (cstr (buf.set (db.datlen - 1) 0),
        { db with datbuf := buf.set (db.datlen - 1) 0, datpos := o + buf.length }) := by
  have h : ¬ db.datoff < 0 := by omega
  have ht : db.datoff.toNat = o := by omega
  simp only [dbReaddat, lseek, if_neg h, ht]
  rfl

theorem block_newline (d : CString) : (d.1 ++ [newline]).getD (d.1.length + 1 - 1) 0 = newline := by
  rw [Nat.add_sub_cancel, List.getD_eq_getElem?_getD, List.getElem?_concat_length]
  rfl

theorem block_set (d : CString) : (d.1 ++ [newline]).set (d.1.length + 1 - 1) 0 = d.1 ++ [0] := by
  rw [Nat.add_sub_cancel, set_mid]

def wroteDat (db : DB) (o : ℕ) (data : List Byte) : DB :=
  { db with datoff := o, datlen := data.length + 1, datpos := o + (data.length + 1) }

theorem writedat_set_eq (db : DB) (data : List Byte) (o : ℕ) :
    dbWritedat db data o .set = .write .dat o (data ++ [newline]) (.ret (wroteDat db o data)) := by
  have h : ¬ (o : ℤ) < 0 := by omega
  have hlen : (data ++ [newline]).length = data.length + 1 := List.length_append
  simp only [dbWritedat, appendLocked, lseek, if_neg h, wroteDat, ← hlen]
  rfl

theorem writedat_end_eq (db : DB) (data : List Byte) :
    dbWritedat db data 0 .fromEnd = .lock .dat .write 0 0 (.size .dat fun n =>
      .write .dat n (data ++ [newline]) (.unlock .dat 0 0 (.ret (wroteDat db n data)))) := by
  have hlen : (data ++ [newline]).length = data.length + 1 := List.length_append
  have h : ∀ n : ℕ, ¬ (n : ℤ) + 0 < 0 := by omega
  have ht : ∀ n : ℕ, ((n : ℤ) + 0).toNat = n := by omega
  simp only [dbWritedat, appendLocked, withLock, lseek, if_neg (h _), ht, wroteDat, ← hlen]
  rfl

/-- The record that _db_writeidx makes from its key and the handle. -/
def recordText (db : DB) (key : List Byte) : List Byte :=
  key ++ [sep] ++ decimalInt db.datoff ++ [sep] ++ decimal db.datlen ++ [newline]

def recordBytes (db : DB) (key : List Byte) (v : ℕ) : List Byte :=
  pointerText v ++ padLeft idxlenSz (decimal (recordText db key).length) ++ recordText db key

def wroteIdx (db : DB) (key : List Byte) (o v : ℕ) : DB :=
  { db with
    ptrval := v
    idxbuf := recordText db key ++ [0]
    idxoff := o
    idxpos := o + (recordBytes db key v).length }

theorem writeidx_long (db : DB) (key : List Byte) (off : ℤ) (w : Whence) {v : ℕ}
    (hv : v ≤ ptrMax) (hl : (recordText db key).length < idxlenMin ∨
      (recordText db key).length > idxlenMax) :
    dbWriteidx db key off w v = fatal .writeidx "invalid length" := by
  have h : ¬ ((v : ℤ) < 0 ∨ (v : ℤ) > ptrMax) := by omega
  simp only [dbWriteidx, if_neg h]
  exact if_pos hl

theorem writeidx_set_eq (db : DB) (key : List Byte) (o : ℕ) {v : ℕ} (hv : v ≤ ptrMax)
    (hl : ¬ ((recordText db key).length < idxlenMin ∨ (recordText db key).length > idxlenMax)) :
    dbWriteidx db key o .set v =
      .write .idx o (recordBytes db key v) (.ret (wroteIdx db key o v)) := by
  have h : ¬ ((v : ℤ) < 0 ∨ (v : ℤ) > ptrMax) := by omega
  have ho : ¬ (o : ℤ) < 0 := by omega
  simp only [dbWriteidx, if_neg h]
  refine (if_neg hl).trans ?_
  simp only [appendLocked, lseek, if_neg ho]
  rfl

theorem writeidx_end_eq (db : DB) (key : List Byte) {v : ℕ} (hv : v ≤ ptrMax)
    (hl : ¬ ((recordText db key).length < idxlenMin ∨ (recordText db key).length > idxlenMax)) :
    dbWriteidx db key 0 .fromEnd v = .lock .idx .write recordsOff 0 (.size .idx fun n =>
      .write .idx n (recordBytes db key v)
        (.unlock .idx recordsOff 0 (.ret (wroteIdx db key n v)))) := by
  have h : ¬ ((v : ℤ) < 0 ∨ (v : ℤ) > ptrMax) := by omega
  have ho : ∀ n : ℕ, ¬ (n : ℤ) + 0 < 0 := by omega
  have ht : ∀ n : ℕ, ((n : ℤ) + 0).toNat = n := by omega
  simp only [dbWriteidx, if_neg h]
  refine (if_neg hl).trans ?_
  simp only [appendLocked, withLock, lseek, if_neg (ho _), ht]
  rfl

theorem writeptr_eq (db : DB) (o : ℕ) {v : ℕ} (hv : v ≤ ptrMax) :
    dbWriteptr db o v =
      .write .idx o (pointerText v) (.ret { db with idxpos := o + (pointerText v).length }) := by
  have h : ¬ ((v : ℤ) < 0 ∨ (v : ℤ) > ptrMax) := by omega
  have ho : ¬ (o : ℤ) < 0 := by omega
  simp only [dbWriteptr, if_neg h, lseek, if_neg ho]
  rfl

theorem writeptr_long (db : DB) (off : ℤ) {v : ℕ} (hv : ptrMax < v) :
    dbWriteptr db off v = fatal .writeptr "invalid ptr" := by
  have h : (v : ℤ) < 0 ∨ (v : ℤ) > ptrMax := by omega
  simp only [dbWriteptr, if_pos h]

theorem recordText_entry {db : DB} {e : Entry} (ho : db.datoff = e.datoff)
    (hl : db.datlen = e.datlen) : recordText db e.key.1 = e.text := by
  rw [recordText, ho, hl]
  rfl

theorem recordBytes_entry {db : DB} {e : Entry} (ho : db.datoff = e.datoff)
    (hl : db.datlen = e.datlen) (v : ℕ) : recordBytes db e.key.1 v = e.bytes v := by
  rw [recordBytes, recordText_entry ho hl]
  rfl

theorem entry_in_limits {db : DB} {e : Entry} (ho : db.datoff = e.datoff)
    (hl : db.datlen = e.datlen) :
    ¬ ((recordText db e.key.1).length < idxlenMin ∨ (recordText db e.key.1).length > idxlenMax) := by
  have hge := e.length_ge
  have hle := e.length_le
  rw [recordText_entry ho hl]
  unfold Entry.text
  omega

/-! ## One process alone on the files of an image -/

section Solo

variable {α : Type} {E : Fatal → (Fd → List Byte) → Prop} {I : Image} {o v : ℕ} {db : DB}

theorem wp_readptr {Q : ℤ × DB → (Fd → List Byte) → Prop} (h : I.HasPtr o)
    (hQ : Q (I.ptr o, { db with idxpos := o + ptrSz }) I.files) :
    wp (dbReadptr db o) Q E I.files := by
  have hlen := length_pointerText (I.ptr_le o)
  rw [readptr_eq]
  apply wp_read
  rw [show I.files .idx = I.idx from rfl, pread_ptr h]
  apply wp_if_neg (not_not_intro hlen)
  rw [hlen, pointerText, atol_padLeft]
  exact wp_ret hQ

theorem wp_readRecord {Q : ℤ × DB → (Fd → List Byte) → Prop} {e : Entry} {off : ℤ}
    (h : I.recs.lookup db.idxpos = some e)
    (hQ : sep ∉ e.key.1 → Q (I.ptr db.idxpos, readBack db (I.ptr db.idxpos) e) I.files)
    (hE : sep ∈ e.key.1 → E tooMany I.files) : wp (readRecord db off) Q E I.files := by
  rw [readRecord_eq]
  apply wp_read
  rw [show I.files .idx = I.idx from rfl, pread_entry_front h, readFront_entry db off (I.ptr_le _)]
  apply wp_read
  rw [show I.files .idx = I.idx from rfl, pread_entry_text h]
  apply wp_if_neg (not_not_intro rfl)
  by_cases hs : sep ∈ e.key.1
  · rw [parseIdxbuf_poisoned rfl hs]
    exact wp_abort (hE hs)
  · rw [parseIdxbuf_clean rfl hs]
    have hpos : db.idxpos + (ptrSz + idxlenSz) + e.text.length = db.idxpos + e.size := by
      rw [Entry.size, Nat.add_assoc]
    rw [hpos]
    exact wp_ret (hQ hs)

theorem wp_readidx {Q : ℤ × DB → (Fd → List Byte) → Prop} {e : Entry}
    (h : I.recs.lookup o = some e)
    (hQ : sep ∉ e.key.1 → Q (I.ptr o, readBack { db with idxpos := o } (I.ptr o) e) I.files)
    (hE : sep ∈ e.key.1 → E tooMany I.files) : wp (dbReadidx db o) Q E I.files := by
  rw [readidx_eq db (entry_ne_zero h)]
  exact wp_readRecord h hQ hE

theorem wp_readidx_eof {Q : ℤ × DB → (Fd → List Byte) → Prop} (h : db.idxpos = I.idxEnd)
    (hQ : Q (-1, { db with idxoff := db.idxpos }) I.files) : wp (dbReadidx db 0) Q E I.files := by
  rw [readidx_zero_eq, readRecord_eq]
  apply wp_read
  rw [show I.files .idx = I.idx from rfl, h, ← length_idx, pread_at_end, readFront_eof]
  exact wp_ret hQ

theorem wp_readdat {Q : List Byte × DB → (Fd → List Byte) → Prop} {d : CString}
    (ho : db.datoff = o) (hl : db.datlen = d.1.length + 1) (h : I.blocks.lookup o = some d)
    (hQ : Q (d.1, { db with datbuf := d.1 ++ [0], datpos := o + (d.1.length + 1) }) I.files) :
    wp (dbReaddat db) Q E I.files := by
  have hlen : (d.1 ++ [newline]).length = d.1.length + 1 := List.length_append
  rw [readdat_eq db ho]
  apply wp_read
  rw [show I.files .dat = I.dat from rfl, hl, pread_block h]
  apply wp_if_neg (not_not_intro hlen)
  apply wp_if_neg (not_not_intro (block_newline d))
  rw [block_set, cstr_append_nul d.2, hlen]
  rw [hl] at hQ
  exact wp_ret hQ

theorem wp_writedat_set {Q : DB → (Fd → List Byte) → Prop} {d d' : CString}
    (h : I.blocks.lookup o = some d)
    (hd : ∀ c, (o, c) ∈ I.blocks → blockSize c = blockSize d')
    (hQ : Q (wroteDat db o d'.1) (I.setBlock o d' hd).files) :
    wp (dbWritedat db d'.1 o .set) Q E I.files := by
  rw [writedat_set_eq]
  apply wp_write
  rw [show I.files .dat = I.dat from rfl, files_setBlock h hd]
  exact wp_ret hQ

theorem wp_writedat_end {Q : DB → (Fd → List Byte) → Prop} {d : CString}
    (hQ : Q (wroteDat db I.datEnd d.1) (I.addBlock d).files) :
    wp (dbWritedat db d.1 0 .fromEnd) Q E I.files := by
  rw [writedat_end_eq]
  apply wp_lock
  apply wp_size
  rw [show I.files .dat = I.dat from rfl, length_dat]
  apply wp_write
  rw [show I.files .dat = I.dat from rfl, files_addBlock]
  exact wp_unlock (wp_ret hQ)

theorem wp_writeidx_set {Q : DB → (Fd → List Byte) → Prop} {e : Entry} (e' : Entry)
    (h : I.recs.lookup o = some e) (ho : db.datoff = e'.datoff) (hl : db.datlen = e'.datlen)
    (he : ∀ c, (o, c) ∈ I.recs → c.size = e'.size) (hv : v ≤ ptrMax)
    (hQ : Q (wroteIdx db e'.key.1 o v) ((I.setEntry o e' he).setPtr o v hv).files) :
    wp (dbWriteidx db e'.key.1 o .set v) Q E I.files := by
  rw [writeidx_set_eq db _ o hv (entry_in_limits ho hl), recordBytes_entry ho hl]
  apply wp_write
  rw [show I.files .idx = I.idx from rfl, files_setEntry h he hv]
  exact wp_ret hQ

theorem wp_writeidx_end {Q : DB → (Fd → List Byte) → Prop} {e : Entry}
    (ho : db.datoff = e.datoff) (hl : db.datlen = e.datlen) (hv : v ≤ ptrMax)
    (hQ : Q (wroteIdx db e.key.1 I.idxEnd v) (I.addEntry e v hv).files) :
    wp (dbWriteidx db e.key.1 0 .fromEnd v) Q E I.files := by
  rw [writeidx_end_eq db _ hv (entry_in_limits ho hl), recordBytes_entry ho hl]
  apply wp_lock
  apply wp_size
  rw [show I.files .idx = I.idx from rfl, length_idx]
  apply wp_write
  rw [show I.files .idx = I.idx from rfl, files_addEntry e hv]
  exact wp_unlock (wp_ret hQ)

theorem wp_writeptr {Q : DB → (Fd → List Byte) → Prop} (h : I.HasPtr o) (hv : v ≤ ptrMax)
    (hQ : Q { db with idxpos := o + ptrSz } (I.setPtr o v hv).files) :
    wp (dbWriteptr db o v) Q E I.files := by
  rw [writeptr_eq db o hv, length_pointerText hv]
  apply wp_write
  rw [show I.files .idx = I.idx from rfl, files_setPtr h hv]
  exact wp_ret hQ

end Solo

end DbRecords
