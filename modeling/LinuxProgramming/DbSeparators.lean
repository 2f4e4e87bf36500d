import LinuxProgramming.DbScan

/-! # Keys with a separator, and scans from the wrong place

db_store writes any key, and _db_readidx accepts exactly two separators in a record, so one
stored key with a separator makes every later walk that reaches it abort. A scan trusts the
offset of the index descriptor, which every other call moves. Without these two no call
ever aborts in _db_readidx. -/
namespace DbSeparators

open CStrings ByteFiles SyscallPrograms SoloRuns LinkedChains DbLibrary DbImage DbRecords Function
  DbLists DbInvariant DbOperations DbStore DbRefinement DbScan

/-! ## Record boundaries in the bytes of the index file -/

/-- The length field of the record at `n`. -/
def lengthField (idx : List Byte) (n : ℕ) : ℕ := sizeT (atol (pread idx (n + ptrSz) idxlenSz))

/-- Offsets reached from the first record by skipping whole records. -/
inductive Boundary (idx : List Byte) : ℕ → Prop where
  | first : Boundary idx recordsOff
  | next {n : ℕ} (h : Boundary idx n) (hn : n < idx.length) :
      Boundary idx (n + (ptrSz + idxlenSz) + lengthField idx n)

variable {I : Image} {fuel : ℕ} {db : DB} {fs : Fd → List Byte} {m : KeyMap}

theorem lengthField_entry {o : ℕ} {e : Entry} (h : I.recs.lookup o = some e) :
    lengthField I.idx o = e.text.length := by
  have hfront := congrArg (List.drop ptrSz) (pread_entry_front h)
  have hsize : sizeT (e.text.length : ℤ) = e.text.length :=
    sizeT_natCast (Nat.lt_of_le_of_lt e.length_le (by decide))
  have hread : pread I.idx (o + ptrSz) idxlenSz = padLeft idxlenSz (decimal e.text.length) := by
    rw [pread, List.drop_take, List.drop_drop, ← length_pointerText (I.ptr_le o), List.drop_left,
      length_pointerText (I.ptr_le o), Nat.add_sub_cancel_left] at hfront
    exact hfront
  rw [lengthField, hread, atol_padLeft, hsize]

theorem boundary_split {n : ℕ} (h : Boundary I.idx n) :
    ∃ l₁ l₂, I.recs = l₁ ++ l₂ ∧ n = recordsOff + extent Entry.size l₁ := by
  induction h with
  | first => exact ⟨[], I.recs, rfl, rfl⟩
  | @next n h hn ih =>
    obtain ⟨l₁, l₂, hsplit, hpos⟩ := ih
    cases l₂ with
    | nil =>
      rw [List.append_nil] at hsplit
      rw [length_idx, Image.idxEnd, hsplit] at hn
      omega
    | cons r l₂ =>
      obtain ⟨o, e⟩ := r
      have hb : Before I { idxpos := n } l₁ ((o, e) :: l₂) := ⟨hsplit, hpos⟩
      obtain ⟨ho, he⟩ := hb.offset
      have ho : n = o := ho
      have hnext : Before I { idxpos := n + e.size } (l₁ ++ [(o, e)]) l₂ := hb.next rfl
      refine ⟨l₁ ++ [(o, e)], l₂, hnext.split, ?_⟩
      rw [← hnext.idxpos, ho, lengthField_entry he, Entry.size, Nat.add_assoc]

/-! ## Guarded runs -/

/-- A stored key has no separator, and a scan goes on where a record starts. -/
def Guarded (fs : Fd → List Byte) (db : DB) : Call → Prop
  | .fetch _ => True
  | .store key _ _ => sep ∉ key.1
  | .delete _ => True
  | .rewind => True
  | .nextrec => Boundary (fs .idx) db.idxpos

/-- Completed calls on one handle of a new database, with their results. -/
inductive GuardedRun (fuel : ℕ) : List (Call × Result) → DB → (Fd → List Byte) → Prop where
  | start {fs₀ fs : Fd → List Byte} {db : DB} (h : (dbOpen true true).run fs₀ = .done db fs) :
      GuardedRun fuel [] db fs
  | call {hist : List (Call × Result)} {fs fs' : Fd → List Byte} {db db' : DB} {c : Call}
      {r : Result} (hr : GuardedRun fuel hist db fs) (hg : Guarded fs db c)
      (h : (exec fuel c db).run fs = .done (r, db') fs') :
      GuardedRun fuel (hist ++ [(c, r)]) db' fs'

def Touches (k : CString) : Call → Prop
  | .store key _ _ => key = k
  | .delete key => key = k
  | _ => False

def record (m : KeyMap) : Call × Result → KeyMap
  | (.store k d _, .status 0) => Function.update m k (some d)
  | (.delete k, .status 0) => Function.update m k none
  | _ => m

def replay (hist : List (Call × Result)) : KeyMap := hist.foldl record emptyMap

theorem record_apply (m : KeyMap) (op : MapOp) : record m (op.call, (op.apply m).1) = (op.apply m).2 := by
  cases op with
  | fetch k => rfl
  | store k d flag =>
    by_cases h : storeRc m k flag = 0
    · simp [record, MapOp.call, MapOp.apply, storeMap, h]
    · simp only [MapOp.call, MapOp.apply, storeMap, if_neg h]
      unfold record
      split
      · rename_i heq
        simp only [Prod.mk.injEq, Result.status.injEq] at heq
        exact absurd heq.2 h
      · rename_i heq
        simp at heq
      · rfl
  | delete k =>
    by_cases h : m k = none
    · have hup : Function.update m k none = m := by rw [← h, update_eq_self]
      simp [record, MapOp.call, MapOp.apply, h, hup]
    · simp [record, MapOp.call, MapOp.apply, h]

theorem nextrec_clean {chain : ℕ → List ℕ} {free : List ℕ} (s : Stores I chain free m)
    (t : Tight I chain free [] []) (hm : Clean m) (hf : ptrMax < fuel)
    (hb : Boundary I.idx db.idxpos) :
    wp (exec fuel .nextrec db) (fun _ fs => fs = I.files) (fun _ _ => False) I.files := by
  obtain ⟨l₁, l₂, hsplit, hpos⟩ := boundary_split hb
  have hlen : l₂.length < fuel := by
    have := recs_length_le s t
    rw [hsplit, List.length_append] at this
    omega
  have hout := nextrec_outcome s.blocks ⟨hsplit, hpos⟩ hlen
  apply wp_bind
  unfold wp
  generalize (dbNextrec fuel db).run I.files = out at hout
  cases hout with
  | null => exact (rfl : I.files = I.files)
  | found => exact (rfl : I.files = I.files)
  | @poisoned a c r hl _ hs =>
    have hr : r ∈ I.recs := by
      rw [hsplit, hl]
      simp
    have := List.takeWhile_eq_self_iff.mp (readable_eq_self s t hm) r hr
    simp only [decide_eq_true_eq] at this
    exact absurd hs this

/-- A guarded call returns, or aborts at a limit; what it leaves keeps the recorded map. -/
theorem wp_guarded {c : Call} (hf : ptrMax < fuel) (hk : Keeps m fs) (hm : Clean m)
    (hg : Guarded fs db c) :
    wp (exec fuel c db)
      (fun r fs' => Keeps (record m (c, r.1)) fs' ∧ Clean (record m (c, r.1)))
      (fun err _ => err.fn ≠ .readidx) fs := by
  obtain ⟨I, chain, free, rfl, s, t⟩ := hk
  have hop : ∀ op : MapOp, (∀ k d flag, op = .store k d flag → sep ∉ k.1) →
      wp (exec fuel op.call db)
        (fun r fs' => Keeps (record m (op.call, r.1)) fs' ∧ Clean (record m (op.call, r.1)))
        (fun err _ => err.fn ≠ .readidx) I.files := by
    intro op hstore
    refine wp_exec op hf.le s (fun db' fs' hdone => ?_) (fun hp => ?_) ?_
    · obtain ⟨J, chain', free', hfs, s', ht⟩ := hdone
      rw [record_apply]
      exact ⟨⟨J, chain', free', hfs, s', ht t⟩, keysIn_apply hm hstore⟩
    · exact absurd hp (clean_not_poisoned s hm _ (dbHash_lt _))
    · rintro k d flag err J rfl ha
      cases ha with
      | poisoned hp => exact absurd hp (clean_not_poisoned s hm _ (dbHash_lt _))
      | data | absentLong | absentFar | presentLong | presentFar => exact DbFn.noConfusion
  cases c with
  | fetch k => exact hop (.fetch k) fun _ _ _ h => MapOp.noConfusion h
  | store k d flag =>
    refine hop (.store k d flag) fun k' d' flag' h => ?_
    cases h
    exact hg
  | delete k => exact hop (.delete k) fun _ _ _ h => MapOp.noConfusion h
  | rewind => exact wp_ret ⟨⟨I, chain, free, rfl, s, t⟩, hm⟩
  | nextrec =>
    refine wp_mono (nextrec_clean s t hm hf hg) ?_ fun _ _ h => h.elim
    rintro r fs' rfl
    exact ⟨⟨I, chain, free, rfl, s, t⟩, hm⟩

theorem guardedRun_keeps {hist : List (Call × Result)} (hf : ptrMax < fuel)
    (h : GuardedRun fuel hist db fs) : Keeps (replay hist) fs ∧ Clean (replay hist) := by
  induction h with
  | start h =>
    rw [open_run] at h
    cases h
    exact ⟨keeps_created, fun k d h => by cases h⟩
  | @call hist fs fs' db db' c r _ hg h ih =>
    have hdone := wp_done (wp_guarded hf ih.1 ih.2 hg) h
    rw [replay, List.foldl_concat]
    exact hdone

theorem replay_untouched {k : CString} {hist after : List (Call × Result)}
    (ha : ∀ x ∈ after, ¬ Touches k x.1) : replay (hist ++ after) k = replay hist k := by
  rw [replay, List.foldl_append]
  change after.foldl record (replay hist) k = replay hist k
  generalize replay hist = m
  induction after generalizing m with
  | nil => rfl
  | cons x after ih =>
    have hx : record m x k = m k := by
      have hnt := ha x List.mem_cons_self
      fun_cases record m x with
      | case1 key d flag => exact update_of_ne (fun hk => hnt hk.symm) _ _
      | case2 key => exact update_of_ne (fun hk => hnt hk.symm) _ _
      | case3 => rfl
    rw [List.foldl_cons, ih (fun y hy => ha y (List.mem_cons_of_mem x hy)) (record m x), hx]

/-- In every guarded run, no guarded call aborts in _db_readidx, and db_fetch returns the
data of the last successful store until that key is stored or deleted again. -/
theorem guarded_keys_never_poison (fuel : ℕ) (hf : ptrMax < fuel) {hist : List (Call × Result)}
    {db : DB} {fs : Fd → List Byte} (h : GuardedRun fuel hist db fs) :
    (∀ c, Guarded fs db c →
      Meets (fun _ _ => True) (fun err _ => err.fn ≠ .readidx) ((exec fuel c db).run fs)) ∧
    ∀ k d flag before after, hist = before ++ (.store k d flag, .status 0) :: after →
      (∀ x ∈ after, ¬ Touches k x.1) →
      ∃ db', (exec fuel (.fetch k) db).run fs = .done (.data (some d.1), db') fs := by
  obtain ⟨hk, hm⟩ := guardedRun_keeps hf h
  constructor
  · intro c hg
    have hw := wp_mono (wp_guarded hf hk hm hg) (fun _ _ _ => trivial) fun _ _ he => he
    unfold wp at hw
    exact hw
  · intro k d flag before after hhist hafter
    have hmap : replay hist k = some d := by
      have hsplit : hist = (before ++ [(.store k d flag, .status 0)]) ++ after := by simp [hhist]
      rw [hsplit, replay_untouched hafter, replay, List.foldl_concat]
      exact update_self _ _ _
    obtain ⟨I, chain, free, rfl, s, -⟩ := hk
    obtain ⟨db', hr⟩ := fetch_run db s hm hf.le k
    rw [hmap] at hr
    refine ⟨db', ?_⟩
    change (dbFetch fuel db k.1 >>= fun r => .ret (Result.data r.1, r.2)).run I.files = _
    rw [run_bind, hr]
    rfl

theorem guarded_keys_never_poison_one : ∃ db fs,
    GuardedRun (ptrMax + 1)
      [(.store ⟨[107], by decide⟩ ⟨[118], by decide⟩ dbInsert, .status 0)] db fs ∧
    ∃ db', (exec (ptrMax + 1) (.fetch ⟨[107], by decide⟩) db).run fs =
      .done (.data (some [118]), db') fs := by
  let k : CString := ⟨[107], by decide⟩
  let d : CString := ⟨[118], by decide⟩
  have hfit : FitsIndex k 0 d := ⟨by decide, by decide⟩
  obtain ⟨db, fs, hr, -⟩ :=
    created_store_run (dbRewind {}) (Nat.le_succ ptrMax) hfit ⟨by decide, by decide⟩
  have hstart : GuardedRun (ptrMax + 1) [] (dbRewind {}) created.files :=
    .start (open_run fun _ => [])
  have hguard : Guarded created.files (dbRewind {}) (.store k d dbInsert) := by
    change sep ∉ k.1
    decide
  have hrun : GuardedRun (ptrMax + 1) [(.store k d dbInsert, .status 0)] db fs :=
    .call hstart hguard hr
  refine ⟨db, fs, hrun, ?_⟩
  exact (guarded_keys_never_poison (ptrMax + 1) (Nat.lt_succ_self _) hrun).2 k d dbInsert [] [] rfl
    fun x hx => by cases hx

/-! ## Where the guards fail -/

/-- The key a:b is stored and the next fetch of it aborts. Also a scan that follows a fetch
without a rewind reads a record out of the hash table. -/
theorem separator_poisons_database :
    results ((dbOpen true true >>= execAll (ptrMax + 1)
      [.store ⟨[97, 58, 98], by decide⟩ ⟨[118], by decide⟩ dbInsert]).run fun _ => []) =
        some [.status 0] ∧
    abortOf ((dbOpen true true >>= execAll (ptrMax + 1)
      [.store ⟨[97, 58, 98], by decide⟩ ⟨[118], by decide⟩ dbInsert,
        .fetch ⟨[97, 58, 98], by decide⟩]).run fun _ => []) =
        some ⟨.readidx, "too many separators"⟩ ∧
    abortOf ((dbOpen true true >>= execAll (ptrMax + 1)
      [.store ⟨[107], by decide⟩ ⟨[118], by decide⟩ dbInsert, .fetch ⟨[120], by decide⟩,
        .nextrec]).run fun _ => []) =
        some ⟨.readidx, "invalid length"⟩ := by
  decide +kernel

end DbSeparators
