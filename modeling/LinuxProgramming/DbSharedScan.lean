import LinuxProgramming.DbLinearizable

/-! # Scanning among other processes

db_nextrec holds the byte of the free list for reading and nothing else. Nobody can then
blank a record, so a key that is not blank stays. A record that a store is filling has its
data before it has its key, and the data of a record is written at one stroke. -/
namespace DbSharedScan

set_option linter.unusedSectionVars false

open CStrings ByteFiles SyscallPrograms RelyGuarantee LinkedChains DbLibrary DbImage DbRecords
open Function LockOrder
  DbLists DbInvariant DbOperations DbStore DbRefinement DbShared DbSharedSteps DbSharedCalls
  DbSharedFind DbSharedDelete DbSharedStore DbDeadlock DbLinearizable DbScan

variable {ι : Type} [DecidableEq ι] {S : Setting ι} {g₀ g : Ghost ι} {p : ι} {c : Call} {db : DB}
  {fuel : ℕ}

/-! ## One record -/

/-- The reads of a scan at a record boundary: the pointer and the length may come from an
earlier state of the record than its text, but the lengths agree. -/
theorem shared_scanRecord {Ψ : ℤ × DB → Ghost ι → Prop} (hi : Inv S g)
    (hat : AtRecord g.img db.idxpos)
    (heof : ∀ g₁, Rely p g g₁ → Inv S g₁ → AtRecord g₁.img db.idxpos →
      (∃ tr, g₁.trace = tr ++ [.got p c .idx db.idxpos (ptrSz + idxlenSz) []]) →
      Ψ (-1, { db with idxoff := db.idxpos }) g₁)
    (hrec : ∀ (g₁ : Ghost ι) (e : Entry) (v : ℕ), Rely p g g₁ → Inv S g₁ →
      g₁.img.recs.lookup db.idxpos = some e → Ψ (v, readBack db v e) g₁) :
    Safe (protocol S) p c Ψ (dbReadidx db 0) g := by
  rw [readidx_zero_eq, readRecord_eq]
  refine shared_read (Rely.refl p g) hi fun g₁ h₁ hi₁ htr => ?_
  have hat₁ := h₁.atRecord hat
  rcases hat₁ with hend | ⟨e₁, he₁⟩
  · have hnil : pread (g₁.img.files .idx) db.idxpos (ptrSz + idxlenSz) = [] := by
      rw [show g₁.img.files .idx = g₁.img.idx from rfl, hend, ← length_idx, pread_at_end]
    rw [hnil] at htr ⊢
    rw [readFront_eof]
    exact safe_ret (heof g₁ h₁ hi₁ (Or.inl hend) htr)
  · rw [show g₁.img.files .idx = g₁.img.idx from rfl, pread_entry_front he₁,
      readFront_entry db 0 (g₁.img.ptr_le _)]
    refine shared_read (Rely.refl p g₁) hi₁ fun g₂ h₂ hi₂ _ => ?_
    obtain ⟨e₂, he₂, hs⟩ := h₂.shape _ e₁ he₁
    rw [show g₂.img.files .idx = g₂.img.idx from rfl, ← hs.length, pread_entry_text he₂]
    apply safe_if_neg (not_not_intro rfl)
    rw [parseIdxbuf_clean rfl (hi₂.clean _ e₂ he₂)]
    have hpos : db.idxpos + (ptrSz + idxlenSz) + e₂.text.length = db.idxpos + e₂.size := by
      rw [Entry.size, Nat.add_assoc]
    rw [hpos]
    exact safe_ret (hrec g₂ e₂ _ (h₁.trans h₂) hi₂ he₂)

/-- A loop over blank records, which all lie within reach of a pointer, so that the loop
ends. -/
theorem shared_nextrecLoop {Ψ : Option (List Byte) × DB → Ghost ι → Prop}
    (hok : ∀ k, S.ok k → isBlank k.1 = false)
    (hnone : ∀ (g₁ : Ghost ι) (db' : DB), Rely p g₀ g₁ → Inv S g₁ → AtRecord g₁.img db'.idxpos →
      (∃ tr off, g₁.trace = tr ++ [.got p c .idx off (ptrSz + idxlenSz) []]) → Ψ (none, db') g₁)
    (hfound : ∀ (g₁ : Ghost ι) (db' : DB) (o : ℕ) (e : Entry), Rely p g₀ g₁ → Inv S g₁ →
      g₁.img.recs.lookup o = some e → isBlank e.key.1 = false → db'.datoff = e.datoff →
      db'.datlen = e.datlen → AtRecord g₁.img db'.idxpos → Ψ (some e.key.1, db') g₁)
    (hpos : 0 < fuel) (hf : ptrMax + 2 ≤ db.idxpos + fuel) (hat : AtRecord g.img db.idxpos)
    (hr : Rely p g₀ g) (hi : Inv S g) :
    Safe (protocol S) p c Ψ (nextrecLoop fuel db) g := by
  induction fuel generalizing db g with
  | zero => omega
  | succ n ih =>
    apply safe_bind
    refine shared_scanRecord hi hat (fun g₁ h₁ hi₁ hat₁ htr => ?_) fun g₁ e v h₁ hi₁ he => ?_
    · apply safe_if_pos (by decide)
      apply safe_ret
      obtain ⟨tr, htr⟩ := htr
      exact hnone g₁ _ (hr.trans h₁) hi₁ hat₁ ⟨tr, _, htr⟩
    · have hcstr : cstr (readBack db v e).idxbuf = e.key.1 := cstr_parsed e
      have hnext : AtRecord g₁.img (readBack db v e).idxpos := atRecord_next he
      apply safe_if_neg (by simp)
      rw [hcstr]
      apply safe_ite
      · intro hblank
        have hnear : db.idxpos ≤ ptrMax := by
          rcases hi₁.blank _ e he hblank with hle | hk
          · exact hle
          · rw [hok e.key hk] at hblank
            cases hblank
        have hsize := e.size_pos
        refine ih (by omega) ?_ hnext (hr.trans h₁) hi₁
        change ptrMax + 2 ≤ db.idxpos + e.size + n
        omega
      · intro hblank
        apply safe_ret
        exact hfound g₁ _ db.idxpos e (hr.trans h₁) hi₁ he (by simpa using hblank) rfl rfl hnext

/-! ## The whole call -/

def scanLock : Fd → ℕ → Option LockMode := lend unlocked .idx .read freeOff 1

theorem scanLock_free : scanLock .idx freeOff = some .read :=
  lend_in ⟨le_rfl, Or.inr (Nat.lt_succ_self _)⟩

/-- The process holds the free list for reading. -/
structure Scanning (p : ι) (g : Ghost ι) : Prop where
  seat : Seat p scanLock [] none g
  freeList : FreeOK g.img (g.list .free)
  victim : g.victim = none

theorem Scanning.guards (h : Scanning p g) : Guards g p .free := by
  change g.locks p .idx freeOff ≠ none
  rw [h.seat.locks, scanLock_free]
  exact Option.some_ne_none _

theorem Scanning.stable {g' : Ghost ι} (h : Scanning p g) (hr : Rely p g g') : Scanning p g' :=
  ⟨h.seat.stable hr, freeOK_stable hr h.guards h.freeList, (hr.victim h.guards).trans h.victim⟩

theorem shared_endScan {x : Option (List Byte × List Byte)} (db : DB) (sc : Scanning p g₀)
    (hat : AtRecord g₀.img db.idxpos)
    (hres : ∀ g₁, Rely p g₀ g₁ → Scanned S (g₁.trace ++ [.unlocked p .idx freeOff 1]) p (.record x))
    (hr : Rely p g₀ g) (hi : Inv S g) :
    Safe (protocol S) p .nextrec
      (fun _ g' => Completes (protocol S) p .nextrec (.record x, db) g')
      (unLock .idx freeOff 1) g := by
  refine shared_unlock hr hi fun g₁ h₁ hi₁ => ?_
  have sc₁ := sc.stable h₁
  refine ⟨fun i => covers_free, fun _ => ⟨sc₁.freeList, sc₁.victim⟩, fun hi₂ => safe_ret ?_⟩
  refine ⟨noted _ (.returned p .nextrec (.record x)), rfl,
    fun q hq => noted_rely (quietly_other rfl hq), ?_, ?_⟩
  · exact ⟨noted_layout hi₂.toLayout, traceOK_scanned hi₂.trace rfl rfl rfl rfl fun _ => hres g₁ h₁⟩
  · have seat₂ := sc₁.seat.released fun b _ => rfl
    exact ⟨seat₂.locks, seat₂.own, seat₂.pending, fun _ => h₁.atRecord hat⟩

theorem scanned_eof {tr : List (DbEvent ι)} {off : ℕ} (hr : Rely p g₀ g)
    (htr : g₀.trace = tr ++ [.got p .nextrec .idx off (ptrSz + idxlenSz) []]) :
    Scanned S (g.trace ++ [.unlocked p .idx freeOff 1]) p (.record none) := by
  obtain ⟨tr₂, htr₂, hq⟩ := hr.trace
  refine Or.inl ⟨rfl, tr, off, tr₂, ?_, hq⟩
  rw [htr₂, htr]
  simp

theorem shared_nextrec (hok : ∀ k, S.ok k → isBlank k.1 = false) (hs : S.scans p)
    (hf : ptrMax ≤ fuel) (hi : Inv S g) (hrest : Resting S p db g) :
    CallSafe (protocol S) p .nextrec (exec fuel .nextrec db) g := by
  have seat : Seat p unlocked [] none g := ⟨hrest.locks, hrest.own, hrest.pending⟩
  have hself : InRange freeOff 1 freeOff := ⟨le_rfl, Or.inr (Nat.lt_succ_self _)⟩
  apply safe_bind
  unfold dbNextrec
  refine shared_lock (Rely.refl p g) hi seat.locks (fun _ _ => rfl) fun g₁ h₁ hi₁ hq hi₁' => ?_
  obtain ⟨hfree, hvic⟩ := hi₁.freeList (hq .free ⟨rfl, hself⟩)
  have sc : Scanning p (tookLock g₁ p .idx .read freeOff 1) :=
    ⟨(seat.stable h₁).tookLock, ⟨hfree.linked, hfree.entry⟩, hvic⟩
  have hat : AtRecord (tookLock g₁ p .idx .read freeOff 1).img db.idxpos :=
    h₁.atRecord (hrest.scan hs)
  have hpos : ptrMax + 2 ≤ db.idxpos + fuel := by
    have hle := hat.le
    have hoff : 2 ≤ recordsOff := by decide
    omega
  have hfuel : 0 < fuel := Nat.lt_of_lt_of_le (by decide) hf
  apply safe_bind
  apply safe_ret
  apply safe_bind
  apply safe_bind
  refine shared_nextrecLoop hok (fun g₂ db₂ h₂ hi₂ hat₂ htr => ?_)
    (fun g₂ db₂ o e h₂ hi₂ he hb hdo hdl hat₂ => ?_) hfuel hpos hat (Rely.refl p _) hi₁'
  · obtain ⟨tr, off, htr⟩ := htr
    apply safe_ret
    apply safe_bind
    refine safe_mono ?_ _ _ (shared_endScan db₂ (sc.stable h₂) hat₂
      (fun g₃ h₃ => scanned_eof h₃ htr) (Rely.refl p _) hi₂)
    exact fun _ _ hc => safe_ret (safe_ret hc)
  · have sc₂ := sc.stable h₂
    have hkey : ∀ {g₃ : Ghost ι}, Rely p g₂ g₃ → g₃.img.recs.lookup o = some e :=
      fun h₃ => h₃.keys sc₂.guards o e he hb
    apply safe_bind
    refine shared_readdat (Rely.refl p _) hi₂ hdo (fun g₃ h₃ hi₃ => ?_)
      fun g₃ d db₃ h₃ hi₃ hd hpos₃ _ => ?_
    · obtain ⟨d, hd, hl⟩ := hi₃.blocks.block o e (hkey h₃)
      exact ⟨d, hd, hdl.trans hl⟩
    · have sc₃ := sc₂.stable h₃
      have hvic₃ : g₃.victim ≠ some o := by simp [sc₃.victim]
      have hsrc := hi₃.stored o e d (hkey h₃) hvic₃ hb hd
      have hat₃ : AtRecord g₃.img db₃.idxpos := by
        rw [hpos₃]
        exact h₃.atRecord hat₂
      apply safe_ret
      apply safe_bind
      refine safe_mono ?_ _ _ (shared_endScan { db₃ with cntNextrec := db₃.cntNextrec + 1 } sc₃ hat₃
        (fun g₄ h₄ => Or.inr ⟨e.key, d, rfl, source_mono hsrc (h₄.grown.trans ?_)⟩)
        (Rely.refl p _) hi₃)
      · exact fun _ _ hc => safe_ret (safe_ret hc)
      · exact List.prefix_append _ _

theorem shared_rewind (hi : Inv S g) (hrest : Resting S p db g) :
    CallSafe (protocol S) p .rewind (exec fuel .rewind db) g := by
  apply safe_ret
  refine ⟨noted g (.returned p .rewind .unit), rfl,
    fun q hq => noted_rely (quietly_other rfl hq), ?_, ?_⟩
  · refine ⟨noted_layout hi.toLayout, traceOK_scanned hi.trace rfl rfl rfl rfl fun hc => ?_⟩
    cases hc
  · exact ⟨hrest.locks, hrest.own, hrest.pending, fun _ => atRecord_start g.img⟩

/-! ## Every interleaving -/

/-- The processes in `scans` scan, the others fetch, store and delete keys that hold no
separator and are not blank. -/
def ScanCalls (scans : ι → Prop) (p : ι) (c : Call) : Prop :=
  (scans p ∧ (c = .nextrec ∨ c = .rewind)) ∨
    (¬ scans p ∧ ∃ op : MapOp, (sep ∉ op.key.1 ∧ isBlank op.key.1 = false) ∧ c = op.call)

def scanSetting (m₀ : KeyMap) (scans : ι → Prop) : Setting ι where
  m₀ := m₀
  ok k := sep ∉ k.1 ∧ isBlank k.1 = false
  scans := scans
  clean _ h := h.1

theorem scanCalls_safe (hf : ptrMax ≤ fuel) (m₀ : KeyMap) (scans : ι → Prop) :
    StartsSafe (protocol (scanSetting m₀ scans)) (exec fuel) (ScanCalls scans) := by
  intro p c db g hc hi hrest
  rcases hc with ⟨hs, hc⟩ | ⟨hns, op, hop, rfl⟩
  · rcases hc with rfl | rfl
    · exact shared_nextrec (fun _ hk => hk.2) hs hf hi hrest
    · exact shared_rewind hi hrest
  · cases op with
    | fetch k => exact shared_fetch hns hf hi hrest
    | store k d flag => exact shared_store hns hf hop hi hrest
    | delete k => exact shared_delete hns hf hi hrest

/-- Scans beside any number of writers: no call of db_nextrec aborts or runs for ever, and
each returns NULL after a read at the end of the index file or one pair as it was stored. -/
theorem concurrent_scans_return_stored_pairs (fuel : ℕ) (hf : ptrMax ≤ fuel) (m₀ : KeyMap)
    (files : Fd → List Byte) (hk : Keeps m₀ files) (hm : Clean m₀) (scans : ι → Prop)
    (handle : ι → DB) (hpos : ∀ p, scans p → (handle p).idxpos = recordsOff)
    (w : World ι Fd Fatal Call Result DB)
    (hw : Execution (exec fuel) (ScanCalls scans) (initial files handle) w)
    (hlimit : ∀ p c e, Event.aborted p c e ∈ w.shared.trace → ¬ MayAbort c e) :
    ScanReturns (scanSetting m₀ scans) w.shared.trace ∧
      (∀ p c e, Event.aborted p c e ∉ w.shared.trace) ∧ ∀ p c, w.proc p ≠ .busy c .hang := by
  have hstart : ∃ g, Good (protocol (scanSetting m₀ scans)) (initial files handle) g :=
    initial_good hk hm hpos
  rcases execution_good (scanCalls_safe hf m₀ scans) hw hstart with ⟨p, c, e, hmem, hab⟩ | ⟨g, hg⟩
  · exact absurd hab (hlimit p c e hmem)
  · have htrace : w.shared.trace = g.trace := congrArg Shared.trace hg.view.symm
    have ht := hg.inv.trace
    refine ⟨?_, ?_, good_ends hg⟩
    · rw [htrace]
      exact ht.scanned
    · rw [htrace]
      exact ht.alive

theorem nextrec_one {fs : Fd → List Byte} {k d : CString}
    (hk : Keeps (Function.update emptyMap k (some d)) fs) (hs : sep ∉ k.1)
    (hb : isBlank k.1 = false) (db : DB) (hpos : db.idxpos = recordsOff) (hf : ptrMax < fuel) :
    ∃ db', (dbNextrec fuel db).run fs = .done (some (k.1, d.1), db') fs := by
  obtain ⟨I, chain, free, rfl, s, t⟩ := hk
  have hrec : ∀ o e, I.recs.lookup o = some e → Blank (o, e) ∨
      (e.key = k ∧ I.blocks.lookup e.datoff = some d) := by
    intro o e he
    rcases record_cases s t he with ⟨-, hblank⟩ | ⟨-, d', hd', hm⟩
    · exact Or.inl hblank
    · by_cases heq : e.key = k
      · rw [heq, update_self] at hm
        exact Or.inr ⟨heq, hd'.trans hm.symm⟩
      · rw [update_of_ne heq] at hm
        cases hm
  have hout := nextrec_outcome s.blocks (⟨rfl, hpos⟩ : Before I db [] I.recs)
    (Nat.lt_of_le_of_lt (recs_length_le s t) hf)
  generalize (dbNextrec fuel db).run I.files = out at hout
  cases hout with
  | null hblank hend =>
    obtain ⟨o, ho, e, he, rfl, -⟩ := (s.maps k d).mp (update_self _ _ _)
    have hbl : isBlank e.key.1 = true := hblank (o, e) (lookup_entry.mp he)
    rw [hb] at hbl
    cases hbl
  | @found a c o e d' db' hl ha hnb hsep hd hoff hbef =>
    rcases hrec o e (lookup_entry.mpr (by simp [hl])) with hbl | ⟨hek, hd₁⟩
    · exact absurd hbl hnb
    · obtain rfl : d' = d := Option.some.inj (hd.symm.trans hd₁)
      exact ⟨db', by rw [hek]⟩
  | @poisoned a c r hl ha hsep =>
    rcases hrec r.1 r.2 (lookup_entry.mpr (by simp [hl])) with hbl | ⟨hek, -⟩
    · exact absurd hsep (sep_notMem_blank hbl)
    · rw [hek] at hsep
      exact absurd hsep hs

/-- One of two processes scans a database with one pair. -/
theorem concurrent_scans_return_stored_pairs_one :
    ∃ (m₀ : KeyMap) (files : Fd → List Byte) (w : World Bool Fd Fatal Call Result DB),
      Execution (exec (ptrMax + 1)) (ScanCalls (· = true)) (initial files fun _ => dbRewind {}) w ∧
      Event.returned true .nextrec (.record (some ([107], [118]))) ∈ w.shared.trace ∧
      ScanReturns (scanSetting m₀ (· = true)) w.shared.trace := by
  let k : CString := ⟨[107], by decide⟩
  let d : CString := ⟨[118], by decide⟩
  have hfit : FitsIndex k 0 d := ⟨by decide, by decide⟩
  obtain ⟨-, files, -, hkeeps⟩ :=
    created_store_run {} (Nat.le_succ ptrMax) hfit ⟨by decide, by decide⟩
  obtain ⟨db', hscan⟩ := nextrec_one hkeeps (by decide) (by decide) (dbRewind {}) rfl
    (Nat.lt_succ_self ptrMax)
  have hrun : (exec (ptrMax + 1) .nextrec (dbRewind {})).run files =
      .done (.record (some (k.1, d.1)), db') files := by
    rw [exec, run_bind, hscan]
    rfl
  let w₀ : World Bool Fd Fatal Call Result DB := initial files fun _ => dbRewind {}
  obtain ⟨w, hexec, hto⟩ : ∃ w, Execution (exec (ptrMax + 1)) (ScanCalls (· = true)) w₀ w ∧
      RunsTo w₀.shared w₀.proc true .nextrec (.record (some (k.1, d.1)), db') files w :=
    call_execution rfl (Or.inl ⟨rfl, Or.inl rfl⟩) (fun _ _ _ _ => rfl) hrun
  obtain ⟨tr, htr, hin⟩ := hto.trace
  have htr : w.shared.trace = tr ++ [.returned true .nextrec (.record (some (k.1, d.1)))] := htr
  have hclean : Clean (Function.update emptyMap k (some d)) := by
    intro k' d' h'
    by_cases heq : k' = k
    · rw [heq]
      decide
    · rw [update_of_ne heq] at h'
      cases h'
  refine ⟨Function.update emptyMap k (some d), files, w, hexec, ?_, ?_⟩
  · rw [htr]
    exact List.mem_append_right _ List.mem_cons_self
  · refine (concurrent_scans_return_stored_pairs (ptrMax + 1) (Nat.le_succ _) _ files hkeeps hclean
      (· = true) _ (fun _ _ => rfl) w hexec fun p c e he => ?_).1
    rw [htr] at he
    rcases List.mem_append.mp he with he | he
    · exact (hin _ he).elim
    · cases List.mem_singleton.mp he

/-- One call has aborted at a limit of the format, or all have returned and the files hold
the map that they make of `m₀`. -/
def Ended (fuel : ℕ) (m₀ : KeyMap) (w : World ι Fd Fatal Call Result DB) : Prop :=
  (∃ p c e, Event.aborted p c e ∈ w.shared.trace ∧ MayAbort c e) ∨
    (∀ p, ∃ db, w.proc p = .idle db) ∧ ∃ m, Legal m₀ w.shared.trace m ∧ Serves fuel m w.shared.files

theorem good_progress [Finite ι] (hf : ptrMax ≤ fuel) {w : World ι Fd Fatal Call Result DB}
    (hg : Good (protocol S) w g) (ho : Ordered rank w) :
    Ended fuel S.m₀ w ∨ ∃ w', Inside (exec fuel) w w' := by
  by_cases hidle : ∀ p, ∃ db, w.proc p = .idle db
  · refine Or.inl (Or.inr ⟨hidle, g.map, ?_, good_serves hf hg hidle⟩)
    rw [← hg.view]
    exact hg.inv.trace.legal
  · obtain ⟨p, hp⟩ := not_forall.mp hidle
    refine Or.inr (ordered_progress _ ho ?_ fun q c k hq => ?_)
    · have hok := hg.proc p
      cases hx : w.proc p with
      | idle db => exact absurd ⟨db, hx⟩ hp
      | busy c k => exact ⟨p, c, k, hx⟩
      | dead => rw [hx] at hok; exact hok.elim
    · have hok := hg.proc q
      rw [hq] at hok
      exact ⟨fun he => good_ends hg q c (he ▸ hq), hok.1, hok.2.1⟩

/-- From every state that finitely many processes reach, the calls that were made complete,
in whatever order their steps come. -/
theorem concurrent_calls_complete [Finite ι] (fuel : ℕ) (hf : ptrMax ≤ fuel) (m₀ : KeyMap)
    (files : Fd → List Byte) (hk : Keeps m₀ files) (hm : Clean m₀) (scans : ι → Prop)
    (handle : ι → DB) (hpos : ∀ p, scans p → (handle p).idxpos = recordsOff)
    (w : World ι Fd Fatal Call Result DB)
    (hw : Execution (exec fuel) (ScanCalls scans) (initial files handle) w) :
    Drains (Inside (exec fuel)) (Ended fuel m₀) w := by
  refine drains_of_wf (inside_wf _) (fun u v hu hs => hu.tail ?_) (fun u hu => ?_) hw
  · have hsafe := scanCalls_safe hf m₀ scans
    rcases execution_good hsafe hu (initial_good hk hm hpos) with hdied | ⟨g, hg⟩
    · exact Or.inl (Or.inl hdied)
    · exact good_progress hf hg (execution_ordered (fun c h => exec_disciplined fuel h c) hu
        fun _ _ _ hb => absurd rfl hb)
  · cases hs with
    | call p c h hp ha => exact ha.elim
    | act p c k k' s' hp hf => exact .act u p c k k' s' hp hf

/-- One of two processes has just begun a deletion. -/
theorem concurrent_calls_complete_delete :
    let w₀ : World Bool Fd Fatal Call Result DB := initial created.files fun _ => {}
    let c : Call := .delete ⟨[107], by decide⟩
    Drains (Inside (exec ptrMax)) (Ended ptrMax emptyMap)
      (settle w₀.shared w₀.proc true c (exec ptrMax c {})) := by
  intro w₀ c
  exact concurrent_calls_complete ptrMax le_rfl emptyMap created.files keeps_created
    (fun k d h => by cases h) (fun _ => False) _ (fun _ h => h.elim) _
    (.tail (.refl w₀) (.call w₀ true c {} rfl (Or.inr ⟨id, .delete _, by decide, rfl⟩)))

end DbSharedScan
