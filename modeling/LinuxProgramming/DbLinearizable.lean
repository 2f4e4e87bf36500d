import LinuxProgramming.DbSharedStore
import LinuxProgramming.DbDeadlock
import LinuxProgramming.DbScan

/-! # Concurrent calls are linearizable

Any number of processes fetch, store and delete on one database. In the order in which the
calls return, each of them answers as a plain map does, and each of them returns by
releasing the chain of its key. -/
namespace DbLinearizable

set_option linter.unusedSectionVars false

open CStrings ByteFiles SyscallPrograms SoloRuns RelyGuarantee LinkedChains DbLibrary DbImage
  DbRecords DbLists DbInvariant DbOperations DbStore DbRefinement DbShared DbSharedSteps
  DbSharedCalls DbSharedFind DbSharedDelete DbSharedStore DbDeadlock DbScan

variable {ι : Type} [DecidableEq ι] {S : Setting ι} {files : Fd → List Byte} {handle : ι → DB}
  {fuel : ℕ} {m : KeyMap}

/-! ## The start -/

def atRest (I : Image) (chain : ℕ → List ℕ) (free : List ℕ) (m : KeyMap) : Ghost ι where
  locks := noLocks
  trace := []
  img := I
  list
    | .chain h => chain h
    | .free => free
    | .proc _ => []
  pending _ := none
  victim := none
  map := m

theorem atRest_layout {I : Image} {chain : ℕ → List ℕ} {free : List ℕ}
    (s : Stores I chain free S.m₀) (t : Tight I chain free [] []) (hm : Clean S.m₀) :
    Layout S (atRest I chain free S.m₀) := by
  constructor
  · exact exclusive_noLocks
  · refine fun h _ => ⟨s.chains h h.2, fun k d hk => ?_⟩
    change S.m₀ k = some d ↔ Holds I (chain h) k d
    rw [← hk]
    exact s.maps k d
  · exact fun _ => ⟨s.freeList, rfl⟩
  · exact s.blocks
  · intro x o ho
    cases x with
    | chain h =>
      obtain ⟨e, he, -⟩ := (s.chains h h.2).entry o ho
      exact ⟨e, he⟩
    | free =>
      obtain ⟨e, -, he, -⟩ := s.freeList.entry o ho
      exact ⟨e, he⟩
    | proc p => cases ho
  · intro x y o hx hy
    cases x with
    | chain h =>
      cases y with
      | chain h' => exact congrArg Owner.chain (Fin.ext (s.chain_disjoint h.2 h'.2 hx hy))
      | free => exact absurd hy (s.apart h h.2 o hx)
      | proc p => cases hy
    | free =>
      cases y with
      | chain h' => exact absurd hx (s.apart h' h'.2 o hy)
      | free => rfl
      | proc p => cases hy
    | proc p => cases hx
  · intro p b hb
    cases hb
  · intro p q b hb
    cases hb
  · intro o e he
    rcases record_cases s t he with ⟨-, hb⟩ | ⟨-, d, -, hd⟩
    · exact sep_notMem_blank hb
    · exact hm e.key d hd
  · intro o e he _
    rcases record_cases s t he with ⟨hf, -⟩ | ⟨hc, -⟩
    · exact Or.inl (linked_le_ptrMax s.freeList.linked hf)
    · exact Or.inl (linked_le_ptrMax (s.chains _ (dbHash_lt _)).linked hc)
  · intro o e d he _ hb hd
    rcases record_cases s t he with ⟨-, hb'⟩ | ⟨-, d', hd', hm'⟩
    · have hb' : isBlank e.key.1 = true := hb'
      rw [hb] at hb'
      cases hb'
    · exact Or.inl (hm'.trans (hd'.symm.trans hd))

theorem no_split {α : Type} {before after : List α} {e : α} (h : [] = before ++ e :: after) :
    False := List.append_ne_nil_of_right_ne_nil _ (List.cons_ne_nil _ _) h.symm

theorem initial_good (hk : Keeps S.m₀ files) (hm : Clean S.m₀)
    (hscan : ∀ p, S.scans p → (handle p).idxpos = recordsOff) :
    ∃ g, Good (protocol S) (initial files handle) g := by
  obtain ⟨I, chain, free, rfl, s, t⟩ := hk
  refine ⟨atRest I chain free S.m₀, rfl, ⟨atRest_layout s t hm, ?_⟩, fun p => ?_⟩
  · constructor
    · rfl
    · exact fun _ _ _ h => by cases h
    · rfl
    · exact fun _ _ _ _ _ h => (no_split h).elim
    · exact fun _ _ _ _ h => (no_split h).elim
  · refine ⟨rfl, rfl, rfl, fun hs => ?_⟩
    rw [hscan p hs]
    exact atRecord_start I

/-! ## The end -/

/-- With all locks free the ghost state describes a database at rest. -/
theorem stores_of_quiet {g : Ghost ι} (hi : Inv S g) (hq : ∀ p, g.locks p = unlocked) :
    Stores g.img (fun h => if hh : h < nhash then g.list (.chain ⟨h, hh⟩) else []) (g.list .free)
      g.map := by
  have quiet : ∀ x : Owner ι, (∀ p, x ≠ .proc p) → Quiet g x := by
    intro x hx p he
    cases x with
    | chain h =>
      change g.locks p .idx (slotOff h) = some .write at he
      rw [hq p] at he
      cases he
    | free =>
      change g.locks p .idx freeOff = some .write at he
      rw [hq p] at he
      cases he
    | proc r => exact hx r rfl
  have hchain := fun h => hi.chains h (quiet (.chain h) (by simp))
  refine ⟨fun h hh => ?_, (hi.freeList (quiet .free (by simp))).1, hi.blocks, fun h hh o ho hf => ?_,
    fun k d => ?_⟩
  · simp only [hh, dif_pos]
    exact (hchain ⟨h, hh⟩).1
  · simp only [hh, dif_pos] at ho
    cases hi.apart _ _ o ho hf
  · simp only [dbHash_lt, dif_pos]
    exact (hchain (hashOf k)).2 k d rfl

/-- Nobody holds a lock when all processes are between two calls. -/
theorem idle_unlocked {w : World ι Fd Fatal Call Result DB} {g : Ghost ι}
    (hg : Good (protocol S) w g) (hidle : ∀ p, ∃ db, w.proc p = .idle db) (p : ι) :
    g.locks p = unlocked := by
  obtain ⟨db, hdb⟩ := hidle p
  have hp := hg.proc p
  rw [hdb] at hp
  exact hp.locks

def Serves (fuel : ℕ) (m : KeyMap) (fs : Fd → List Byte) : Prop :=
  ∀ db k, ∃ db', (dbFetch fuel db k.1).run fs = .done ((m k).map Subtype.val, db') fs

theorem good_serves {w : World ι Fd Fatal Call Result DB} {g : Ghost ι} (hf : ptrMax ≤ fuel)
    (hg : Good (protocol S) w g) (hidle : ∀ p, ∃ db, w.proc p = .idle db) :
    Serves fuel g.map w.shared.files := by
  intro db k
  have s := stores_of_quiet hg.inv (idle_unlocked hg hidle)
  have hfiles : w.shared.files = g.img.files := congrArg Shared.files hg.view.symm
  have hw : wp (dbFetch fuel db k.1)
      (fun r fs => r.1 = (g.map k).map Subtype.val ∧ fs = g.img.files) (fun _ _ => False)
      g.img.files := by
    refine wp_fetch s hf (fun v db' hv => ⟨?_, rfl⟩) fun hp => ?_
    · rw [hv.stored s]
    · obtain ⟨-, x, -, a, -, -, ha, hs⟩ := hp
      exact hg.inv.clean x a ha hs
  obtain ⟨⟨r, db'⟩, fs, hr, rfl, rfl⟩ := wp_returns hw
  rw [hfiles]
  exact ⟨db', hr⟩

/-! ## Every interleaving -/

def MapCalls (_ : ι) (c : Call) : Prop := ∃ op : MapOp, sep ∉ op.key.1 ∧ c = op.call

def mapSetting (m₀ : KeyMap) : Setting ι where
  m₀ := m₀
  ok k := sep ∉ k.1
  scans _ := False
  clean _ h := h

theorem mapCalls_safe (hf : ptrMax ≤ fuel) (m₀ : KeyMap) :
    StartsSafe (protocol (mapSetting m₀ : Setting ι)) (exec fuel) MapCalls := by
  rintro p c db g ⟨op, hop, rfl⟩ hi hrest
  cases op with
  | fetch k => exact shared_fetch id hf hi hrest
  | store k d flag => exact shared_store id hf hop hi hrest
  | delete k => exact shared_delete id hf hi hrest

/-- What a run on a database that held `m₀` comes to: in the order of their returns the
completed calls take `m₀` to `m` and answer as they did, each returns when it gives up the
lock of its chain, and with all processes idle the files hold `m`. -/
structure Linearized (fuel : ℕ) (m₀ m : KeyMap) (w : World ι Fd Fatal Call Result DB) : Prop where
  legal : Legal m₀ w.shared.trace m
  locked : LockedReturns w.shared.trace
  alive : ∀ p c e, Event.aborted p c e ∉ w.shared.trace
  ends : ∀ p c, w.proc p ≠ .busy c .hang
  final : (∀ p, ∃ db, w.proc p = .idle db) → Serves fuel m w.shared.files

theorem good_ends {w : World ι Fd Fatal Call Result DB} {g : Ghost ι}
    (hg : Good (protocol S) w g) (p : ι) (c : Call) : w.proc p ≠ .busy c .hang := by
  intro hp
  have h := hg.proc p
  rw [hp] at h
  exact not_safe_hang h.2.2

/-- Calls of any number of processes on one database, interleaved in any way, none of them
a store that hits a limit of the format. -/
theorem concurrent_calls_linearizable (fuel : ℕ) (hf : ptrMax ≤ fuel) (m₀ : KeyMap)
    (files : Fd → List Byte) (hk : Keeps m₀ files) (hm : Clean m₀) (handle : ι → DB)
    (w : World ι Fd Fatal Call Result DB)
    (hw : Execution (exec fuel) MapCalls (initial files handle) w)
    (hlimit : ∀ p c e, Event.aborted p c e ∈ w.shared.trace → ¬ MayAbort c e) :
    ∃ m, Linearized fuel m₀ m w := by
  have hstart : ∃ g, Good (protocol (mapSetting m₀)) (initial files handle) g :=
    initial_good hk hm fun p hs => hs.elim
  rcases execution_good (mapCalls_safe hf m₀) hw hstart with ⟨p, c, e, hmem, hab⟩ | ⟨g, hg⟩
  · exact absurd hab (hlimit p c e hmem)
  · have htrace : w.shared.trace = g.trace := congrArg Shared.trace hg.view.symm
    have ht := hg.inv.trace
    refine ⟨g.map, ?_, ?_, ?_, good_ends hg, good_serves hf hg⟩
    · rw [htrace]
      exact ht.legal
    · rw [htrace]
      exact ht.locked
    · rw [htrace]
      exact ht.alive

/-- One of two processes stores a pair into a new database. -/
theorem concurrent_calls_linearizable_store :
    let k : CString := ⟨[107], by decide⟩
    let d : CString := ⟨[118], by decide⟩
    ∃ w : World Bool Fd Fatal Call Result DB,
      Execution (exec ptrMax) MapCalls (initial created.files fun _ => {}) w ∧
      completed w.shared.trace = [(true, .store k d dbInsert, .status 0)] ∧
      ∃ m, Linearized ptrMax emptyMap m w := by
  intro k d
  have hfit : FitsIndex k 0 d := by
    constructor <;> decide
  obtain ⟨db', fs', hrun, -⟩ := created_store_run (k := k) (d := d) {} le_rfl hfit (by decide)
  have hop : MapCalls true (.store k d dbInsert) := ⟨.store k d dbInsert, by decide, rfl⟩
  let w₀ : World Bool Fd Fatal Call Result DB := initial created.files fun _ => {}
  obtain ⟨w, hexec, hto⟩ : ∃ w, Execution (exec ptrMax) MapCalls w₀ w ∧
      RunsTo w₀.shared w₀.proc true (.store k d dbInsert) (.status 0, db') fs' w :=
    call_execution rfl hop (fun _ _ _ _ => rfl) hrun
  obtain ⟨tr, htr, hin⟩ := hto.trace
  have htr : w.shared.trace = tr ++ [.returned true (.store k d dbInsert) (.status 0)] := htr
  refine ⟨w, hexec, ?_, ?_⟩
  · rw [htr, completed_concat, completed_inside hin]
    rfl
  · refine concurrent_calls_linearizable ptrMax le_rfl emptyMap created.files keeps_created
      (fun k d h => by cases h) _ w hexec fun p c e he => ?_
    rw [htr] at he
    rcases List.mem_append.mp he with he | he
    · exact (hin _ he).elim
    · cases List.mem_singleton.mp he

end DbLinearizable
