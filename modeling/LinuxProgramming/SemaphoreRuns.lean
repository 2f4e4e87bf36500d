import LinuxProgramming.SemaphoreInvariant

/-! # Runs of the semaphore routines

The counter, the lock and the initial value over every interleaving of the system calls of
any number of processes, exits included, and when `sem_close` may remove a set. -/
set_option linter.unusedSectionVars false

namespace SemaphoreRuns

open Interleaving SysVSemaphores SemaphorePackage SemaphoreInvariant Function

variable {ι : Type*} [DecidableEq ι] [Fintype ι]

section Calls

variable {s s' : Shared ι} {p : ι} {pc pc' : Pc} {id : SemId}

theorem semopOr_cases {ops : List Sembuf} {k : Shared ι → Shared ι × Pc}
    (h : semopOr s p id ops k = some (s', pc')) :
    (s', pc') = (s.leave p, .exited) ∨ ∃ set val, s.kernel.sets id = some set ∧
      semop set.val ops = .done val ∧ (s', pc') = k (s.perform p id set val ops) := by
  unfold semopOr at h
  split at h
  · cases h
    exact Or.inl rfl
  · rename_i set hset
    split at h
    · rename_i val hval
      exact Or.inr ⟨set, val, hset, hval, (Option.some.inj h).symm⟩
    · cases h
    · cases h
      exact Or.inl rfl

theorem counted_of_pos {set : SemSet} (h : SetOK s id set) (hpos : 1 ≤ set.val 1) :
    Counted s id set := by
  refine h.counter.resolve_left fun hu => ?_
  have := hu.zero
  omega

theorem performed_same {set : SemSet} {val : ℕ → ℤ} {ops : List Sembuf}
    (hz : total ops 1 = 0) : Performed s (s.perform p id set val ops) p id set val ops where
  kernel := rfl
  opens := by rw [hz, Int.sub_zero]; rfl
  opens_own _ _ := rfl
  opens_other _ _ := rfl
  marks := Or.inl rfl
  marks_other _ _ := rfl

theorem performed_opened {set : SemSet} {val : ℕ → ℤ} {ops : List Sembuf}
    (hz : total ops 1 = -1) (hc : Counted s id set) :
    Performed s ((s.perform p id set val ops).opened p id) p id set val ops where
  kernel := rfl
  opens := by
    rw [hz]
    simp [Shared.opened, Shared.setOpens, Shared.mark, Shared.perform]
  opens_own i hi := by
    simp [Shared.opened, Shared.setOpens, Shared.mark, Shared.perform, update_of_ne hi]
  opens_other q hq := by
    simp [Shared.opened, Shared.setOpens, Shared.mark, Shared.perform, update_of_ne hq]
  marks := Or.inr hc
  marks_other i hi := by
    simp [Shared.opened, Shared.setOpens, Shared.mark, Shared.perform, update_of_ne hi]

theorem performed_closed {set : SemSet} {val : ℕ → ℤ} {ops : List Sembuf}
    (hz : total ops 1 = 1) (hpos : 0 < s.opens p id) :
    Performed s ((s.perform p id set val ops).closed p id) p id set val ops where
  kernel := rfl
  opens := by
    rw [hz]
    simp only [Shared.closed, Shared.setOpens, Shared.perform, update_self]
    omega
  opens_own i hi := by
    simp [Shared.closed, Shared.setOpens, Shared.perform, update_of_ne hi]
  opens_other q hq := by
    simp [Shared.closed, Shared.setOpens, Shared.perform, update_of_ne hq]
  marks := Or.inl rfl
  marks_other _ _ := rfl

theorem performed_nowCreated {set : SemSet} {val : ℕ → ℤ} {ops : List Sembuf}
    (h : Performed s s' p id set val ops) (hc : Counted s id set) :
    Performed s (s'.nowCreated id) p id set val ops where
  kernel := h.kernel
  opens := h.opens
  opens_own := h.opens_own
  opens_other := h.opens_other
  marks := Or.inr hc
  marks_other i hi := by
    rw [← h.marks_other i hi]
    simp [Shared.nowCreated, Shared.mark, update_of_ne hi]

/-- A `semop` of process `p` that takes it from `pc` to `pc'`. -/
theorem keeps_performed {set : SemSet} {val : ℕ → ℤ} {ops : List Sembuf}
    (hp : Performed s s' p id set val ops) (h : SharedOK s) (ht : ThreadOK s p pc)
    (hs : s.kernel.sets id = some set) (hval : semop set.val ops = .done val)
    (hundo : ∀ b ∈ ops, b.undo = true ∨ b.op = 0)
    (hcounted : total ops 1 ≠ 0 → Counted s id set) (hle : set.val 2 + total ops 2 ≤ 1)
    (hself : (if pc'.inside id then -1 else 0) = (if pc.inside id then -1 else 0) - total ops 2)
    (hother : ∀ i, i ≠ id → pc'.inside i = pc.inside i)
    (hinit : ∀ i, initialising i pc' = false) (hclose : ∀ i, pc' ≠ .closeOp i) :
    Keeps s s' p pc' := by
  have hown : ThreadOK s' p pc' := ht.performed h hs hp hundo hself hother hinit hclose
  refine (hp.step h hs hval hundo hcounted ?_ hle).keeps h hown
  have := hown.lock id _ hp.sets_self
  split at this
  · exact Or.inr this
  · exact Or.inl this

theorem threadOK_setval0 {initval : ℤ} {set : SemSet} (ht : ThreadOK s p (.createSetval0 initval id))
    (hs : s.kernel.sets id = some set) :
    ThreadOK { s with kernel := s.kernel.setval id set 0 initval } p (.createSetval1 id) := by
  refine ⟨fun i set' hset => ?_, fun i set' hset hi => ?_, ht.known, fun _ hc => by cases hc⟩
  · rw [Kernel.adj_setval_member _ _ _ _ _ (by decide)]
    by_cases hi : i = id
    · subst i
      exact ht.lock id set hs
    · rw [Kernel.sets_setval_of_ne _ _ _ _ _ hi] at hset
      exact ht.lock i set' hset
  · obtain rfl : id = i := by simpa [initialising] using hi
    obtain rfl := Option.some.inj ((Kernel.sets_setval_self ..).symm.trans hset)
    obtain ⟨hz, hopens, hmarks⟩ := ht.unset id set hs (by simp [initialising])
    exact ⟨by simpa using hz, hopens, hmarks⟩

def plain : Pc → Bool
  | .createSetval0 _ _ | .createSetval1 _ | .closeOp _ | .closeRm _ => false
  | _ => true

/-- The calls of `semop`, and what is counted behind them. -/
inductive Performs (p : ι) (id : SemId) : Pc → List Sembuf → (Shared ι → Shared ι) → Pc → Prop
  | lock (key : Key) (initval : ℤ) (blocked : Bool) :
    Performs p id (.createLock key initval id blocked) opLock (fun s => s) (.createGetval initval id)
  | created : Performs p id (.createEnd id) opEndcreate (fun s => (s.opened p id).nowCreated id) .idle
  | opened : Performs p id (.openOp id) opOpen (fun s => s.opened p id) .idle
  | op (value : ℤ) : Performs p id (.op id value) (opOp value) (fun s => s) .idle
  | closed : Performs p id (.closeOp id) opClose (fun s => s.closed p id) (.closeGetval id)
  | unlock : Performs p id (.closeUnlock id) opUnlock (fun s => s) .idle

/-- Everything a process can do. -/
inductive Turn (s : Shared ι) (p : ι) : Pc → Act → Shared ι → Pc → Prop
  | left (pc : Pc) (a : Act) : Turn s p pc a (s.leave p) .exited
  | quiet {pc pc' : Pc} {a : Act} (hin : ∀ id, pc'.inside id = pc.inside id)
    (hplain : plain pc' = true) : Turn s p pc a s pc'
  | closing (id : SemId) : Turn s p .idle (.close id) s (.closeOp id)
  | found (key : Key) (initval : ℤ) :
    Turn s p (.createGet key initval) .go { s with kernel := (s.kernel.semget key).1 }
      (.createLock key initval (s.kernel.semget key).2 false)
  | unset {id : SemId} {set : SemSet} (initval : ℤ) (hs : s.kernel.sets id = some set)
    (hz : set.val 1 = 0) : Turn s p (.createGetval initval id) .go s (.createSetval0 initval id)
  | setval0 {id : SemId} {set : SemSet} (initval : ℤ) (hs : s.kernel.sets id = some set) :
    Turn s p (.createSetval0 initval id) .go { s with kernel := s.kernel.setval id set 0 initval }
      (.createSetval1 id)
  | setval1 {id : SemId} {set : SemSet} (hs : s.kernel.sets id = some set) :
    Turn s p (.createSetval1 id) .go { s with kernel := s.kernel.setval id set 1 bigCount }
      (.createEnd id)
  | lastLook {id : SemId} {set : SemSet} (hs : s.kernel.sets id = some set)
    (hval : set.val 1 = bigCount) : Turn s p (.closeGetval id) .go s (.closeRm id)
  | removed {id : SemId} {set : SemSet} (hs : s.kernel.sets id = some set) :
    Turn s p (.closeRm id) .go { s with kernel := s.kernel.rmid id set } .idle
  | performed {pc pc' : Pc} {id : SemId} {set : SemSet} {val : ℕ → ℤ} {ops : List Sembuf}
    {k : Shared ι → Shared ι} (hs : s.kernel.sets id = some set) (hval : semop set.val ops = .done val)
    (hk : Performs p id pc ops k pc') : Turn s p pc .go (k (s.perform p id set val ops)) pc'

theorem turn_semopOr {ops : List Sembuf} {k : Shared ι → Shared ι} {pc'' : Pc}
    (hk : Performs p id pc ops k pc'') (h : semopOr s p id ops (fun s => (k s, pc'')) = some (s', pc')) :
    Turn s p pc .go s' pc' := by
  rcases semopOr_cases h with he | ⟨set, val, hs, hval, he⟩
  · cases he
    exact .left _ _
  · cases he
    exact .performed hs hval hk

theorem semCreate_turn (h : semCreate s p pc = some (s', pc')) : Turn s p pc .go s' pc' := by
  cases pc with
  | createGet key initval =>
    cases h
    exact .found key initval
  | createLock key initval id blocked =>
    simp only [semCreate] at h
    split at h
    · split at h <;> cases h
      · exact .left _ _
      · exact .quiet (fun _ => rfl) rfl
    · rename_i set hs
      split at h
      · cases h
        exact .performed hs ‹_› (.lock key initval blocked)
      · split at h <;> cases h
        exact .quiet (fun _ => rfl) rfl
      · cases h
        exact .left _ _
  | createGetval initval id =>
    simp only [semCreate] at h
    split at h
    · cases h
      exact .left _ _
    · split at h <;> cases h
      · exact .unset initval ‹_› ‹_›
      · exact .quiet (fun _ => rfl) rfl
  | createSetval0 initval id =>
    simp only [semCreate] at h
    split at h
    · cases h
      exact .left _ _
    · split at h <;> cases h
      · exact .setval0 initval ‹_›
      · exact .left _ _
  | createSetval1 id =>
    simp only [semCreate] at h
    split at h <;> cases h
    · exact .left _ _
    · exact .setval1 ‹_›
  | createEnd id => exact turn_semopOr .created h
  | idle | openGet | openOp | op | closeOp | closeGetval | closeRm | closeUnlock | exited =>
    cases h

theorem semClose_turn (h : semClose s p pc = some (s', pc')) : Turn s p pc .go s' pc' := by
  cases pc with
  | closeOp id => exact turn_semopOr .closed h
  | closeGetval id =>
    simp only [semClose] at h
    split at h
    · cases h
      exact .left _ _
    · split at h
      · cases h
        exact .left _ _
      · split at h <;> cases h
        · exact .lastLook ‹_› ‹_›
        · exact .quiet (fun _ => rfl) rfl
  | closeRm id =>
    simp only [semClose, semRm, Option.some.injEq] at h
    split at h <;> cases h
    · exact .left _ _
    · exact .removed ‹_›
  | closeUnlock id => exact turn_semopOr .unlock h
  | idle | createGet | createLock | createGetval | createSetval0 | createSetval1 | createEnd
  | openGet | openOp | op | exited => cases h

theorem go_turn (h : act s p pc .go = some (s', pc')) : Turn s p pc .go s' pc' := by
  have hor : (((semCreate s p pc).or (semOpen s p pc)).or (semOp s p pc)).or (semClose s p pc) =
      some (s', pc') := by
    cases pc <;> exact h
  simp only [Option.or_eq_some_iff] at hor
  rcases hor with ((h | ⟨-, h⟩) | ⟨-, h⟩) | ⟨-, h⟩
  · exact semCreate_turn h
  · cases pc <;> simp only [semOpen, reduceCtorEq] at h
    · split at h <;> cases h <;> exact .quiet (fun _ => rfl) rfl
    · exact turn_semopOr .opened h
  · cases pc <;> simp only [semOp, reduceCtorEq] at h
    split at h
    · cases h
      exact .left _ _
    · exact turn_semopOr (.op _) h
  · exact semClose_turn h

theorem act_turn {a : Act} (h : act s p pc a = some (s', pc')) : Turn s p pc a s' pc' := by
  cases a with
  | go => exact go_turn h
  | exit =>
    have he : (s', pc') = (s.leave p, .exited) := by cases pc <;> cases h <;> rfl
    cases he
    exact .left _ _
  | fail =>
    cases pc <;> cases h <;> exact .quiet (fun _ => rfl) rfl
  | create key initval | «open» key =>
    cases pc <;> cases h
    split <;> exact .quiet (fun _ => rfl) rfl
  | op id value =>
    cases pc <;> cases h
    exact .quiet (fun _ => rfl) rfl
  | close id =>
    cases pc <;> cases h
    exact .closing id

/-! ## What a step preserves -/

theorem plain_owes (h : plain pc = true) :
    (∀ i, initialising i pc = false) ∧ (∀ i, pc ≠ .closeOp i) ∧ ∀ i, pc ≠ .closeRm i := by
  cases pc <;> simp_all [plain, initialising]

section Performs

variable {set : SemSet} {val : ℕ → ℤ} {ops : List Sembuf} {k : Shared ι → Shared ι}

theorem Performs.target (hk : Performs p id pc ops k pc') : plain pc' = true ∧
    (if pc'.inside id then -1 else 0) = (if pc.inside id then -1 else 0) - total ops 2 ∧
    ∀ i, i ≠ id → pc'.inside i = pc.inside i := by
  have hother {i : SemId} (hi : i ≠ id) : ¬id = i := fun h => hi h.symm
  cases hk with
  | op value => exact ⟨rfl, by simp [Pc.inside, opOp, total], fun _ _ => rfl⟩
  | _ => exact ⟨rfl, by simp [Pc.inside]; try decide, fun i hi => by simp [Pc.inside, hother hi]⟩

theorem Performs.undo (hk : Performs p id pc ops k pc') : ∀ b ∈ ops, b.undo = true ∨ b.op = 0 := by
  cases hk with
  | op value => simp [opOp]
  | _ => decide

/-- The counter is changed by those who have counted the set, and the lock is taken when it is free. -/
theorem Performs.performed (hk : Performs p id pc ops k pc') (h : SharedOK s) (ht : ThreadOK s p pc)
    (hs : s.kernel.sets id = some set) (hval : semop set.val ops = .done val) :
    Performed s (k (s.perform p id set val ops)) p id set val ops ∧
      (total ops 1 ≠ 0 → Counted s id set) ∧ set.val 2 + total ops 2 ≤ 1 := by
  have hok := h.sets id set hs
  have hle := hok.lock_le
  cases hk with
  | lock =>
    have hfree : set.val 2 = 0 := (semop_cons hval).1 rfl
    exact ⟨performed_same (by decide), fun hc => absurd (by decide) hc, by rw [hfree]; decide⟩
  | created =>
    have hpos : 0 ≤ set.val 1 + -1 := (semop_cons hval).2.1
    have hc := counted_of_pos hok (by omega)
    have htotal : total opEndcreate 2 = -1 := by decide
    exact ⟨performed_nowCreated (performed_opened (by decide) hc) hc, fun _ => hc, by omega⟩
  | opened =>
    have hpos : 0 ≤ set.val 1 + -1 := (semop_cons hval).2.1
    have hc := counted_of_pos hok (by omega)
    have htotal : total opOpen 2 = 0 := by decide
    exact ⟨performed_opened (by decide) hc, fun _ => hc, by omega⟩
  | op value =>
    have h₁ : total (opOp value) 1 = 0 := by simp [opOp, total]
    have h₂ : total (opOp value) 2 = 0 := by simp [opOp, total]
    exact ⟨performed_same h₁, fun hc => absurd h₁ hc, by omega⟩
  | closed =>
    have hopen := ht.closing id rfl
    have hfree : set.val 2 = 0 := (semop_cons hval).1 rfl
    have hc : Counted s id set := by
      refine hok.counter.resolve_left fun hu => ?_
      have := hu.unopened p
      omega
    exact ⟨performed_closed (by decide) hopen, fun _ => hc, by rw [hfree]; decide⟩
  | unlock =>
    have htotal : total opUnlock 2 = -1 := by decide
    exact ⟨performed_same (by decide), fun hc => absurd (by decide) hc, by omega⟩

end Performs

theorem threadOK_removed {set : SemSet} (ht : ThreadOK s p (.closeRm id)) :
    ThreadOK { s with kernel := s.kernel.rmid id set } p .idle := by
  refine ⟨fun i set' hset => ?_, (fun _ _ _ hi => by cases hi), (fun _ hi => by cases hi),
    fun _ hi => by cases hi⟩
  have hi : i ≠ id := by
    rintro rfl
    simp at hset
  rw [Kernel.sets_rmid_of_ne _ _ _ hi] at hset
  rw [Kernel.adj_rmid_of_ne _ _ _ hi]
  have := ht.lock i set' hset
  simpa [Pc.inside, Ne.symm hi] using this

theorem threadOK_unset {set : SemSet} {initval : ℤ} (h : SharedOK s)
    (ht : ThreadOK s p (.createGetval initval id)) (hs : s.kernel.sets id = some set)
    (hz : set.val 1 = 0) (hfew : count s id < bigCount) : ThreadOK s p (.createSetval0 initval id) := by
  refine ht.goes (fun _ => rfl) (fun i set' hs' hi => ?_) fun _ hc => by cases hc
  obtain rfl : id = i := by simpa [initialising] using hi
  obtain rfl : set = set' := Option.some.inj (hs.symm.trans hs')
  refine (h.sets id set hs).counter.resolve_right fun hc => ?_
  rw [Counted, hz] at hc
  omega

theorem Turn.keeps {a : Act} (hturn : Turn s p pc a s' pc') (h : SharedOK s) (ht : ThreadOK s p pc)
    (hfew : ∀ id, count s id < bigCount) (hclose : ∀ id, a = .close id → 0 < s.opens p id) :
    Keeps s s' p pc' := by
  cases hturn with
  | left => exact keeps_left h hfew
  | quiet hin hplain =>
    obtain ⟨hinit, hop, -⟩ := plain_owes hplain
    exact keeps_quiet h ht hin hinit hop
  | closing id =>
    refine keeps_same h (ht.goes (fun _ => rfl) (fun _ _ _ hi => by cases hi) fun i hi => ?_)
    cases hi
    exact hclose id rfl
  | found key initval =>
    exact keeps_semget h ht key (fun _ => rfl) (fun _ => rfl) fun _ hc => by cases hc
  | unset initval hs hz => exact keeps_same h (threadOK_unset h ht hs hz (hfew _))
  | setval0 initval hs => exact (step_setval0 h hs initval).keeps h (threadOK_setval0 ht hs)
  | setval1 hs => exact keeps_setval1 h hs ht
  | lastLook hs hval =>
    exact keeps_quiet h ht (fun _ => rfl) (fun _ => rfl) fun _ hc => by cases hc
  | removed hs => exact (step_rmid h hs).keeps h (threadOK_removed ht)
  | performed hs hval hk =>
    obtain ⟨hp, hcounted, hle⟩ := hk.performed h ht hs hval
    obtain ⟨hplain, hself, hother⟩ := hk.target
    obtain ⟨hinit, hop, -⟩ := plain_owes hplain
    exact keeps_performed hp h ht hs hval hk.undo hcounted hle hself hother hinit hop

end Calls

/-- Fewer than `BIGCOUNT` opens at once, and a close only by a process that has the set open. -/
def Proper (w : Procs ι) (a : ι × Act) : Prop :=
  (∀ id, count w.shared id < bigCount) ∧ ∀ id, a.2 = .close id → 0 < w.shared.opens a.1 id

theorem initial_ok : Threadwise SharedOK ThreadOK (initial : Procs ι) := by
  refine ⟨⟨fun id set hs => ?_, fun id _ => ?_⟩, fun p => ⟨fun id set hs => ?_, ?_, ?_, ?_⟩⟩
  · cases hs
  · exact ⟨rfl, rfl, fun _ => ⟨rfl, fun _ => rfl⟩⟩
  · cases hs
  · intro id set hs
    cases hs
  · intro id hid
    cases hid
  · intro id hid
    cases hid

theorem step_ok {w w' : Procs ι} {a : ι × Act} (h : Threadwise SharedOK ThreadOK w)
    (hok : Proper w a) (hnext : w.next act a = some w') : Threadwise SharedOK ThreadOK w' := by
  have hkeeps : ∀ s' pc', act w.shared a.1 (w.thread a.1) a.2 = some (s', pc') →
      Keeps w.shared s' a.1 pc' :=
    fun s' pc' hact => (act_turn hact).keeps h.shared (h.thread a.1) hok.1 hok.2
  refine h.next hnext (fun s' pc' hact => ?_) fun s' pc' hact q hq => ?_
  · exact ⟨(hkeeps s' pc' hact).shared, (hkeeps s' pc' hact).own⟩
  · exact (hkeeps s' pc' hact).other q _ hq

theorem run_ok {ok : Procs ι → ι × Act → Prop} (hok : ∀ w a, ok w a → Proper w a)
    {w : Procs ι} (h : Run (World.next act) ok initial w) : Threadwise SharedOK ThreadOK w :=
  h.invariant initial_ok fun _ _ _ hI ha hnext => step_ok hI (hok _ _ ha) hnext

structure SetInvariant (w : Procs ι) (id : SemId) (set : SemSet) : Prop where
  counter : (set.val 1 = 0 ∧ (w.shared.marks id).counted = false ∧ count w.shared id = 0) ∨
    set.val 1 = bigCount - count w.shared id
  lock : (set.val 2 = 0 ∨ set.val 2 = 1) ∧
    (set.val 2 = 1 ↔ ∃! p, (w.thread p).inside id = true)
  initialised_once : (w.shared.marks id).created = true → ∀ p v, w.thread p ≠ .createSetval0 v id

theorem lock_iff_inside {w : Procs ι} (h : Threadwise SharedOK ThreadOK w) {id : SemId}
    {set : SemSet} (hs : w.shared.kernel.sets id = some set) :
    (set.val 2 = 0 ∨ set.val 2 = 1) ∧
      (set.val 2 = 1 ↔ ∃! p, (w.thread p).inside id = true) := by
  have hok := h.shared.sets id set hs
  by_cases hex : ∃ p, (w.thread p).inside id = true
  · obtain ⟨p, hp⟩ := hex
    have hmine : w.shared.kernel.adj p id 2 = -1 := by
      rw [(h.thread p).lock id set hs, hp]
      rfl
    have hone : set.val 2 = 1 := by
      have := hok.lock_without p
      have := hok.lock_le
      omega
    refine ⟨Or.inr hone, fun _ => ⟨p, hp, fun q hq => ?_⟩, fun _ => hone⟩
    refine hok.exclusive hmine ?_
    dsimp only at hq
    rw [(h.thread q).lock id set hs, hq]
    rfl
  · have hout : ∀ q, w.shared.kernel.adj q id 2 = 0 := by
      intro q
      rw [(h.thread q).lock id set hs, if_neg fun hq => hex ⟨q, hq⟩]
    have hzero : set.val 2 = 0 := by
      rw [hok.lock]
      simp [hout]
    refine ⟨Or.inl hzero, fun hone => ?_, fun ⟨p, hp, _⟩ => absurd ⟨p, hp⟩ hex⟩
    omega

/-- The counter, the lock and the initial value in every reachable state. -/
theorem counter_and_lock_invariant {w : Procs ι} (h : Run (World.next act) Proper initial w)
    (id : SemId) (set : SemSet) (hs : w.shared.kernel.sets id = some set) :
    SetInvariant w id set := by
  have hI := run_ok (fun _ _ ha => ha) h
  refine ⟨(hI.shared.sets id set hs).counter.imp (fun hu => ?_) fun hc => hc,
    lock_iff_inside hI hs, fun hcreated p v hp => ?_⟩
  · refine ⟨hu.zero, by rw [hu.unmarked]; rfl, ?_⟩
    simp [count, hu.unopened]
  · have hu := (hI.thread p).unset id set hs (by rw [hp]; simp [initialising])
    rw [hu.unmarked] at hcreated
    cases hcreated

theorem proper_of_unopened {w : Procs ι} {a : ι × Act} (ho : w.shared.opens = fun _ _ => 0)
    (ha : ∀ id, a.2 ≠ .close id) : Proper w a := by
  refine ⟨fun id => ?_, fun id h => absurd h (ha id)⟩
  have hzero : count w.shared id = 0 := by simp [count, ho]
  rw [hzero]
  decide

/-- `sem_create` of one process, up to its return. -/
theorem counter_and_lock_invariant_created : ∃ (w : Procs Unit) (set : SemSet),
    w.shared.kernel.sets 0 = some set ∧ set.val 1 = 9999 ∧ SetInvariant w 0 set := by
  have hstep : ∀ {w w' : Procs Unit} {a : Act}, w.shared.opens = (fun _ _ => 0) →
      (∀ id, a ≠ .close id) → Run (World.next act) Proper initial w →
      w.next act ((), a) = some w' → Run (World.next act) Proper initial w' :=
    fun ho ha h hnext => h.tail (proper_of_unopened ho ha) hnext
  have h₀ : Run (World.next act) Proper initial (initial : Procs Unit) := .refl _
  have h₁ := hstep (a := .create 5 1) rfl (by simp) h₀ rfl
  have h₂ := hstep (a := .go) rfl (by simp) h₁ rfl
  have h₃ := hstep (a := .go) rfl (by simp) h₂ rfl
  have h₄ := hstep (a := .go) rfl (by simp) h₃ rfl
  have h₅ := hstep (a := .go) rfl (by simp) h₄ rfl
  have h₆ := hstep (a := .go) rfl (by simp) h₅ rfl
  have h₇ := hstep (a := .go) rfl (by simp) h₆ rfl
  exact ⟨_, _, rfl, rfl, counter_and_lock_invariant h₇ 0 _ rfl⟩

section Removal

variable {s s' : Shared ι} {p : ι} {pc pc' : Pc} {a : Act}

/-- Everything a step can do to the shared state. -/
inductive Effect (s : Shared ι) (p : ι) (pc : Pc) (a : Act) : Shared ι → Prop
  | same : Effect s p pc a s
  | left : Effect s p pc a (s.leave p)
  | found (key : Key) : Effect s p pc a { s with kernel := (s.kernel.semget key).1 }
  | setval {id : SemId} {set : SemSet} (hs : s.kernel.sets id = some set) (m : ℕ) (v : ℤ) :
    Effect s p pc a { s with kernel := s.kernel.setval id set m v }
  | removed {id : SemId} {set : SemSet} (hs : s.kernel.sets id = some set) :
    Effect s p pc a { s with kernel := s.kernel.rmid id set }
  | performed {id : SemId} {set : SemSet} (hs : s.kernel.sets id = some set) (val : ℕ → ℤ)
    (ops : List Sembuf) : Effect s p pc a (s.perform p id set val ops)
  | opened {id : SemId} {set : SemSet} (hs : s.kernel.sets id = some set) (val : ℕ → ℤ)
    (ha : a = .go) (hpc : pc = .openOp id) :
    Effect s p pc a ((s.perform p id set val opOpen).opened p id)
  | created {id : SemId} {set : SemSet} (hs : s.kernel.sets id = some set) (val : ℕ → ℤ)
    (ha : a = .go) (hpc : pc = .createEnd id) :
    Effect s p pc a (((s.perform p id set val opEndcreate).opened p id).nowCreated id)
  | closed {id : SemId} {set : SemSet} (hs : s.kernel.sets id = some set) (val : ℕ → ℤ) :
    Effect s p pc a ((s.perform p id set val opClose).closed p id)

theorem act_effect (h : act s p pc a = some (s', pc')) : Effect s p pc a s' := by
  cases act_turn h with
  | left => exact .left
  | quiet | closing | unset | lastLook => exact .same
  | found key => exact .found key
  | setval0 _ hs => exact .setval hs _ _
  | setval1 hs => exact .setval hs _ _
  | removed hs => exact .removed hs
  | performed hs hval hk =>
    cases hk with
    | lock | op | unlock => exact .performed hs _ _
    | created => exact .created hs _ rfl rfl
    | opened => exact .opened hs _ rfl rfl
    | closed => exact .closed hs _

/-- Only the two operations that count an open add to anybody's opens. -/
theorem opens_grow (h : act s p pc a = some (s', pc')) (q : ι) (id : SemId) :
    s'.opens q id ≤ s.opens q id ∨ (a = .go ∧ (pc = .openOp id ∨ pc = .createEnd id)) := by
  have hopened : ∀ (t : Shared ι) i, i ≠ id → (t.opened p i).opens q id = t.opens q id := by
    intro t i hi
    by_cases hq : q = p
    · subst q
      simp [Shared.opened, Shared.mark, Shared.setOpens, update_of_ne (Ne.symm hi)]
    · simp [Shared.opened, Shared.mark, Shared.setOpens, update_of_ne hq]
  cases act_effect h with
  | same | found | setval | removed | performed => exact Or.inl (Nat.le_refl _)
  | left =>
    by_cases hq : q = p
    · subst q
      simp [Shared.leave]
    · simp [Shared.leave, update_of_ne hq]
  | @opened i set hs val ha hpc =>
    by_cases hi : i = id
    · exact Or.inr ⟨ha, Or.inl (hi ▸ hpc)⟩
    · exact Or.inl (Nat.le_of_eq (hopened _ i hi))
  | @created i set hs val ha hpc =>
    by_cases hi : i = id
    · exact Or.inr ⟨ha, Or.inr (hi ▸ hpc)⟩
    · exact Or.inl (Nat.le_of_eq (hopened _ i hi))
  | @closed i set hs val =>
    left
    by_cases hq : q = p
    · subst q
      by_cases hi : i = id
      · subst i
        simp [Shared.closed, Shared.setOpens, Shared.perform]
      · simp [Shared.closed, Shared.setOpens, Shared.perform, update_of_ne (Ne.symm hi)]
    · simp [Shared.closed, Shared.setOpens, Shared.perform, update_of_ne hq]

/-- A set with an old identifier that is there after the step was there before. -/
theorem sets_back (h : act s p pc a = some (s', pc')) {id : SemId} {set' : SemSet}
    (hid : id < s.kernel.fresh) (hs' : s'.kernel.sets id = some set') :
    ∃ set, s.kernel.sets id = some set := by
  have hupdate : ∀ {i : SemId} {set : SemSet} (x : SemSet), s.kernel.sets i = some set →
      Function.update s.kernel.sets i (some x) id = some set' →
      ∃ set, s.kernel.sets id = some set := by
    intro i set x hs hx
    by_cases hi : id = i
    · exact ⟨set, hi ▸ hs⟩
    · rw [update_of_ne hi] at hx
      exact ⟨set', hx⟩
  cases act_effect h with
  | same => exact ⟨set', hs'⟩
  | left =>
    obtain ⟨set, hs, -⟩ := Option.map_eq_some_iff.mp hs'
    exact ⟨set, hs⟩
  | found key =>
    cases hkey : s.kernel.byKey key with
    | some i =>
      simp only [Kernel.semget, hkey] at hs'
      exact ⟨set', hs'⟩
    | none =>
      simp only [Kernel.semget, hkey, update_of_ne (Nat.ne_of_lt hid)] at hs'
      exact ⟨set', hs'⟩
  | setval hs m v => exact hupdate _ hs hs'
  | @removed i set hs =>
    by_cases hi : id = i
    · exact ⟨set, hi ▸ hs⟩
    · rw [Kernel.sets_rmid_of_ne _ _ _ hi] at hs'
      exact ⟨set', hs'⟩
  | performed hs val ops => exact hupdate _ hs hs'
  | opened hs val ha hpc => exact hupdate _ hs hs'
  | created hs val ha hpc => exact hupdate _ hs hs'
  | closed hs val => exact hupdate _ hs hs'

theorem closeRm_entered {id : SemId} (h : act s p pc a = some (s', .closeRm id)) :
    s' = s ∧ ∃ set, s.kernel.sets id = some set ∧ set.val 1 = bigCount := by
  cases act_turn h with
  | quiet hin hplain => cases hplain
  | lastLook hs hval => exact ⟨rfl, _, hs, hval⟩
  | performed hs hval hk => cases hk

end Removal

/-- The next system call of `p` removes the set. -/
def Removes (w : Procs ι) (p : ι) (id : SemId) : Prop :=
  w.thread p = .closeRm id ∧ ∃ set, w.shared.kernel.sets id = some set

/-- The process has completed a `sem_create` or `sem_open` on the set that it has not closed. -/
def HasOpen (w : Procs ι) (q : ι) (id : SemId) : Prop := 0 < w.shared.opens q id

/-- No open is counted between the last look at the counter in `sem_close` and the removal. -/
def Careful (w : Procs ι) (a : ι × Act) : Prop :=
  Proper w a ∧ ∀ id, a.2 = .go → w.thread a.1 = .openOp id → ∀ q, w.thread q ≠ .closeRm id

def RemovesUnopened (w : Procs ι) : Prop := ∀ p id, Removes w p id → ∀ q, w.shared.opens q id = 0

theorem removesUnopened_step {w w' : Procs ι} {a : ι × Act}
    (hI : Threadwise SharedOK ThreadOK w) (h : RemovesUnopened w) (hok : Careful w a)
    (hnext : w.next act a = some w') : RemovesUnopened w' := by
  obtain ⟨r, b⟩ := a
  obtain ⟨s', pc', hact, rfl⟩ := next_eq_some.mp hnext
  rintro p id ⟨hpc, set', hs'⟩ q
  change s'.kernel.sets id = some set' at hs'
  change s'.opens q id = 0
  by_cases hp : p = r
  · -- the process has just read the counter
    subst p
    rw [thread_after_self] at hpc
    subst hpc
    obtain ⟨rfl, set, hs, hval⟩ := closeRm_entered hact
    have hc := counted_of_pos (hI.shared.sets id set hs) (by rw [hval]; decide)
    have := opens_le_count w.shared q id
    rw [Counted, hval] at hc
    omega
  · rw [thread_after_other hp] at hpc
    have hid := (hI.thread p).known id (by rw [hpc]; simp [Pc.inside])
    obtain ⟨set, hs⟩ := sets_back hact hid hs'
    have hzero := h p id ⟨hpc, set, hs⟩ q
    rcases opens_grow hact q id with hle | ⟨rfl, hpc' | hpc'⟩
    · omega
    · exact absurd hpc (hok.2 id rfl hpc' p)
    · -- the creating process and `p` would both hold the lock
      have hmine : w.shared.kernel.adj p id 2 = -1 := by
        rw [(hI.thread p).lock id set hs, hpc]
        simp [Pc.inside]
      have hyours : w.shared.kernel.adj r id 2 = -1 := by
        rw [(hI.thread r).lock id set hs, hpc']
        simp [Pc.inside]
      exact absurd ((hI.shared.sets id set hs).exclusive hyours hmine) hp

/-- As long as no open is counted between the last look at the counter and the removal,
`sem_close` removes no set that another process has open. -/
theorem close_removes_unopened_sets {w : Procs ι}
    (h : Run (World.next act) Careful initial w) {p : ι} {id : SemId} (hr : Removes w p id)
    (q : ι) : ¬ HasOpen w q id := by
  have hI : Threadwise SharedOK ThreadOK w ∧ RemovesUnopened w := by
    refine h.invariant (I := fun w => Threadwise SharedOK ThreadOK w ∧ RemovesUnopened w)
      ⟨initial_ok, ?_⟩ fun w a w' hI ha hnext => ?_
    · rintro p id ⟨-, set, hs⟩
      cases hs
    · exact ⟨step_ok hI.1 ha.1 hnext, removesUnopened_step hI.1 hI.2 ha hnext⟩
  exact Nat.not_lt.mpr (Nat.le_of_eq (hI.2 p id hr q))

/-- One process creates the set and closes it, alone. -/
theorem close_removes_unopened_sets_alone : ∃ w : Procs Bool,
    Removes w true 0 ∧ ∀ q, ¬ HasOpen w q 0 := by
  have hcareful : ∀ {w : Procs Bool} {a : Act}, (∀ q id, w.shared.opens q id ≤ 1) →
      (∀ id, a = .close id → 0 < w.shared.opens true id) →
      (∀ id, w.thread true ≠ .openOp id) → Careful w (true, a) := by
    intro w a ho ha hpc
    refine ⟨⟨fun id => ?_, ha⟩, fun id _ h => absurd h (hpc id)⟩
    have h₁ := ho true id
    have h₂ := ho false id
    simp only [count, Fintype.sum_bool, bigCount]
    omega
  have hstep : ∀ {w w' : Procs Bool} {a : Act}, Run (World.next act) Careful initial w →
      w.next act (true, a) = some w' → (∀ q id, w.shared.opens q id ≤ 1) →
      (∀ id, a = .close id → 0 < w.shared.opens true id) →
      (∀ id, w.thread true ≠ .openOp id) → Run (World.next act) Careful initial w' :=
    fun h hnext ho ha hpc => h.tail (hcareful ho ha hpc) hnext
  have hgo : ∀ {w w' : Procs Bool}, Run (World.next act) Careful initial w →
      w.next act (true, .go) = some w' → (∀ q id, w.shared.opens q id ≤ 1) →
      (∀ id, w.thread true ≠ .openOp id) → Run (World.next act) Careful initial w' :=
    fun h hnext ho hpc => hstep h hnext ho (by simp) hpc
  have h₁ := hstep (a := .create 5 1) (.refl _) rfl (fun _ _ => Nat.zero_le 1) (by simp)
    fun _ h => by cases h
  have h₂ := hgo h₁ rfl (fun _ _ => Nat.zero_le 1) fun _ h => by cases h
  have h₃ := hgo h₂ rfl (fun _ _ => Nat.zero_le 1) fun _ h => by cases h
  have h₄ := hgo h₃ rfl (fun _ _ => Nat.zero_le 1) fun _ h => by cases h
  have h₅ := hgo h₄ rfl (fun _ _ => Nat.zero_le 1) fun _ h => by cases h
  have h₆ := hgo h₅ rfl (fun _ _ => Nat.zero_le 1) fun _ h => by cases h
  have h₇ := hgo h₆ rfl (fun _ _ => Nat.zero_le 1) fun _ h => by cases h
  have hopen : ∀ (q : Bool) (id : SemId), Function.update (fun (_ : Bool) (_ : SemId) => 0) true
      (Function.update (fun _ => 0) 0 1) q id ≤ 1 := by
    intro q id
    cases q
    · exact Nat.zero_le 1
    · rcases id with _ | id
      · exact Nat.le_refl 1
      · exact Nat.zero_le 1
  have h₈ := hstep (a := .close 0) h₇ rfl hopen (fun id h => by cases h; exact Nat.zero_lt_one)
    fun _ h => by cases h
  have h₉ := hgo h₈ rfl hopen fun _ h => by cases h
  have hlast := hgo h₉ rfl (fun q id => ?_) fun _ h => by cases h
  · refine ⟨_, ?_, close_removes_unopened_sets (p := true) hlast ?_⟩ <;> exact ⟨rfl, _, rfl⟩
  · cases q
    · exact Nat.zero_le 1
    · rcases id with _ | id
      · exact Nat.zero_le 1
      · exact Nat.zero_le 1

/-- The counting of an open after the last look at the counter. -/
theorem close_removes_open_set : ∃ w : Procs Bool,
    Run (World.next act) anyStep initial w ∧ Removes w true 0 ∧ HasOpen w false 0 := by
  have h : Run (World.next act) anyStep (initial : Procs Bool) _ := follow_run
    [(true, .create 5 1), (true, .go), (true, .go), (true, .go), (true, .go), (true, .go),
      (true, .go), (true, .close 0), (true, .go), (true, .go),
      (false, .open 5), (false, .go), (false, .go)] rfl
  exact ⟨_, h, ⟨rfl, _, rfl⟩, Nat.zero_lt_one⟩

end SemaphoreRuns
