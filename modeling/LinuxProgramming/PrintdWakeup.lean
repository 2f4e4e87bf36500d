import LinuxProgramming.PrintdQueue

/-! # Waking the printer thread

`add_job` signals `jobwait` behind its section under `joblock` and `replace_job` does not
signal at all. A sleeping printer with work in its queue still has a signal coming. -/
namespace PrintdWakeup

open Interleaving DoublyLinked Volumes Printd PrintdQueue

/-! ## Interleaving at the calls of the lock and of the condition -/

/-- Right behind the call that took `joblock`. -/
def justTaken : Pc → Bool
  | .adding (.prev _) | .queueing (.prev _) _ => true
  | .jobnoTake _ | .test | .replacePrev _ => true
  | _ => false

/-- Inside a section under `joblock`, with some statement of it done. -/
def midSection (pc : Pc) : Bool := holds pc && !justTaken pc

inductive Action where
  | crash
  | restart (junk : List CStrings.Byte)
  | run (t : Tid) (answers : List Answer)
  deriving DecidableEq, Repr

/-- The statements of a section take effect with the unlock or the wait that ends it, so no
other thread runs between them. -/
def next (w : Daemon) : Action → Option Daemon
  | .crash => Printd.next w .crash
  | .restart junk => Printd.next w (.restart junk)
  | .run t answers =>
    (follow Printd.next w (answers.map (.run t))).bind fun w' =>
      if midSection (w'.thread t) then none else some w'

/-! ## Steps -/

def addLate : AddPc → Bool
  | .tail _ | .unlock | .signal => true
  | _ => false

def late (pc : Pc) : Bool := (addPc pc).any addLate

/-- A step of a thread other than the printer's signals, or it leaves the signal to come. -/
def Promises (s : Shared) (pc : Pc) (s' : Shared) (pc' : Pc) : Prop :=
  s'.jobwait = false ∨
    s'.jobwait = s.jobwait ∧ (late pc = true → late pc' = true) ∧
      (s'.links.head = s.links.head ∨ late pc' = true)

variable {s s' : Shared} {t : Tid} {pc pc' : Pc} {ans : Answer} {w w' : Daemon}

def wakeView (s : Shared) := (s.links.head, s.jobwait)

theorem Promises.of_view (h : wakeView s' = wakeView s) (hpc : late pc = false) :
    Promises s pc s' pc' := by
  obtain ⟨hhead, hwait⟩ := Prod.mk.inj h
  exact .inr ⟨hwait, by simp [hpc], .inl hhead⟩

theorem Promises.of_late (hwait : s'.jobwait = s.jobwait) (hpc' : late pc' = true) :
    Promises s pc s' pc' :=
  .inr ⟨hwait, fun _ => hpc', .inr hpc'⟩

theorem addJob_promises {a : AddPc} {a' : Option AddPc} (h : addJob s t ans a = some (s', a'))
    (hpc : addPc pc = some a) (hpc' : addPc pc' = a') : Promises s pc s' pc' := by
  have hlate : late pc = addLate a := by simp [late, hpc]
  cases a with
  | malloc req jobid =>
    simp only [addJob] at h
    split at h
    · split at h
      · cases h
      · cases h
        exact .of_view rfl hlate
    · cases h
  | lock jp =>
    obtain ⟨s₁, hs₁, h⟩ := Option.map_eq_some_iff.mp h
    obtain ⟨-, rfl⟩ := take_eq_some hs₁
    cases h
    exact .of_view rfl hlate
  | prev jp =>
    cases h
    exact .of_view rfl hlate
  | link jp =>
    simp only [addJob] at h
    split at h
    · cases h
      exact .of_late rfl (by simp [late, hpc', addLate])
    · cases h
      exact .of_late rfl (by simp [late, hpc', addLate])
  | tail jp =>
    cases h
    exact .of_late rfl (by simp [late, hpc', addLate])
  | unlock =>
    cases h
    exact .of_late rfl (by simp [late, hpc', addLate])
  | signal =>
    cases h
    exact .inl rfl

theorem unlink_wakeView {p : Printd.Path} (h : s.unlink p ans = some s') : wakeView s' = wakeView s := by
  cases ans with
  | ok => cases h; rfl
  | err e => cases h; rfl
  | _ => cases h

theorem buildQonstart_promises (h : buildQonstart s ans pc = some (s', pc')) :
    Promises s pc s' pc' := by
  cases pc with
  | readdir names => cases names <;> cases h <;> exact .of_view rfl rfl
  | openReq name names =>
    dsimp only [buildQonstart] at h
    split at h
    · obtain ⟨i, -, h⟩ := Option.map_eq_some_iff.mp h
      cases h
      exact .of_view rfl rfl
    · cases h
      exact .of_view rfl rfl
    · cases h
  | readReq name i names =>
    obtain ⟨nr, -, h⟩ := Option.map_eq_some_iff.mp h
    dsimp only at h
    split at h <;> cases h <;> exact .of_view rfl rfl
  | dropReq name names | dropData name names =>
    obtain ⟨s₁, hs₁, h⟩ := Option.map_eq_some_iff.mp h
    cases h
    exact .of_view (unlink_wakeView hs₁) rfl
  | queueing a names =>
    obtain ⟨⟨s₁, a'⟩, hs₁, h⟩ := Option.map_eq_some_iff.mp h
    cases h
    exact addJob_promises hs₁ rfl (by cases a' <;> rfl)
  | opendir =>
    dsimp only [buildQonstart] at h
    split at h <;> (try split at h) <;> cases h <;> exact .of_view rfl rfl
  | _ => cases h

theorem clientThread_promises {n : ℕ} (h : clientThread s n ans pc = some (s', pc')) :
    Promises s pc s' pc' := by
  cases pc with
  | jobnoLock req =>
    obtain ⟨s₁, hs₁, h⟩ := Option.map_eq_some_iff.mp h
    obtain ⟨-, rfl⟩ := take_eq_some hs₁
    cases h
    exact .of_view rfl rfl
  | jobnoWrap req jobid =>
    cases h
    split <;> exact .of_view rfl rfl
  | cleanup jobid paths =>
    cases paths with
    | nil =>
      cases h
      exact .of_view rfl rfl
    | cons p paths =>
      obtain ⟨s₁, hs₁, h⟩ := Option.map_eq_some_iff.mp h
      cases h
      exact .of_view (unlink_wakeView hs₁) rfl
  | adding a =>
    obtain ⟨⟨s₁, a'⟩, hs₁, h⟩ := Option.map_eq_some_iff.mp h
    cases h
    exact addJob_promises hs₁ rfl (by cases a' <;> rfl)
  | _ =>
    dsimp only [clientThread, getNewjobno] at h
    (try split at h) <;> (try split at h) <;> (try split at h) <;> cases h <;>
      exact .of_view rfl rfl

theorem printerThread_sleeps (h : printerThread s ans pc = some (s', .waiting)) :
    s'.jobwait = false ∨ s'.links.head = none := by
  cases pc with
  | test =>
    simp only [printerThread] at h
    split at h
    · cases h
      exact .inr ‹_›
    · cases h
  | waiting =>
    simp only [printerThread] at h
    split at h
    · cases h
      exact .inl rfl
    · obtain ⟨s₁, -, h⟩ := Option.map_eq_some_iff.mp h
      cases h
  | _ =>
    -- no other statement is followed by the wait
    simp only [printerThread, removeJob, replaceJob, updateJobno, orDefer] at h
    (try split at h) <;> simp at h

/-! ## Runs -/

def Blocked (w : Daemon) : Prop := w.thread .printer = .waiting ∧ w.shared.jobwait = true

/-- Whoever put work into the queue of a sleeping printer is about to signal. -/
def Awake (w : Daemon) : Prop :=
  Blocked w → w.shared.links.head ≠ none → ∃ t, t ≠ .printer ∧ late (w.thread t) = true

theorem act_promises (ht : t ≠ .printer) (h : act s t pc ans = some (s', pc')) :
    Promises s pc s' pc' := by
  cases t with
  | main => exact buildQonstart_promises h
  | printer => exact absurd rfl ht
  | client n => exact clientThread_promises h

theorem Awake.printer (h : act w.shared .printer (w.thread .printer) ans = some (s', pc')) :
    Awake (after w .printer s' pc') := by
  rintro ⟨hwaiting, hwait⟩ hhead
  rw [thread_after_self] at hwaiting
  subst hwaiting
  rcases printerThread_sleeps h with hfalse | hnone
  · exact absurd (hwait.symm.trans hfalse) (by simp)
  · exact absurd hnone hhead

theorem Awake.other (hw : Awake w) (ht : t ≠ .printer)
    (h : act w.shared t (w.thread t) ans = some (s', pc')) : Awake (after w t s' pc') := by
  rintro ⟨hwaiting, hwait⟩ hhead
  rw [thread_after_other (Ne.symm ht)] at hwaiting
  rcases act_promises ht h with hfalse | ⟨hsame, hkeep, hlate⟩
  · exact absurd (hwait.symm.trans hfalse) (by simp)
  · rcases hlate with hlate | hlate
    · obtain ⟨u, hu, hul⟩ := hw ⟨hwaiting, hsame.symm.trans hwait⟩ (hlate ▸ hhead)
      refine ⟨u, hu, ?_⟩
      obtain ⟨rfl, he⟩ | ⟨-, he⟩ := after_cases w t s' pc' u
      · rw [he]
        exact hkeep hul
      · rw [he]
        exact hul
    · exact ⟨t, ht, by rw [thread_after_self]; exact hlate⟩

theorem Awake.next {a : Printd.Action} (hw : Awake w) (h : Printd.next w a = some w') : Awake w' := by
  cases a with
  | crash =>
    cases h
    rintro ⟨hwaiting, -⟩
    cases hwaiting
  | restart junk =>
    simp only [Printd.next] at h
    split at h
    · cases h
      rintro ⟨hwaiting, -⟩
      cases hwaiting
    · cases h
  | run t ans =>
    obtain ⟨s', pc', hact, rfl⟩ := next_eq_some.mp h
    by_cases ht : t = .printer
    · subst ht
      exact .printer hact
    · exact hw.other ht hact

theorem awake_run {spool : Volume Printd.Path} {jobno : List CStrings.Byte}
    (h : Run Printd.next anyStep (initial spool jobno) w) : Awake w := by
  refine h.invariant (I := Awake) ?_ fun _ _ _ hw _ => hw.next
  rintro ⟨hwaiting, -⟩
  cases hwaiting

theorem follow_thread_other {answers : List Answer} {u : Tid} (hu : u ≠ t)
    (h : follow Printd.next w (answers.map (.run t)) = some w') : w'.thread u = w.thread u := by
  induction answers generalizing w with
  | nil =>
    cases h
    rfl
  | cons ans answers ih =>
    obtain ⟨w₁, hw₁, h⟩ := Option.bind_eq_some_iff.mp h
    obtain ⟨s', pc', -, rfl⟩ := next_eq_some.mp hw₁
    rw [ih h, thread_after_other hu]

theorem run_statements {w₀ : Daemon} (h : Run next anyStep w₀ w) : Run Printd.next anyStep w₀ w := by
  induction h with
  | refl => exact .refl _
  | @tail w w' a _ _ hnext ih =>
    cases a with
    | crash => exact ih.tail (a := .crash) trivial hnext
    | restart junk => exact ih.tail (a := .restart junk) trivial hnext
    | run t answers =>
      obtain ⟨w₁, hw₁, h⟩ := Option.bind_eq_some_iff.mp hnext
      split at h
      · cases h
      · cases h
        exact ih.trans (follow_run _ hw₁)

theorem not_midSection {spool : Volume Printd.Path} {jobno : List CStrings.Byte}
    (h : Run next anyStep (initial spool jobno) w) (u : Tid) : midSection (w.thread u) = false := by
  induction h with
  | refl => rfl
  | @tail w w' a _ _ hnext ih =>
    cases a with
    | crash =>
      cases hnext
      rfl
    | restart junk =>
      simp only [next, Printd.next] at hnext
      split at hnext
      · cases hnext
        cases u <;> rfl
      · cases hnext
    | run t answers =>
      obtain ⟨w₁, hw₁, h⟩ := Option.bind_eq_some_iff.mp hnext
      split at h
      · cases h
      · rename_i hmid
        cases h
        by_cases hu : u = t
        · subst hu
          exact Bool.eq_false_iff.mpr hmid
        · rw [follow_thread_other hu hw₁]
          exact ih

theorem late_cases (h : late pc = true) : midSection pc = true ∨ addPc pc = some .signal := by
  cases pc with
  | adding a | queueing a names =>
    cases a with
    | tail jp | unlock => exact .inl rfl
    | signal => exact .inr rfl
    | _ => cases h
  | _ => cases h

/-- While the printer sleeps over a queue that is not empty, some thread has added a job and
stands between its unlock and its signal. -/
theorem no_lost_wakeup (spool : Volume Printd.Path) (jobno : List CStrings.Byte) (w : Daemon)
    (h : Run next anyStep (initial spool jobno) w) (hblocked : Blocked w)
    (hhead : w.shared.links.head ≠ none) : ∃ t, t ≠ .printer ∧ addPc (w.thread t) = some .signal := by
  obtain ⟨t, ht, hlate⟩ := awake_run (run_statements h) hblocked hhead
  rcases late_cases hlate with hmid | hsignal
  · rw [not_midSection h t] at hmid
    cases hmid
  · exact ⟨t, ht, hsignal⟩

set_option maxRecDepth 4000 in
/-- The printer sleeps while the main thread queues a job of the spool directory. -/
theorem no_lost_wakeup_started : ∃ w : Daemon, Blocked w ∧ w.shared.links.head = some 7 ∧
    ∃ t, t ≠ .printer ∧ addPc (w.thread t) = some .signal := by
  have h : Run next anyStep
      (initial ⟨[((.reqs, [49]), 0)], fun _ => List.replicate sizeofPrintreq 0, 1⟩ []) _ := follow_run
    [.restart [], .run .printer [.ok, .ok],
      .run .main [.names [[49]], .ok, .ok, .ok, .addr 7, .ok],
      .run .main [.ok, .ok, .ok, .ok]] rfl
  exact ⟨_, ⟨rfl, rfl⟩, rfl, no_lost_wakeup _ _ _ h ⟨rfl, rfl⟩ (Option.some_ne_none 7)⟩

end PrintdWakeup
