import LinuxProgramming.Printd

/-! # The queue of print jobs

The queue is described by the list of its nodes. While a thread is inside a section under
`joblock` the two chains may disagree, in a way that its control point tells. -/
namespace PrintdQueue

open CStrings Interleaving DoublyLinked Volumes Printd Function

/-! ## What the log says -/

def pending : List QueueEvent → List (Addr × Job) :=
  List.foldl (fun l e => match e with
    | .added jp job => l ++ [(jp, job)]
    | .freed jp => l.filter fun x => x.1 ≠ jp
    | _ => l) []

inductive Cause (jp : Addr) : QueueEvent → Prop
  | succeeded : Cause jp (.succeeded jp)
  | unopened : Cause jp (.unopened jp)
  | unstated : Cause jp (.unstated jp)

/-- The node has had its job done or given up since it was last added. -/
def Settled (log : List QueueEvent) (jp : Addr) : Prop :=
  ∃ l₁ e l₂, log = l₁ ++ e :: l₂ ∧ Cause jp e ∧ .freed jp ∉ l₂ ∧ ∀ job, .added jp job ∉ l₂

def FreedForCause (log : List QueueEvent) : Prop :=
  ∀ l₁ jp l₂, log = l₁ ++ .freed jp :: l₂ → Settled l₁ jp

theorem pending_added (log : List QueueEvent) (jp : Addr) (job : Job) :
    pending (log ++ [.added jp job]) = pending log ++ [(jp, job)] := by
  simp [pending]

theorem pending_freed (log : List QueueEvent) (jp : Addr) :
    pending (log ++ [.freed jp]) = (pending log).filter fun x => x.1 ≠ jp := by
  simp [pending]

theorem pending_cause {jp : Addr} {e : QueueEvent} (log : List QueueEvent) (h : Cause jp e) :
    pending (log ++ [e]) = pending log := by
  cases h <;> simp [pending]

theorem settled_of_cause {jp : Addr} {e : QueueEvent} (log : List QueueEvent) (h : Cause jp e) :
    Settled (log ++ [e]) jp :=
  ⟨log, e, [], rfl, h, by simp, by simp⟩

theorem settled_append {jp : Addr} {e : QueueEvent} {log : List QueueEvent} (h : Settled log jp)
    (hfreed : e ≠ .freed jp) (hadded : ∀ job, e ≠ .added jp job) : Settled (log ++ [e]) jp := by
  obtain ⟨l₁, c, l₂, rfl, hc, hf, ha⟩ := h
  refine ⟨l₁, c, l₂ ++ [e], by simp, hc, ?_, fun job => ?_⟩
  · simp [hf, Ne.symm hfreed]
  · simp [ha, Ne.symm (hadded job)]

theorem freedForCause_append {e : QueueEvent} {log : List QueueEvent} (h : FreedForCause log)
    (hfreed : ∀ jp, e = .freed jp → Settled log jp) : FreedForCause (log ++ [e]) := by
  intro l₁ jp l₂ hl
  rcases List.eq_nil_or_concat l₂ with rfl | ⟨l₂, e', rfl⟩
  · obtain ⟨rfl, he⟩ := List.append_inj' hl rfl
    exact hfreed jp (by simpa using he)
  · rw [List.concat_eq_append, ← List.cons_append, ← List.append_assoc] at hl
    obtain ⟨rfl, -⟩ := List.append_inj' hl rfl
    exact h l₁ jp l₂ rfl

/-! ## Where a thread is -/

def addPc : Pc → Option AddPc
  | .adding a | .queueing a _ => some a
  | _ => none

def addNode : AddPc → Option Addr
  | .lock jp | .prev jp | .link jp | .tail jp => some jp
  | _ => none

def addHolds : AddPc → Bool
  | .prev _ | .link _ | .tail _ | .unlock => true
  | _ => false

def node (pc : Pc) : Option Addr := (addPc pc).bind addNode

/-- Inside a section under `joblock`. -/
def holds : Pc → Bool
  | .adding a | .queueing a _ => addHolds a
  | .jobnoTake _ | .jobnoWrap _ _ | .jobnoUnlock _ _ | .test | .removeNext _ | .removePrev _
  | .pickedUnlock _ | .replacePrev _ | .replaceNext _ | .replaceLink _ | .replaceHead _
  | .replaceUnlock => true
  | _ => false

def serviceOf : Pc → Option Addr
  | .removeNext jp | .removePrev jp | .pickedUnlock jp | .updateSprintf jp | .updateWrite jp _
  | .openData jp | .fstatData jp | .socket jp | .connect jp | .sendHeaders jp | .sendFile jp
  | .printerStatus jp | .unlinkData jp | .unlinkReq jp | .free jp | .replaceLock jp
  | .replacePrev jp | .replaceNext jp | .replaceLink jp | .replaceHead jp => some jp
  | _ => none

def settling : Pc → Option Addr
  | .unlinkData jp | .unlinkReq jp | .free jp => some jp
  | _ => none

def service (w : Daemon) : List Addr := (serviceOf (w.thread .printer)).toList

/-- The chains of `add_job` before its next statement. -/
def AddShape (L : Links Addr) (xs : List Addr) : AddPc → Prop
  | .link jp => L.Holds xs ∧ L.prev jp = L.tail
  | .tail jp => Chain L.next L.head (xs ++ [jp]) ∧ Chain L.prev L.tail xs.reverse ∧
      L.prev jp = L.tail
  | _ => L.Holds xs

def Shape (L : Links Addr) (xs : List Addr) : Pc → Prop
  | .adding a | .queueing a _ => AddShape L xs a
  | .removeNext jp => L.Holds (jp :: xs)
  | .removePrev jp => Chain L.next L.head (jp :: xs) ∧ Chain L.prev L.tail xs.reverse ∧
      L.prev jp = none
  | .replaceNext jp => L.Holds xs ∧ L.prev jp = none
  | .replaceLink jp => L.Holds xs ∧ L.prev jp = none ∧ L.next jp = L.head
  | .replaceHead jp => Chain L.next L.head xs ∧ Chain L.prev L.tail (jp :: xs).reverse ∧
      L.next jp = L.head
  | _ => L.Holds xs

/-! ## What a step does to the queue -/

/-- The queue, its lock and its log are left alone. -/
structure Same (s s' : Shared) : Prop where
  links : s'.links = s.links
  live : s'.live = s.live
  jobs : s'.jobs = s.jobs
  lock : s'.lock = s.lock
  log : s'.log = s.log

/-- Two control points that are the same to the queue. -/
structure Like (pc pc' : Pc) : Prop where
  holds : holds pc' = holds pc
  node : node pc' = node pc
  service : serviceOf pc' = serviceOf pc
  settling : settling pc' = settling pc
  shape : ∀ L xs, Shape L xs pc' = Shape L xs pc

def queueView (s : Shared) := (s.links, s.live, s.jobs, s.lock, s.log)

def pcView (pc : Pc) := (holds pc, node pc, serviceOf pc, settling pc, fun L xs => Shape L xs pc)

theorem Same.of_view {s s' : Shared} (h : queueView s' = queueView s) : Same s s' where
  links := congrArg (fun v => v.1) h
  live := congrArg (fun v => v.2.1) h
  jobs := congrArg (fun v => v.2.2.1) h
  lock := congrArg (fun v => v.2.2.2.1) h
  log := congrArg (fun v => v.2.2.2.2) h

theorem Like.of_view {pc pc' : Pc} (h : pcView pc' = pcView pc) : Like pc pc' where
  holds := congrArg (fun v => v.1) h
  node := congrArg (fun v => v.2.1) h
  service := congrArg (fun v => v.2.2.1) h
  settling := congrArg (fun v => v.2.2.2.1) h
  shape L xs := congrArg (fun v => v.2.2.2.2 L xs) h

inductive Effect (s : Shared) : Tid → Pc → Shared → Pc → Prop
  | quiet {t pc s' pc'} : Same s s' → Like pc pc' → Effect s t pc s' pc'
  | acquire {t pc s' pc'} : s.take t = some s' → holds pc' = true → node pc' = node pc →
      serviceOf pc' = serviceOf pc → settling pc' = none →
      (∀ xs, s.links.Holds xs → Shape s.links xs pc') → Effect s t pc s' pc'
  | release {t pc s' pc' wait} : holds pc = true → holds pc' = false → node pc' = node pc →
      serviceOf pc' = serviceOf pc → settling pc' = none →
      (∀ xs, Shape s.links xs pc → s.links.Holds xs) → s' = { s.release with jobwait := wait } →
      Effect s t pc s' pc'
  | malloc {t pc s' pc' ans req jobid jp} : addPc pc = some (.malloc req jobid) →
      addPc pc' = some (.lock jp) → addJob s t ans (.malloc req jobid) = some (s', some (.lock jp)) →
      Effect s t pc s' pc'
  | add {t pc s' pc' ans a a'} : addPc pc = some a → addPc pc' = some a' → addHolds a = true →
      addHolds a' = true → addJob s t ans a = some (s', some a') → Effect s t pc s' pc'
  | pick {jp} : s.links.head = some jp → Effect s .printer .test s (.removeNext jp)
  | remove {pc s' pc'} : removeJob s pc = some (s', pc') → Effect s .printer pc s' pc'
  | replace {pc s' pc'} : replaceJob s pc = some (s', pc') → holds pc = true → holds pc' = true →
      Effect s .printer pc s' pc'
  | settle {pc pc' jp e history} : Cause jp e → serviceOf pc = some jp → serviceOf pc' = some jp →
      holds pc = false → holds pc' = false → node pc' = node pc → settling pc' = some jp →
      Effect s .printer pc ({ s with history := history }.logged e) pc'
  | free {jp} : Effect s .printer (.free jp)
      ({ s with live := Function.update s.live jp false }.logged (.freed jp)) .printerLock

variable {s s' : Shared} {t : Tid} {pc pc' : Pc} {ans : Answer} {p : Path}

theorem unlink_same (h : s.unlink p ans = some s') : Same s s' := by
  cases ans with
  | ok => cases h; exact .of_view rfl
  | err e => cases h; exact .of_view rfl
  | _ => cases h

/-- The control points of `add_job` as those of the thread that calls it. -/
theorem of_addPc {a : AddPc} (h : addPc pc = some a) : holds pc = addHolds a ∧
    node pc = addNode a ∧ serviceOf pc = none ∧ settling pc = none ∧
    ∀ L xs, Shape L xs pc = AddShape L xs a := by
  cases pc with
  | adding b => cases h; exact ⟨rfl, rfl, rfl, rfl, fun _ _ => rfl⟩
  | queueing b l => cases h; exact ⟨rfl, rfl, rfl, rfl, fun _ _ => rfl⟩
  | _ => cases h

theorem take_eq_some (h : s.take t = some s') : s.lock = none ∧ s' = { s with lock := some t } := by
  unfold Shared.take at h
  split at h
  · cases h
    exact ⟨‹_›, rfl⟩
  · cases h

theorem addJob_effect {a : AddPc} {a' : Option AddPc} (h : addJob s t ans a = some (s', a'))
    (hpc : addPc pc = some a) (hpc' : addPc pc' = a') (hend : a' = none → Like .exited pc') :
    Effect s t pc s' pc' := by
  obtain ⟨hholds, hnode, hserv, hsett, hshape⟩ := of_addPc hpc
  cases a with
  | malloc req jobid =>
    have h₀ := h
    simp only [addJob] at h
    split at h
    · split at h
      · cases h
      · cases h
        exact .malloc hpc hpc' h₀
    · cases h
  | lock jp =>
    obtain ⟨s₁, hs₁, h⟩ := Option.map_eq_some_iff.mp h
    cases h
    obtain ⟨hholds', hnode', hserv', hsett', hshape'⟩ := of_addPc hpc'
    refine .acquire hs₁ hholds' ?_ ?_ hsett' fun xs hxs => ?_
    · rw [hnode', hnode]
      rfl
    · rw [hserv', hserv]
    · rw [hshape']
      exact hxs
  | prev jp =>
    have h₀ := h
    cases h
    exact .add hpc hpc' rfl rfl h₀
  | link jp =>
    have h₀ := h
    simp only [addJob] at h
    split at h
    · cases h
      exact .add hpc hpc' rfl rfl h₀
    · cases h
      exact .add hpc hpc' rfl rfl h₀
  | tail jp =>
    have h₀ := h
    cases h
    exact .add hpc hpc' rfl rfl h₀
  | unlock =>
    cases h
    obtain ⟨hholds', hnode', hserv', hsett', -⟩ := of_addPc hpc'
    refine .release hholds hholds' ?_ ?_ hsett' (fun xs hxs => ?_) rfl
    · rw [hnode', hnode]
      rfl
    · rw [hserv', hserv]
    · rwa [hshape] at hxs
  | signal =>
    cases h
    obtain ⟨hholds', hnode', hserv', hsett', hshape'⟩ := hend rfl
    refine .quiet (.of_view rfl) ⟨?_, ?_, ?_, ?_, fun L xs => ?_⟩
    · rw [hholds', hholds]
      rfl
    · rw [hnode', hnode]
      rfl
    · rw [hserv', hserv]
      rfl
    · rw [hsett', hsett]
      rfl
    · rw [hshape, hshape']
      rfl

theorem buildQonstart_effect (h : buildQonstart s ans pc = some (s', pc')) :
    Effect s .main pc s' pc' := by
  cases pc with
  | readdir names =>
    cases names <;> cases h <;>
      exact .quiet (.of_view rfl) (.of_view rfl)
  | openReq name names =>
    dsimp only [buildQonstart] at h
    split at h
    · obtain ⟨i, -, h⟩ := Option.map_eq_some_iff.mp h
      cases h
      exact .quiet (.of_view rfl) (.of_view rfl)
    · cases h
      exact .quiet (.of_view rfl) (.of_view rfl)
    · cases h
  | readReq name i names =>
    obtain ⟨nr, -, h⟩ := Option.map_eq_some_iff.mp h
    dsimp only at h
    split at h <;> cases h <;>
      exact .quiet (.of_view rfl) (.of_view rfl)
  | dropReq name names =>
    obtain ⟨s₁, hs₁, h⟩ := Option.map_eq_some_iff.mp h
    cases h
    exact .quiet (unlink_same hs₁) (.of_view rfl)
  | dropData name names =>
    obtain ⟨s₁, hs₁, h⟩ := Option.map_eq_some_iff.mp h
    cases h
    exact .quiet (unlink_same hs₁) (.of_view rfl)
  | queueing a names =>
    obtain ⟨⟨s₁, a'⟩, hs₁, h⟩ := Option.map_eq_some_iff.mp h
    cases h
    refine addJob_effect hs₁ rfl ?_ ?_
    · cases a' <;> rfl
    · rintro rfl
      exact .of_view rfl
  | opendir =>
    dsimp only [buildQonstart] at h
    split at h <;> (try split at h) <;> cases h <;>
      exact .quiet (.of_view rfl) (.of_view rfl)
  | _ => cases h

theorem clientThread_effect {n : ℕ} (h : clientThread s n ans pc = some (s', pc')) :
    Effect s (.client n) pc s' pc' := by
  cases pc with
  | jobnoLock req =>
    obtain ⟨s₁, hs₁, h⟩ := Option.map_eq_some_iff.mp h
    cases h
    exact .acquire hs₁ rfl rfl rfl rfl fun _ h => h
  | jobnoWrap req jobid =>
    cases h
    split <;> exact .quiet (.of_view rfl) (.of_view rfl)
  | jobnoUnlock req jobid =>
    cases h
    exact .release rfl rfl rfl rfl rfl (fun _ h => h) rfl
  | cleanup jobid paths =>
    cases paths with
    | nil =>
      cases h
      exact .quiet (.of_view rfl) (.of_view rfl)
    | cons p paths =>
      obtain ⟨s₁, hs₁, h⟩ := Option.map_eq_some_iff.mp h
      cases h
      exact .quiet (unlink_same hs₁) (.of_view rfl)
  | adding a =>
    obtain ⟨⟨s₁, a'⟩, hs₁, h⟩ := Option.map_eq_some_iff.mp h
    cases h
    refine addJob_effect hs₁ rfl ?_ ?_
    · cases a' <;> rfl
    · rintro rfl
      exact .of_view rfl
  | _ =>
    dsimp only [clientThread, getNewjobno] at h
    (try split at h) <;> (try split at h) <;> (try split at h) <;> cases h <;>
      exact .quiet (.of_view rfl) (.of_view rfl)

theorem orDefer_quiet {jp : Addr} {pc₁ : Pc} (h : orDefer s jp pc₁ ans = some (s', pc'))
    (hok : Like pc pc₁) (herr : Like pc (.replaceLock jp)) : Effect s t pc s' pc' := by
  cases ans with
  | ok => cases h; exact .quiet (.of_view rfl) hok
  | err e => cases h; exact .quiet (.of_view rfl) herr
  | _ => cases h

theorem printerThread_effect (h : printerThread s ans pc = some (s', pc')) :
    Effect s .printer pc s' pc' := by
  cases pc with
  | printerLock =>
    obtain ⟨s₁, hs₁, h⟩ := Option.map_eq_some_iff.mp h
    cases h
    exact .acquire hs₁ rfl rfl rfl rfl fun _ h => h
  | test =>
    dsimp only [printerThread] at h
    split at h
    · cases h
      exact .release rfl rfl rfl rfl rfl (fun _ h => h) rfl
    · cases h
      exact .pick ‹_›
  | waiting =>
    dsimp only [printerThread] at h
    split at h
    · cases h
      exact .quiet (.of_view rfl) (.of_view rfl)
    · obtain ⟨s₁, hs₁, h⟩ := Option.map_eq_some_iff.mp h
      cases h
      exact .acquire hs₁ rfl rfl rfl rfl fun _ h => h
  | pickedUnlock jp =>
    cases h
    exact .release rfl rfl rfl rfl rfl (fun _ h => h) rfl
  | openData jp =>
    dsimp only [printerThread] at h
    split at h
    · obtain ⟨i, -, h⟩ := Option.map_eq_some_iff.mp h
      cases h
      exact .quiet (.of_view rfl) (.of_view rfl)
    · cases h
      exact .settle .unopened rfl rfl rfl rfl rfl rfl
    · cases h
  | fstatData jp =>
    dsimp only [printerThread] at h
    split at h
    · cases h
      exact .quiet (.of_view rfl) (.of_view rfl)
    · cases h
      exact .settle .unstated rfl rfl rfl rfl rfl rfl
    · cases h
  | socket jp | connect jp | sendHeaders jp | sendFile jp =>
    exact orDefer_quiet h (.of_view rfl) (.of_view rfl)
  | printerStatus jp =>
    dsimp only [printerThread] at h
    split at h
    · cases h
      exact .settle .succeeded rfl rfl rfl rfl rfl rfl
    · cases h
      exact .quiet (.of_view rfl) (.of_view rfl)
    · cases h
  | unlinkData jp | unlinkReq jp =>
    obtain ⟨s₁, hs₁, h⟩ := Option.map_eq_some_iff.mp h
    cases h
    exact .quiet (unlink_same hs₁) (.of_view rfl)
  | free jp =>
    cases h
    exact .free
  | removeNext jp | removePrev jp =>
    refine .remove ?_
    simpa [printerThread, replaceJob, updateJobno] using h
  | updateSprintf jp =>
    cases h
    exact .quiet (.of_view rfl) (.of_view rfl)
  | updateWrite jp buf =>
    cases ans with
    | ok | count k =>
      cases h
      exact .quiet (.of_view rfl) (.of_view rfl)
    | _ => cases h
  | replaceLock jp =>
    have h : (s.take .printer).map (fun s => (s, Pc.replacePrev jp)) = some (s', pc') := by
      simpa [printerThread, replaceJob, removeJob, updateJobno] using h
    obtain ⟨s₁, hs₁, h⟩ := Option.map_eq_some_iff.mp h
    cases h
    exact .acquire hs₁ rfl rfl rfl rfl fun _ h => h
  | replacePrev jp | replaceNext jp | replaceHead jp =>
    cases h
    exact .replace rfl rfl rfl
  | replaceLink jp =>
    have h : replaceJob s (.replaceLink jp) = some (s', pc') := by
      simpa [printerThread, removeJob, updateJobno] using h
    refine .replace h rfl ?_
    dsimp only [replaceJob] at h
    split at h <;> cases h <;> rfl
  | replaceUnlock =>
    cases h
    exact .release rfl rfl rfl rfl rfl (fun _ h => h) rfl
  | _ => cases h

theorem act_effect (h : act s t pc ans = some (s', pc')) : Effect s t pc s' pc' := by
  cases t with
  | main => exact buildQonstart_effect h
  | printer => exact printerThread_effect h
  | client n => exact clientThread_effect h

/-! ## The statements on the links -/

section Links

variable {L : Links Addr} {xs : List Addr} {jp a : Addr}

theorem eq_nil_of_head (h : Chain L.next L.head xs) (hnone : L.head = none) : xs = [] := by
  have := chain_head h
  rw [hnone] at this
  exact List.head?_eq_none_iff.mp this.symm

theorem eq_cons_of_head (h : Chain L.next L.head xs) (hsome : L.head = some a) :
    ∃ l, xs = a :: l := by
  have := chain_head h
  rw [hsome] at this
  exact List.head?_eq_some_iff.mp this.symm

theorem eq_nil_of_tail (h : Chain L.prev L.tail xs.reverse) (hnone : L.tail = none) : xs = [] := by
  have := chain_head h
  rw [hnone] at this
  exact List.reverse_eq_nil_iff.mp (List.head?_eq_none_iff.mp this.symm)

theorem eq_concat_of_tail (h : Chain L.prev L.tail xs.reverse) (hsome : L.tail = some a) :
    ∃ l, xs = l ++ [a] := by
  have := chain_head h
  rw [hsome] at this
  obtain ⟨l, hl⟩ := List.head?_eq_some_iff.mp this.symm
  exact ⟨l.reverse, by rw [← List.reverse_cons, ← hl, List.reverse_reverse]⟩

theorem holds_update_prev (h : L.Holds xs) (hjp : jp ∉ xs) (v : Option Addr) :
    { L with prev := Function.update L.prev jp v }.Holds xs :=
  ⟨h.forward, path_update h.backward (by simpa using hjp) v⟩

theorem holds_update_next (h : L.Holds xs) (hjp : jp ∉ xs) (v : Option Addr) :
    { L with next := Function.update L.next jp v }.Holds xs :=
  ⟨path_update h.forward hjp v, h.backward⟩

/-- `jp->next->prev = jp->prev` for the first node. -/
theorem chain_first_out (h : L.Holds (jp :: a :: xs)) :
    Chain (Function.update L.prev a (L.prev jp)) L.tail (a :: xs).reverse ∧
      Function.update L.prev a (L.prev jp) jp = none := by
  have hback : Chain L.prev L.tail (xs.reverse ++ [a] ++ [jp]) := by simpa using h.backward
  have hne : jp ≠ a := by
    have := chain_nodup h.forward
    rintro rfl
    simp at this
  constructor
  · simpa using chain_unlink hback
  · rw [update_of_ne hne]
    exact chain_last hback

/-- `jobhead->prev = jp` for a node that leads nowhere. -/
theorem chain_first_in (h : L.Holds (a :: xs)) (hjp : jp ∉ a :: xs) (hprev : L.prev jp = none) :
    Chain (Function.update L.prev a (some jp)) L.tail (jp :: a :: xs).reverse := by
  have hback : Chain L.prev L.tail (xs.reverse ++ [a]) := by simpa using h.backward
  simpa using chain_snoc hback hprev (by simpa [and_comm] using hjp)

end Links

/-! ## The invariant -/

structure QueueOK (w : Daemon) (xs : List Addr) : Prop where
  holder : ∀ t, holds (w.thread t) = true ↔ w.shared.lock = some t
  role : ∀ t, t ≠ .printer → serviceOf (w.thread t) = none
  free : w.shared.lock = none → w.shared.links.Holds xs
  shape : ∀ t, w.shared.lock = some t → Shape w.shared.links xs (w.thread t)
  nodup : (service w ++ xs).Nodup
  live : ∀ a ∈ service w ++ xs, w.shared.live a = true
  own : ∀ t a, node (w.thread t) = some a →
    w.shared.live a = true ∧ a ∉ service w ++ xs ∧ w.shared.links.next a = none
  single : ∀ t u a, node (w.thread t) = some a → node (w.thread u) = some a → t = u
  jobs : pending w.shared.log = (service w ++ xs).map fun a => (a, w.shared.jobs a)

section Steps

variable {w : Daemon} {xs xs' : List Addr}

theorem service_after (h : serviceOf pc' = serviceOf (w.thread t)) :
    service (after w t s' pc') = service w := by
  by_cases ht : t = .printer
  · subst ht
    simp [service, thread_after_self, h]
  · rw [service, thread_after_other (Ne.symm ht)]
    rfl

/-- The facts about the acting thread and about the others, put together. -/
theorem QueueOK.combine (h : QueueOK w xs)
    (hholder : (holds pc' = true ↔ s'.lock = some t) ∧
      ∀ u, u ≠ t → (w.shared.lock = some u ↔ s'.lock = some u))
    (hrole : t ≠ .printer → serviceOf pc' = none)
    (hfree : s'.lock = none → s'.links.Holds xs')
    (hshape : (s'.lock = some t → Shape s'.links xs' pc') ∧
      ∀ u, u ≠ t → s'.lock = some u → Shape s'.links xs' (w.thread u))
    (hnodup : (service (after w t s' pc') ++ xs').Nodup)
    (hlive : ∀ a ∈ service (after w t s' pc') ++ xs', s'.live a = true)
    (hown : ∀ a, (node pc' = some a ∨ ∃ u, u ≠ t ∧ node (w.thread u) = some a) →
      s'.live a = true ∧ a ∉ service (after w t s' pc') ++ xs' ∧ s'.links.next a = none)
    (hsingle : ∀ u a, u ≠ t → node (w.thread u) = some a → node pc' ≠ some a)
    (hjobs : pending s'.log = (service (after w t s' pc') ++ xs').map fun a => (a, s'.jobs a)) :
    QueueOK (after w t s' pc') xs' := by
  have hcases := after_cases w t s' pc'
  refine ⟨fun u => ?_, fun u hp => ?_, hfree, fun u hu => ?_, hnodup, hlive, fun u a ha => ?_,
    fun u v a hu hv => ?_, hjobs⟩
  · obtain ⟨rfl, he⟩ | ⟨hne, he⟩ := hcases u
    · rw [he]
      exact hholder.1
    · rw [he, h.holder]
      exact hholder.2 u hne
  · obtain ⟨rfl, he⟩ | ⟨-, he⟩ := hcases u
    · rw [he]
      exact hrole hp
    · rw [he]
      exact h.role u hp
  · obtain ⟨rfl, he⟩ | ⟨hne, he⟩ := hcases u
    · rw [he]
      exact hshape.1 hu
    · rw [he]
      exact hshape.2 u hne hu
  · obtain ⟨rfl, he⟩ | ⟨hne, he⟩ := hcases u
    · exact hown a (.inl (he ▸ ha))
    · exact hown a (.inr ⟨u, hne, he ▸ ha⟩)
  · obtain ⟨rfl, he⟩ | ⟨hne, he⟩ := hcases u
    · obtain ⟨rfl, -⟩ | ⟨hne, he'⟩ := hcases v
      · rfl
      · exact absurd (he ▸ hu) (hsingle v a hne (he' ▸ hv))
    · obtain ⟨rfl, he'⟩ | ⟨-, he'⟩ := hcases v
      · exact absurd (he' ▸ hv) (hsingle u a hne (he ▸ hu))
      · exact h.single u v a (he ▸ hu) (he' ▸ hv)

/-- A step that adds, makes and frees no node. The list it leaves in the chains may begin
with the job that was in service, or lack its first one that now is. -/
structure Moves (w : Daemon) (xs : List Addr) (t : Tid) (s' : Shared) (pc' : Pc)
    (xs' : List Addr) : Prop where
  live : s'.live = w.shared.live
  jobs : s'.jobs = w.shared.jobs
  log : pending s'.log = pending w.shared.log
  node : node pc' = node (w.thread t)
  role : t ≠ .printer → serviceOf pc' = none
  same : service (after w t s' pc') ++ xs' = service w ++ xs
  holds : holds pc' = true ↔ s'.lock = some t
  keeps : ∀ u, u ≠ t → (w.shared.lock = some u ↔ s'.lock = some u)
  others : ∀ u, u ≠ t → s'.lock = some u → s'.links = w.shared.links ∧ xs' = xs
  free : s'.lock = none → s'.links.Holds xs'
  shape : s'.lock = some t → Shape s'.links xs' pc'
  next : ∀ a, a ∉ service w ++ xs → s'.links.next a = w.shared.links.next a

theorem QueueOK.moves (h : QueueOK w xs) (hm : Moves w xs t s' pc' xs') :
    QueueOK (after w t s' pc') xs' := by
  refine h.combine ⟨hm.holds, hm.keeps⟩ hm.role hm.free ⟨hm.shape, fun u hu hlock => ?_⟩ ?_ ?_ ?_ ?_ ?_
  · obtain ⟨hlinks, rfl⟩ := hm.others u hu hlock
    rw [hlinks]
    exact h.shape u ((hm.keeps u hu).mpr hlock)
  · rw [hm.same]
    exact h.nodup
  · rw [hm.same, hm.live]
    exact h.live
  · intro a ha
    obtain ⟨u, hu⟩ : ∃ u, PrintdQueue.node (w.thread u) = some a := by
      obtain ha | ⟨u, -, ha⟩ := ha
      · exact ⟨t, hm.node ▸ ha⟩
      · exact ⟨u, ha⟩
    obtain ⟨hlive, hmem, hnext⟩ := h.own u a hu
    rw [hm.same, hm.live, hm.next a hmem]
    exact ⟨hlive, hmem, hnext⟩
  · intro u a hne hu ht
    rw [hm.node] at ht
    exact hne (h.single u t a hu ht)
  · rw [hm.same, hm.log, hm.jobs]
    exact h.jobs

theorem moves_held (h : QueueOK w xs) (hpc : holds (w.thread t) = true) (hpc' : holds pc' = true)
    (hs : s'.live = w.shared.live ∧ s'.jobs = w.shared.jobs ∧ s'.log = w.shared.log ∧
      s'.lock = w.shared.lock)
    (hnode : node pc' = node (w.thread t)) (hrole : t ≠ .printer → serviceOf pc' = none)
    (hsame : service (after w t s' pc') ++ xs' = service w ++ xs)
    (hshape : Shape s'.links xs' pc')
    (hnext : ∀ a, a ∉ service w ++ xs → s'.links.next a = w.shared.links.next a) :
    QueueOK (after w t s' pc') xs' := by
  obtain ⟨hlive, hjobs, hlog, hlock⟩ := hs
  have hheld := (h.holder t).mp hpc
  rw [hheld] at hlock
  refine h.moves ⟨hlive, hjobs, by rw [hlog], hnode, hrole, hsame, ?_, ?_, ?_, ?_, fun _ => hshape,
    hnext⟩
  · simp [hpc', hlock]
  · intro u _
    rw [hheld, hlock]
  · intro u hu hs
    rw [hlock] at hs
    cases hs
    exact absurd rfl hu
  · intro hs
    rw [hlock] at hs
    cases hs

theorem QueueOK.quiet (h : QueueOK w xs) (hs : Same w.shared s') (hl : Like (w.thread t) pc') :
    QueueOK (after w t s' pc') xs := by
  refine h.moves ⟨hs.live, hs.jobs, by rw [hs.log], hl.node, fun ht => ?_, ?_, ?_, ?_, ?_, ?_, ?_, ?_⟩
  · rw [hl.service, h.role t ht]
  · rw [service_after hl.service]
  · rw [hl.holds, hs.lock, h.holder]
  · intro u _
    rw [hs.lock]
  · exact fun u _ _ => ⟨hs.links, rfl⟩
  · intro hnone
    rw [hs.links]
    exact h.free (hs.lock ▸ hnone)
  · intro ht
    rw [hs.links, hl.shape]
    exact h.shape t (hs.lock ▸ ht)
  · intro a _
    rw [hs.links]

theorem QueueOK.acquire (h : QueueOK w xs) (hs : w.shared.take t = some s') (hpc' : holds pc' = true)
    (hnode : node pc' = node (w.thread t)) (hserv : serviceOf pc' = serviceOf (w.thread t))
    (hshape : ∀ xs, w.shared.links.Holds xs → Shape w.shared.links xs pc') :
    QueueOK (after w t s' pc') xs := by
  obtain ⟨hlock, rfl⟩ := take_eq_some hs
  refine h.moves ⟨rfl, rfl, rfl, hnode, fun ht => ?_, ?_, ?_, ?_, ?_, ?_, ?_, fun _ _ => rfl⟩
  · rw [hserv, h.role t ht]
  · rw [service_after hserv]
  · simp [hpc']
  · intro u hu
    simp [hlock, Ne.symm hu]
  · exact fun u _ _ => ⟨rfl, rfl⟩
  · intro hnone
    cases hnone
  · exact fun _ => hshape xs (h.free hlock)

theorem QueueOK.release {wait : Bool} (h : QueueOK w xs) (hpc : holds (w.thread t) = true)
    (hpc' : holds pc' = false) (hnode : node pc' = node (w.thread t))
    (hserv : serviceOf pc' = serviceOf (w.thread t))
    (hshape : ∀ xs, Shape w.shared.links xs (w.thread t) → w.shared.links.Holds xs) :
    QueueOK (after w t { w.shared.release with jobwait := wait } pc') xs := by
  have hheld := (h.holder t).mp hpc
  refine h.moves ⟨rfl, rfl, rfl, hnode, fun ht => ?_, ?_, ?_, ?_, ?_, ?_, ?_, fun _ _ => rfl⟩
  · rw [hserv, h.role t ht]
  · rw [service_after hserv]
  · simp [hpc', Shared.release]
  · intro u hu
    simp [hheld, Ne.symm hu, Shared.release]
  · exact fun u _ _ => ⟨rfl, rfl⟩
  · exact fun _ => hshape xs (h.shape t hheld)
  · intro hs
    cases hs

theorem QueueOK.settle {jp : Addr} {e : QueueEvent} {history : List Event} (h : QueueOK w xs)
    (hcause : Cause jp e) (hserv : serviceOf pc' = serviceOf (w.thread .printer))
    (hpc : holds (w.thread .printer) = false) (hpc' : holds pc' = false)
    (hnode : node pc' = node (w.thread .printer)) :
    QueueOK (after w .printer ({ w.shared with history := history }.logged e) pc') xs := by
  have hnot : w.shared.lock ≠ some .printer := by
    rw [Ne, ← h.holder, hpc]
    simp
  refine h.moves ⟨rfl, rfl, pending_cause _ hcause, hnode, fun ht => absurd rfl ht, ?_, ?_, ?_, ?_,
    h.free, ?_, fun _ _ => rfl⟩
  · rw [service_after hserv]
  · simpa [hpc', Shared.logged] using hnot
  · exact fun u _ => Iff.rfl
  · exact fun u _ _ => ⟨rfl, rfl⟩
  · exact fun hs => absurd hs hnot

theorem QueueOK.pick {jp : Addr} (h : QueueOK w xs) (hpc : w.thread .printer = .test)
    (hhead : w.shared.links.head = some jp) :
    ∃ xs', QueueOK (after w .printer w.shared (.removeNext jp)) xs' := by
  have hheld : w.shared.lock = some .printer := (h.holder _).mp (by rw [hpc]; rfl)
  have hholds : w.shared.links.Holds xs := by
    have := h.shape _ hheld
    rwa [hpc] at this
  obtain ⟨l, rfl⟩ := eq_cons_of_head hholds.forward hhead
  refine ⟨l, moves_held h (by rw [hpc]; rfl) rfl ⟨rfl, rfl, rfl, rfl⟩ (by rw [hpc]; rfl)
    (fun ht => absurd rfl ht) ?_ hholds fun _ _ => rfl⟩
  simp [service, hpc, thread_after_self, serviceOf]

theorem service_eq {jp : Addr} (h : serviceOf (w.thread .printer) = some jp) : service w = [jp] := by
  rw [service, h]
  rfl

theorem QueueOK.printer_held {jp : Addr} (h : QueueOK w xs) (hpc : w.thread .printer = pc)
    (hholds : holds pc = true) (hserv : serviceOf pc = some jp) :
    Shape w.shared.links xs pc ∧ service w = [jp] ∧ jp ∉ xs := by
  subst hpc
  have hs := service_eq hserv
  refine ⟨h.shape _ ((h.holder _).mp hholds), hs, ?_⟩
  have := h.nodup
  rw [hs] at this
  exact (List.nodup_cons.mp this).1

/-- A statement of the printer thread that leaves its job in service. -/
theorem QueueOK.printer_statement (h : QueueOK w xs) (hpc : w.thread .printer = pc)
    (hheld : holds pc = true) (hpc' : holds pc' = true ∧ node pc' = node pc ∧
      serviceOf pc' = serviceOf pc)
    (hs : s'.live = w.shared.live ∧ s'.jobs = w.shared.jobs ∧ s'.log = w.shared.log ∧
      s'.lock = w.shared.lock)
    (hshape : Shape s'.links xs pc')
    (hnext : ∀ a, a ∉ service w ++ xs → s'.links.next a = w.shared.links.next a) :
    QueueOK (after w .printer s' pc') xs := by
  subst hpc
  refine moves_held h hheld hpc'.1 hs hpc'.2.1 (fun ht => absurd rfl ht) ?_ hshape hnext
  rw [service_after hpc'.2.2]

theorem QueueOK.remove (h : QueueOK w xs) (hpc : w.thread .printer = pc)
    (hact : removeJob w.shared pc = some (s', pc')) : QueueOK (after w .printer s' pc') xs := by
  cases pc with
  | removeNext jp =>
    obtain ⟨hshape, -, -⟩ := h.printer_held hpc rfl rfl
    have hback := hshape.backward
    simp only [removeJob] at hact
    split at hact
    · rename_i a ha
      cases hact
      obtain ⟨l, rfl⟩ : ∃ l, xs = a :: l := by
        have := chain_head hshape.forward.2
        rw [ha] at this
        exact List.head?_eq_some_iff.mp this.symm
      obtain ⟨hback', hprev⟩ := chain_first_out hshape
      exact h.printer_statement hpc rfl ⟨rfl, rfl, rfl⟩ ⟨rfl, rfl, rfl, rfl⟩
        ⟨hshape.forward, hback', hprev⟩ fun _ _ => rfl
    · rename_i hnone
      cases hact
      obtain rfl : xs = [] := by
        have := chain_head hshape.forward.2
        rw [hnone] at this
        exact List.head?_eq_none_iff.mp this.symm
      have hprev : w.shared.links.prev jp = none := hback.2
      exact h.printer_statement hpc rfl ⟨rfl, rfl, rfl⟩ ⟨rfl, rfl, rfl, rfl⟩
        ⟨hshape.forward, hprev, hprev⟩ fun _ _ => rfl
  | removePrev jp =>
    obtain ⟨⟨hforward, hback, hprev⟩, -, -⟩ := h.printer_held hpc rfl rfl
    simp only [removeJob, hprev] at hact
    cases hact
    exact h.printer_statement hpc rfl ⟨rfl, rfl, rfl⟩ ⟨rfl, rfl, rfl, rfl⟩
      (Links.Holds.mk hforward.2 hback) fun _ _ => rfl
  | _ => cases hact

theorem QueueOK.replace (h : QueueOK w xs) (hpc : w.thread .printer = pc) (hheld : holds pc = true)
    (hheld' : holds pc' = true) (hact : replaceJob w.shared pc = some (s', pc')) :
    ∃ xs', QueueOK (after w .printer s' pc') xs' := by
  cases pc with
  | replacePrev jp =>
    obtain ⟨hshape, -, hjp⟩ := h.printer_held hpc rfl rfl
    cases hact
    exact ⟨xs, h.printer_statement hpc rfl ⟨rfl, rfl, rfl⟩ ⟨rfl, rfl, rfl, rfl⟩
      ⟨holds_update_prev hshape hjp none, update_self _ _ _⟩ fun _ _ => rfl⟩
  | replaceNext jp =>
    obtain ⟨⟨hshape, hprev⟩, hserv, hjp⟩ := h.printer_held hpc rfl rfl
    cases hact
    refine ⟨xs, h.printer_statement hpc rfl ⟨rfl, rfl, rfl⟩ ⟨rfl, rfl, rfl, rfl⟩
      ⟨holds_update_next hshape hjp _, hprev, update_self _ _ _⟩ fun a ha => ?_⟩
    refine update_of_ne ?_ _ _
    rintro rfl
    exact ha (by simp [hserv])
  | replaceLink jp =>
    obtain ⟨⟨hshape, hprev, hnext⟩, -, hjp⟩ := h.printer_held hpc rfl rfl
    simp only [replaceJob] at hact
    split at hact
    · rename_i hnone
      cases hact
      obtain rfl := eq_nil_of_head hshape.forward hnone
      exact ⟨[], h.printer_statement hpc rfl ⟨rfl, rfl, rfl⟩ ⟨rfl, rfl, rfl, rfl⟩
        ⟨hshape.forward, ⟨rfl, hprev⟩, hnext⟩ fun _ _ => rfl⟩
    · rename_i a hsome
      cases hact
      obtain ⟨l, rfl⟩ := eq_cons_of_head hshape.forward hsome
      exact ⟨a :: l, h.printer_statement hpc rfl ⟨rfl, rfl, rfl⟩ ⟨rfl, rfl, rfl, rfl⟩
        ⟨hshape.forward, chain_first_in hshape hjp hprev, hnext⟩ fun _ _ => rfl⟩
  | replaceHead jp =>
    obtain ⟨⟨hforward, hback, hnext⟩, hserv, -⟩ := h.printer_held hpc rfl rfl
    cases hact
    have hforward' : Chain w.shared.links.next (some jp) (jp :: xs) :=
      ⟨rfl, by rw [hnext]; exact hforward⟩
    -- the job goes from service to the front of the list, where it was before
    refine ⟨jp :: xs, moves_held h (by rw [hpc]; rfl) rfl ⟨rfl, rfl, rfl, rfl⟩ (by rw [hpc]; rfl)
      (fun ht => absurd rfl ht) ?_ (Links.Holds.mk hforward' hback) fun _ _ => rfl⟩
    rw [hserv, service, thread_after_self]
    rfl
  | replaceUnlock =>
    cases hact
    cases hheld'
  | replaceLock jp => cases hheld
  | _ => cases hact

/-! ### Nodes that come and go -/

/-- The thread that has the lock does not see a change of a pointer it does not know. -/
theorem shape_update_next {L : Links Addr} {a : Addr} (v : Option Addr) (h : Shape L xs pc)
    (ha : a ∉ (serviceOf pc).toList ++ xs) (hnode : node pc ≠ some a) :
    Shape { L with next := Function.update L.next a v } xs pc := by
  have hxs : a ∉ xs := fun hx => ha (by simp [hx])
  cases pc with
  | adding b | queueing b l =>
    cases b with
    | link jp => exact ⟨holds_update_next h.1 hxs v, h.2⟩
    | tail jp =>
      refine ⟨path_update h.1 ?_ v, h.2⟩
      simp only [List.mem_append, List.mem_singleton, not_or]
      exact ⟨hxs, fun he => hnode (by rw [he]; rfl)⟩
    | _ => exact holds_update_next h hxs v
  | removeNext jp => exact holds_update_next h (by simpa [serviceOf] using ha) v
  | removePrev jp => exact ⟨path_update h.1 (by simpa [serviceOf] using ha) v, h.2⟩
  | replaceNext jp => exact ⟨holds_update_next h.1 hxs v, h.2⟩
  | replaceLink jp =>
    refine ⟨holds_update_next h.1 hxs v, h.2.1, ?_⟩
    have hne : jp ≠ a := by
      rintro rfl
      simp [serviceOf] at ha
    exact (update_of_ne hne _ _).trans h.2.2
  | replaceHead jp =>
    refine ⟨path_update h.1 hxs v, h.2.1, ?_⟩
    have hne : jp ≠ a := by
      rintro rfl
      simp [serviceOf] at ha
    exact (update_of_ne hne _ _).trans h.2.2
  | _ => exact holds_update_next h hxs v

theorem malloc_eq {req : PrintReq} {jobid : ℤ} {jp : Addr}
    (h : addJob s t ans (.malloc req jobid) = some (s', some (.lock jp))) : s.live jp = false ∧
      s' = { s with
        live := Function.update s.live jp true
        jobs := Function.update s.jobs jp ⟨jobid, req⟩ }.setNext jp none := by
  simp only [addJob] at h
  split at h
  · split at h
    · cases h
    · cases h
      exact ⟨Bool.eq_false_iff.mpr ‹_›, rfl⟩
  · cases h

theorem QueueOK.malloc {req : PrintReq} {jobid : ℤ} {jp : Addr} (h : QueueOK w xs)
    (hpc : addPc (w.thread t) = some (.malloc req jobid)) (hpc' : addPc pc' = some (.lock jp))
    (hact : addJob w.shared t ans (.malloc req jobid) = some (s', some (.lock jp))) :
    QueueOK (after w t s' pc') xs := by
  obtain ⟨hholds, -, hserv, -, -⟩ := of_addPc hpc
  obtain ⟨hholds', hnode', hserv', -, -⟩ := of_addPc hpc'
  have hsvc : service (after w t s' pc') = service w := service_after (hserv'.trans hserv.symm)
  obtain ⟨hnew, rfl⟩ := malloc_eq hact
  have hnot : w.shared.lock ≠ some t := by
    rw [Ne, ← h.holder, hholds]
    simp [addHolds]
  have hne : ∀ a, w.shared.live a = true → a ≠ jp := by
    rintro a ha rfl
    rw [ha] at hnew
    cases hnew
  have hmem : jp ∉ service w ++ xs := fun hm => hne jp (h.live jp hm) rfl
  have hother : ∀ u, node (w.thread u) ≠ some jp := fun u hu => hne jp (h.own u jp hu).1 rfl
  refine h.combine ⟨?_, fun u _ => Iff.rfl⟩ (fun _ => hserv') (fun hnone => ?_)
    ⟨fun hs => absurd hs hnot, fun u hu hlock => ?_⟩ ?_ ?_ ?_ ?_ ?_
  · rw [hholds']
    exact ⟨(fun he => by cases he), fun hs => absurd hs hnot⟩
  · exact holds_update_next (h.free hnone) (fun hx => hmem (by simp [hx])) none
  · refine shape_update_next none (h.shape u hlock) (fun hx => ?_) (hother u)
    by_cases hp : u = .printer
    · subst hp
      exact hmem hx
    · rw [h.role u hp] at hx
      exact hmem (List.mem_append_right _ hx)
  · rw [hsvc]
    exact h.nodup
  · rw [hsvc]
    intro a ha
    exact (update_of_ne (hne a (h.live a ha)) _ _).trans (h.live a ha)
  · rw [hsvc]
    rintro a (ha | ⟨u, -, hu⟩)
    · rw [hnode'] at ha
      cases ha
      exact ⟨update_self _ _ _, hmem, update_self _ _ _⟩
    · obtain ⟨hl, hm, hn⟩ := h.own u a hu
      exact ⟨(update_of_ne (hne a hl) _ _).trans hl, hm,
        (update_of_ne (hne a hl) _ _).trans hn⟩
  · intro u a _ hu ha
    rw [hnode'] at ha
    cases ha
    exact hother u hu
  · rw [hsvc]
    refine h.jobs.trans (List.map_congr_left fun a ha => ?_)
    exact congrArg (Prod.mk a) (update_of_ne (hne a (h.live a ha)) _ _).symm

theorem QueueOK.add {a a' : AddPc} (h : QueueOK w xs) (hpc : addPc (w.thread t) = some a)
    (hpc' : addPc pc' = some a') (hheld : addHolds a = true) (hheld' : addHolds a' = true)
    (hact : addJob w.shared t ans a = some (s', some a')) :
    ∃ xs', QueueOK (after w t s' pc') xs' := by
  obtain ⟨hholds, hnode, hserv, -, hshape⟩ := of_addPc hpc
  obtain ⟨hholds', hnode', hserv', -, hshape'⟩ := of_addPc hpc'
  have hsvc : service (after w t s' pc') = service w := service_after (hserv'.trans hserv.symm)
  have hlock := (h.holder t).mp (hholds.trans hheld)
  have hcur := h.shape t hlock
  rw [hshape] at hcur
  cases a with
  | prev jp =>
    cases hact
    obtain ⟨-, hmem, -⟩ := h.own t jp hnode
    have hjp : jp ∉ xs := fun hx => hmem (by simp [hx])
    refine ⟨xs, moves_held h (hholds.trans hheld) (hholds'.trans hheld') ⟨rfl, rfl, rfl, rfl⟩
      (hnode'.trans hnode.symm) (fun _ => hserv') (by rw [hsvc]) ?_ fun _ _ => rfl⟩
    rw [hshape']
    exact ⟨holds_update_prev hcur hjp _, update_self _ _ _⟩
  | link jp =>
    obtain ⟨hxs, hprev⟩ := hcur
    obtain ⟨-, hmem, hnext⟩ := h.own t jp hnode
    have hjp : jp ∉ xs := fun hx => hmem (by simp [hx])
    simp only [addJob] at hact
    split at hact
    · rename_i hnone
      cases hact
      obtain rfl := eq_nil_of_tail hxs.backward hnone
      refine ⟨[], moves_held h (hholds.trans hheld) (hholds'.trans hheld') ⟨rfl, rfl, rfl, rfl⟩
        (hnode'.trans hnode.symm) (fun _ => hserv') (by rw [hsvc]) ?_ fun _ _ => rfl⟩
      rw [hshape']
      exact ⟨⟨rfl, hnext⟩, hxs.backward, hprev⟩
    · rename_i b hsome
      cases hact
      obtain ⟨l, rfl⟩ := eq_concat_of_tail hxs.backward hsome
      refine ⟨l ++ [b], moves_held h (hholds.trans hheld) (hholds'.trans hheld')
        ⟨rfl, rfl, rfl, rfl⟩ (hnode'.trans hnode.symm) (fun _ => hserv') (by rw [hsvc]) ?_ ?_⟩
      · rw [hshape']
        exact ⟨chain_snoc hxs.forward hnext hjp, hxs.backward, hprev⟩
      · intro x hx
        refine update_of_ne ?_ _ _
        rintro rfl
        exact hx (by simp)
  | tail jp =>
    cases hact
    obtain ⟨hforward, hback, hprev⟩ := hcur
    obtain ⟨hlive, hmem, hnext⟩ := h.own t jp hnode
    have hother : ∀ u x, u ≠ t → node (w.thread u) = some x → x ≠ jp := by
      rintro u x hu hx rfl
      exact hu (h.single u t x hx hnode)
    refine ⟨xs ++ [jp], h.combine ⟨?_, fun u _ => Iff.rfl⟩ (fun _ => hserv') (fun hnone => ?_)
      ⟨fun _ => ?_, fun u hu hs => ?_⟩ ?_ ?_ ?_ ?_ ?_⟩
    · exact ⟨fun _ => hlock, fun _ => hholds'.trans hheld'⟩
    · exact absurd (hlock.symm.trans hnone) (by simp)
    · rw [hshape']
      have hback' : Chain w.shared.links.prev (some jp) (jp :: xs.reverse) :=
        ⟨rfl, by rw [hprev]; exact hback⟩
      refine Links.Holds.mk hforward ?_
      rw [List.reverse_append]
      exact hback'
    · exact absurd (Option.some.inj (hlock.symm.trans hs)).symm hu
    · rw [hsvc, ← List.append_assoc, List.nodup_append]
      refine ⟨h.nodup, by simp, fun x hx y hy => ?_⟩
      rintro rfl
      exact hmem (List.mem_singleton.mp hy ▸ hx)
    · rw [hsvc, ← List.append_assoc]
      intro x hx
      rcases List.mem_append.mp hx with hx | hx
      · exact h.live x hx
      · rw [List.mem_singleton.mp hx]
        exact hlive
    · rw [hsvc, ← List.append_assoc]
      rintro x (hx | ⟨u, hu, hx⟩)
      · rw [hnode'] at hx
        cases hx
      · obtain ⟨hl, hm, hn⟩ := h.own u x hx
        refine ⟨hl, ?_, hn⟩
        simp only [List.mem_append, List.mem_singleton, not_or] at hm ⊢
        exact ⟨hm, hother u x hu hx⟩
    · intro u x _ _ hx
      rw [hnode'] at hx
      cases hx
    · rw [hsvc, ← List.append_assoc, List.map_append]
      exact (pending_added _ _ _).trans (congrArg (· ++ _) h.jobs)
  | unlock =>
    cases hact
    cases hheld'
  | _ => cases hheld

theorem QueueOK.freed {jp : Addr} (h : QueueOK w xs) (hpc : w.thread .printer = .free jp) :
    QueueOK (after w .printer ({ w.shared with live := Function.update w.shared.live jp false }.logged
      (.freed jp)) .printerLock) xs := by
  have hserv : service w = [jp] := service_eq (by rw [hpc]; rfl)
  have hsvc : service (after w .printer ({ w.shared with live := Function.update w.shared.live jp false }.logged
      (.freed jp)) .printerLock) = [] := by
    rw [service, thread_after_self]
    rfl
  have hnot : w.shared.lock ≠ some .printer := by
    rw [Ne, ← h.holder, hpc]
    simp [holds]
  have hnodup := h.nodup
  rw [hserv] at hnodup
  obtain ⟨hjp, hxs⟩ := List.nodup_cons.mp hnodup
  have hne : ∀ a ∈ xs, a ≠ jp := by
    rintro a ha rfl
    exact hjp ha
  refine h.combine ⟨?_, fun u _ => Iff.rfl⟩ (fun ht => absurd rfl ht) h.free
    ⟨fun hs => absurd hs hnot, fun u _ hs => h.shape u hs⟩ ?_ ?_ ?_ ?_ ?_
  · exact ⟨(fun he => by cases he), fun hs => absurd hs hnot⟩
  · rw [hsvc]
    exact hxs
  · rw [hsvc, List.nil_append]
    intro a ha
    exact (update_of_ne (hne a ha) _ _).trans (h.live a (by rw [hserv]; simp [ha]))
  · rw [hsvc]
    rintro a (ha | ⟨u, -, hu⟩)
    · cases ha
    · obtain ⟨hl, hm, hn⟩ := h.own u a hu
      rw [hserv] at hm
      obtain ⟨hajp, hax⟩ : a ≠ jp ∧ a ∉ xs := by simpa using hm
      exact ⟨(update_of_ne hajp _ _).trans hl, hax, hn⟩
  · intro u a _ _ ha
    cases ha
  · rw [hsvc]
    refine (pending_freed _ _).trans ?_
    rw [h.jobs, hserv, List.nil_append, List.singleton_append, List.map_cons,
      List.filter_cons_of_neg (by simp)]
    refine List.filter_eq_self.mpr fun x hx => ?_
    obtain ⟨a, ha, rfl⟩ := List.mem_map.mp hx
    simpa using hne a ha

theorem QueueOK.effect (h : QueueOK w xs) (he : Effect w.shared t (w.thread t) s' pc') :
    ∃ xs', QueueOK (after w t s' pc') xs' := by
  generalize hpc : w.thread t = pc at he
  cases he with
  | quiet hs hl =>
    subst hpc
    exact ⟨xs, h.quiet hs hl⟩
  | acquire hs hheld hnode hserv _ hshape =>
    subst hpc
    exact ⟨xs, h.acquire hs hheld hnode hserv hshape⟩
  | release hheld hheld' hnode hserv _ hshape hs =>
    subst hpc hs
    exact ⟨xs, h.release hheld hheld' hnode hserv hshape⟩
  | malloc ha ha' hact =>
    subst hpc
    exact ⟨xs, h.malloc ha ha' hact⟩
  | add ha ha' hheld hheld' hact =>
    subst hpc
    exact h.add ha ha' hheld hheld' hact
  | pick hhead => exact h.pick hpc hhead
  | remove hact => exact ⟨xs, h.remove hpc hact⟩
  | replace hact hheld hheld' => exact h.replace hpc hheld hheld' hact
  | settle hcause hserv hserv' hheld hheld' hnode _ =>
    subst hpc
    exact ⟨xs, h.settle hcause (hserv'.trans hserv.symm) hheld hheld' hnode⟩
  | free => exact ⟨xs, h.freed hpc⟩

/-! ### What is freed -/

structure FreeOK (w : Daemon) : Prop where
  settled : ∀ jp, settling (w.thread .printer) = some jp → Settled w.shared.log jp
  cause : FreedForCause w.shared.log

theorem service_of_settling {jp : Addr} (h : settling pc = some jp) : serviceOf pc = some jp := by
  cases pc <;> first | exact h | cases h

theorem FreeOK.same_log (h : FreeOK w) (hlog : s'.log = w.shared.log)
    (hsett : settling pc' = none ∨ settling pc' = settling (w.thread t)) :
    FreeOK (after w t s' pc') := by
  refine ⟨fun jp hjp => ?_, ?_⟩
  · change Settled s'.log jp
    rw [hlog]
    by_cases ht : t = .printer
    · subst ht
      rw [thread_after_self] at hjp
      rcases hsett with hnone | hsame
      · rw [hnone] at hjp
        cases hjp
      · exact h.settled jp (hsame ▸ hjp)
    · rw [thread_after_other (Ne.symm ht)] at hjp
      exact h.settled jp hjp
  · change FreedForCause s'.log
    rw [hlog]
    exact h.cause

theorem FreeOK.added {jp : Addr} {job : Job} (h : FreeOK w) (hq : QueueOK w xs)
    (hnode : node (w.thread t) = some jp) (hsett : settling pc' = none)
    (hlog : s'.log = w.shared.log ++ [.added jp job]) : FreeOK (after w t s' pc') := by
  refine ⟨fun a ha => ?_, ?_⟩
  · change Settled s'.log a
    rw [hlog]
    by_cases ht : t = .printer
    · subst ht
      rw [thread_after_self, hsett] at ha
      cases ha
    · rw [thread_after_other (Ne.symm ht)] at ha
      -- the node in service is not one that is being added
      have hne : a ≠ jp := by
        rintro rfl
        refine (hq.own t a hnode).2.1 ?_
        simp [service_eq (service_of_settling ha)]
      exact settled_append (h.settled a ha) (by simp) (by simp [Ne.symm hne])
  · change FreedForCause s'.log
    rw [hlog]
    exact freedForCause_append h.cause (by simp)

theorem FreeOK.effect (h : FreeOK w) (hq : QueueOK w xs)
    (he : Effect w.shared t (w.thread t) s' pc') : FreeOK (after w t s' pc') := by
  generalize hpc : w.thread t = pc at he
  cases he with
  | quiet hs hl => exact h.same_log hs.log (.inr (hpc ▸ hl.settling))
  | acquire hs _ _ _ hsett _ =>
    obtain ⟨-, rfl⟩ := take_eq_some hs
    exact h.same_log rfl (.inl hsett)
  | release _ _ _ _ hsett _ hs =>
    subst hs
    exact h.same_log rfl (.inl hsett)
  | malloc _ ha' hact =>
    obtain ⟨-, rfl⟩ := malloc_eq hact
    exact h.same_log rfl (.inl (of_addPc ha').2.2.2.1)
  | @add _ _ _ _ ans a a' ha ha' hheld hheld' hact =>
    have hsett := (of_addPc ha').2.2.2.1
    cases a with
    | prev jp =>
      cases hact
      exact h.same_log rfl (.inl hsett)
    | link jp =>
      simp only [addJob] at hact
      split at hact <;> cases hact <;> exact h.same_log rfl (.inl hsett)
    | tail jp =>
      cases hact
      exact h.added hq (hpc ▸ (of_addPc ha).2.1) hsett rfl
    | unlock =>
      cases hact
      cases hheld'
    | _ => cases hheld
  | pick _ => exact h.same_log rfl (.inl rfl)
  | remove hact =>
    cases pc with
    | removeNext jp =>
      simp only [removeJob] at hact
      split at hact <;> cases hact <;> exact h.same_log rfl (.inl rfl)
    | removePrev jp =>
      simp only [removeJob] at hact
      split at hact <;> cases hact <;> exact h.same_log rfl (.inl rfl)
    | _ => cases hact
  | replace hact hheld =>
    cases pc with
    | replaceLock jp => cases hheld
    | replaceLink jp =>
      simp only [replaceJob] at hact
      split at hact <;> cases hact <;> exact h.same_log rfl (.inl rfl)
    | replacePrev jp | replaceNext jp | replaceHead jp | replaceUnlock =>
      cases hact
      exact h.same_log rfl (.inl rfl)
    | _ => cases hact
  | @settle _ _ jp e history hcause _ _ _ _ _ hsett =>
    refine ⟨fun a ha => ?_, ?_⟩
    · rw [thread_after_self, hsett] at ha
      cases ha
      exact settled_of_cause _ hcause
    · exact freedForCause_append h.cause (by cases hcause <;> simp)
  | @free jp =>
    refine ⟨fun a ha => ?_, ?_⟩
    · rw [thread_after_self] at ha
      cases ha
    · refine freedForCause_append h.cause fun a ha => ?_
      cases ha
      exact h.settled jp (by rw [hpc]; rfl)

end Steps

/-! ## Whole runs -/

/-- No daemon runs, or one does and its queue is as it should be. -/
def Consistent (w : Daemon) : Prop :=
  (∀ t, w.thread t = .down) ∧ w.shared.accepts = false ∨
    w.thread .main ≠ .down ∧ (∃ xs, QueueOK w xs) ∧ FreeOK w

theorem act_down (h : s.accepts = false) : act s t .down ans = none := by
  cases t with
  | main => rfl
  | printer => rfl
  | client n =>
    simp only [act, clientThread, h]
    rfl

theorem main_stays_up (h : buildQonstart s ans pc = some (s', pc')) : pc' ≠ .down := by
  rintro rfl
  cases pc with
  | readdir names => cases names <;> cases h
  | readReq name i names =>
    obtain ⟨nr, -, h⟩ := Option.map_eq_some_iff.mp h
    dsimp only at h
    split at h <;> cases h
  | dropReq name names | dropData name names =>
    obtain ⟨s₁, -, h⟩ := Option.map_eq_some_iff.mp h
    cases h
  | queueing a names =>
    obtain ⟨⟨s₁, a'⟩, -, h⟩ := Option.map_eq_some_iff.mp h
    cases a' <;> cases h
  | opendir =>
    dsimp only [buildQonstart] at h
    split at h <;> (try split at h) <;> cases h
  | openReq name names =>
    dsimp only [buildQonstart] at h
    split at h
    · obtain ⟨i, -, h⟩ := Option.map_eq_some_iff.mp h
      cases h
    · cases h
    · cases h
  | _ => cases h

theorem consistent_boot (w : Daemon) (junk : List Byte) : Consistent ⟨boot w.shared junk, started⟩ := by
  have hidle : ∀ t, holds (started t) = false ∧ node (started t) = none ∧
      serviceOf (started t) = none := by
    intro t
    cases t <;> exact ⟨rfl, rfl, rfl⟩
  refine .inr ⟨by simp [started], ⟨[], ?_⟩, ?_, ?_⟩
  · refine ⟨fun t => ?_, fun t _ => (hidle t).2.2, fun _ => ⟨rfl, rfl⟩, ?_, ?_, ?_, ?_, ?_, rfl⟩
    · simp [(hidle t).1, boot]
    · intro t ht
      cases ht
    · simp [service, started, serviceOf]
    · simp [service, started, serviceOf]
    · intro t a ha
      rw [(hidle t).2.1] at ha
      cases ha
    · intro t u a ha
      rw [(hidle t).2.1] at ha
      cases ha
  · intro jp hjp
    cases hjp
  · intro l₁ jp l₂ hl
    simp [boot] at hl

theorem consistent_next {w w' : Daemon} {a : Action} (h : Consistent w)
    (hnext : Printd.next w a = some w') : Consistent w' := by
  cases a with
  | crash =>
    cases hnext
    exact .inl ⟨fun _ => rfl, rfl⟩
  | restart junk =>
    simp only [Printd.next] at hnext
    split at hnext
    · cases hnext
      exact consistent_boot w junk
    · cases hnext
  | run t ans =>
    obtain ⟨s', pc', hact, rfl⟩ := next_eq_some.mp hnext
    rcases h with ⟨hdown, haccepts⟩ | ⟨hup, ⟨xs, hq⟩, hf⟩
    · rw [hdown t, act_down haccepts] at hact
      cases hact
    · have he := act_effect hact
      refine .inr ⟨?_, hq.effect he, hf.effect hq he⟩
      by_cases ht : t = .main
      · subst ht
        exact fun hd => main_stays_up hact (thread_after_self.symm.trans hd)
      · exact fun hd => hup ((thread_after_other (Ne.symm ht)).symm.trans hd)

theorem consistent_run {spool : Volume Printd.Path} {jobno : List Byte} {w : Daemon}
    (h : Run Printd.next anyStep (initial spool jobno) w) : Consistent w :=
  h.invariant (I := Consistent) (.inl ⟨fun _ => rfl, rfl⟩) fun _ _ _ hw _ => consistent_next hw

/-- The queue of a running daemon loses and duplicates nothing. -/
theorem queue_is_pending (spool : Volume Printd.Path) (jobno : List Byte) (w : Daemon)
    (h : Run Printd.next anyStep (initial spool jobno) w) (hup : w.thread .main ≠ .down) :
    (w.shared.lock = none → ∃ l, w.shared.links.Holds l ∧ (service w ++ l).Nodup ∧
      (service w ++ l).map (fun a => (a, w.shared.jobs a)) = pending w.shared.log) ∧
    FreedForCause w.shared.log := by
  rcases consistent_run h with ⟨hdown, -⟩ | ⟨-, ⟨xs, hq⟩, hf⟩
  · exact absurd (hdown .main) hup
  · exact ⟨fun hfree => ⟨xs, hq.free hfree, hq.nodup, hq.jobs.symm⟩, hf.cause⟩

set_option maxRecDepth 4000 in
/-- A job from the spool directory is queued at start. -/
theorem queue_is_pending_started : ∃ w : Daemon, w.thread .main ≠ .down ∧ w.shared.lock = none ∧
    w.shared.links.head = some 7 ∧
    ((w.shared.lock = none → ∃ l, w.shared.links.Holds l ∧ (service w ++ l).Nodup ∧
      (service w ++ l).map (fun a => (a, w.shared.jobs a)) = pending w.shared.log) ∧
    FreedForCause w.shared.log) := by
  have h : Run Printd.next anyStep
      (initial ⟨[((.reqs, [49]), 0)], fun _ => List.replicate sizeofPrintreq 0, 1⟩ []) _ := follow_run
    [.restart [], .run .main (.names [[49]]), .run .main .ok, .run .main .ok, .run .main .ok,
      .run .main (.addr 7), .run .main .ok, .run .main .ok, .run .main .ok, .run .main .ok,
      .run .main .ok] rfl
  exact ⟨_, by simp, rfl, rfl, queue_is_pending _ _ _ h (by simp)⟩

end PrintdQueue
