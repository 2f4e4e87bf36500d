import LinuxProgramming.DoublyLinked
import LinuxProgramming.Interleaving

/-! # The job queue with a reader-writer lock

Jobs are linked in both directions between `q_head` and `q_tail`. A job that is removed at one
end leaves the link of its neighbour as it was, so the queue stays well formed only when the
jobs that are removed are alone in it or in its middle. -/
namespace JobQueue

open DoublyLinked Interleaving

abbrev Addr := ℕ
abbrev ThreadId := ℕ

/-- `struct queue` together with the links of all jobs. -/
abbrev Queue := Links Addr

def queueInit (q : Queue) : Queue := { q with head := none, tail := none }

def jobInsert (q : Queue) (jp : Addr) : Queue :=
  let q := { q with
    next := Function.update q.next jp q.head
    prev := Function.update q.prev jp none }
  let q := match q.head with
    | some h => { q with prev := Function.update q.prev h (some jp) }
    | none => { q with tail := some jp }
  { q with head := some jp }

def jobAppend (q : Queue) (jp : Addr) : Queue :=
  let q := { q with
    next := Function.update q.next jp none
    prev := Function.update q.prev jp q.tail }
  let q := match q.tail with
    | some t => { q with next := Function.update q.next t (some jp) }
    | none => { q with head := some jp }
  { q with tail := some jp }

/-- The result is `none` where a null pointer is followed. -/
def jobRemove (q : Queue) (jp : Addr) : Option Queue :=
  if q.head = some jp then
    let q := { q with head := q.next jp }
    some (if q.tail = some jp then { q with tail := none } else q)
  else if q.tail = some jp then
    let q := { q with tail := q.prev jp }
    some (if q.head = some jp then { q with head := none } else q)
  else
    (q.prev jp).bind fun p =>
      let q := { q with next := Function.update q.next p (q.next jp) }
      (q.next jp).map fun n => { q with prev := Function.update q.prev n (q.prev jp) }

/-- The loop of `job_find`; `none` means that it has not ended within so many jobs. -/
def findFrom (q : Queue) (jId : Addr → ThreadId) (id : ThreadId) : ℕ → Option Addr → Option (Option Addr)
  | _, none => some none
  | 0, some _ => none
  | n + 1, some jp => if jId jp = id then some (some jp) else findFrom q jId id n (q.next jp)

/-- `rdlock` tells whether the lock could be taken. -/
def jobFind (q : Queue) (jId : Addr → ThreadId) (rdlock : Bool) (id : ThreadId) (n : ℕ) :
    Option (Option Addr) :=
  if rdlock then findFrom q jId id n q.head else some none

/-! ## Runs -/

inductive Action where
  | insert (jp : Addr)
  | append (jp : Addr)
  | remove (jp : Addr)
  deriving DecidableEq, Repr

/-- `jobs` are the jobs inserted and not removed, in order. -/
structure State where
  queue : Queue
  jobs : List Addr

def next (s : State) : Action → Option State
  | .insert jp => some ⟨jobInsert s.queue jp, jp :: s.jobs⟩
  | .append jp => some ⟨jobAppend s.queue jp, s.jobs ++ [jp]⟩
  | .remove jp => (jobRemove s.queue jp).map fun q => ⟨q, s.jobs.erase jp⟩

def start (q : Queue) : State := ⟨queueInit q, []⟩

/-- The calls of the interface: a job is put into the queue when it is not in it, and taken out
when it is. -/
def proper (s : State) : Action → Bool
  | .insert jp | .append jp => jp ∉ s.jobs
  | .remove jp => jp ∈ s.jobs

/-- A job that is removed is the only one or neither the first nor the last. -/
def aloneOrInside (jobs : List Addr) (jp : Addr) : Bool :=
  jobs = [jp] || (jobs.head? ≠ some jp && jobs.getLast? ≠ some jp)

def removesInside (s : State) : Action → Bool
  | .remove jp => aloneOrInside s.jobs jp
  | _ => true

section Operations

variable {q q' : Queue} {l : List Addr} {jp : Addr}

theorem holds_init (q : Queue) : (queueInit q).Holds [] := ⟨rfl, rfl⟩

theorem holds_insert (h : q.Holds l) (hjp : jp ∉ l) : (jobInsert q jp).Holds (jp :: l) := by
  have hhead := h.head_eq
  have hfree : jp ∉ l.reverse := by rwa [List.mem_reverse]
  cases l with
  | nil =>
    have hq : q.head = none := hhead
    constructor
    · simp only [jobInsert, hq]
      exact ⟨rfl, by simp [DoublyLinked.Path]⟩
    · simp only [jobInsert, hq]
      exact ⟨rfl, by simp [DoublyLinked.Path]⟩
  | cons a l =>
    have hq : q.head = some a := hhead
    constructor
    · simp only [jobInsert, hq]
      have := chain_push h.forward hjp
      rwa [hq] at this
    -- backward the new job comes behind the old head
    · have hback := path_update h.backward hfree none
      simp only [jobInsert, hq, List.reverse_cons] at hback hfree ⊢
      exact chain_snoc hback (by simp) hfree

theorem jobAppend_eq_flip (q : Queue) (jp : Addr) : jobAppend q jp = (jobInsert q.flip jp).flip := by
  unfold jobAppend jobInsert Links.flip
  cases q.tail <;> rfl

theorem holds_append (h : q.Holds l) (hjp : jp ∉ l) : (jobAppend q jp).Holds (l ++ [jp]) := by
  have hins : (jobInsert q.flip jp).Holds (jp :: l.reverse) :=
    holds_insert h.flip (by rwa [List.mem_reverse])
  have hflip := hins.flip
  rw [← jobAppend_eq_flip, List.reverse_cons, List.reverse_reverse] at hflip
  exact hflip

theorem remove_alone (h : q.Holds [jp]) : ∃ q', jobRemove q jp = some q' ∧ q'.Holds [] := by
  have hhead : q.head = some jp := h.head_eq
  have htail : q.tail = some jp := h.tail_eq
  have hnext : q.next jp = none := Links.Holds.next_eq (show q.Holds ([] ++ jp :: []) from h)
  refine ⟨{ q with head := q.next jp, tail := none }, ?_, hnext, rfl⟩
  simp only [jobRemove, hhead, htail, if_true]

theorem remove_inside {l₁ l₂ : List Addr} {a b : Addr} (h : q.Holds (l₁ ++ [a] ++ jp :: b :: l₂)) :
    ∃ q', jobRemove q jp = some q' ∧ q'.Holds (l₁ ++ [a] ++ b :: l₂) := by
  have hnd := h.nodup
  have hprev : q.prev jp = some a := by rw [h.prev_eq, List.getLast?_concat]
  have hnext : q.next jp = some b := h.next_eq
  have hne : jp ∉ l₁ ++ [a] ∧ jp ∉ b :: l₂ := by
    rw [List.nodup_append] at hnd
    exact ⟨fun hm => hnd.2.2 jp hm jp (by simp) rfl, (List.nodup_cons.mp hnd.2.1).1⟩
  have hja : jp ≠ a := fun he => hne.1 (by simp [he])
  have hhead : q.head ≠ some jp := by
    rw [h.head_eq, List.head?_append_of_ne_nil _ (by simp)]
    exact fun he => hne.1 (List.mem_of_head? he)
  have htail : q.tail ≠ some jp := by
    rw [h.tail_eq, List.getLast?_append_cons, List.getLast?_cons_cons]
    exact fun he => hne.2 (List.mem_of_getLast? he)
  refine ⟨⟨q.head, q.tail, Function.update q.next a (some b), Function.update q.prev b (some a)⟩,
    ?_, ?_, ?_⟩
  · simp [jobRemove, hhead, htail, hprev, hnext, hja]
  · have hforward := chain_unlink h.forward
    rwa [hnext] at hforward
  · have hback : Chain q.prev q.tail (l₂.reverse ++ [b] ++ jp :: a :: l₁.reverse) := by
      simpa using (show Chain q.prev q.tail _ from h.flip.forward)
    have hunlink := chain_unlink hback
    simpa [hprev] using hunlink

/-- The first of several jobs: its neighbour still points back to it. -/
theorem remove_first {b : Addr} (h : q.Holds (jp :: b :: l)) (hr : jobRemove q jp = some q') :
    ¬ q'.Holds (b :: l) := by
  have hnd := h.nodup
  have hhead : q.head = some jp := h.head_eq
  have htail : q.tail ≠ some jp := by
    rw [h.tail_eq, List.getLast?_cons_cons]
    exact fun he => (List.nodup_cons.mp hnd).1 (List.mem_of_getLast? he)
  have hprev : q.prev b = some jp := Links.Holds.prev_eq (show q.Holds ([jp] ++ b :: l) from h)
  simp only [jobRemove, hhead, if_true, htail, if_false, Option.some.injEq] at hr
  subst hr
  intro h'
  have hnone : q.prev b = none := Links.Holds.prev_eq (show Links.Holds _ ([] ++ b :: l) from h')
  rw [hprev] at hnone
  cases hnone

/-- The last of several jobs: its neighbour still points on to it. -/
theorem remove_last {a : Addr} (h : q.Holds (l ++ [a] ++ [jp])) (hr : jobRemove q jp = some q') :
    ¬ q'.Holds (l ++ [a]) := by
  have hnd := h.nodup
  have hout : jp ∉ l ++ [a] := by
    rw [List.nodup_append] at hnd
    exact fun hm => hnd.2.2 jp hm jp (by simp) rfl
  have hhead : q.head ≠ some jp := by
    rw [h.head_eq, List.head?_append_of_ne_nil _ (by simp)]
    exact fun he => hout (List.mem_of_head? he)
  have htail : q.tail = some jp := by rw [h.tail_eq, List.getLast?_concat]
  have hnext : q.next a = some jp := by
    rw [List.append_assoc] at h
    exact h.next_eq
  simp only [jobRemove, hhead, htail, if_true, if_false, Option.some.injEq] at hr
  subst hr
  intro h'
  have hnone : q.next a = none := h'.next_eq
  rw [hnext] at hnone
  cases hnone

theorem jobRemove_holds_iff (h : q.Holds l) (hjp : jp ∈ l) :
    (∃ q', jobRemove q jp = some q' ∧ q'.Holds (l.erase jp)) ↔ aloneOrInside l jp = true := by
  obtain ⟨l₁, l₂, rfl⟩ := List.append_of_mem hjp
  have hnd := h.nodup
  have hout : jp ∉ l₁ ∧ jp ∉ l₂ := by
    rw [List.nodup_append] at hnd
    exact ⟨fun hm => hnd.2.2 jp hm jp (by simp) rfl, (List.nodup_cons.mp hnd.2.1).1⟩
  rw [List.erase_append_right _ hout.1, List.erase_cons_head]
  rcases List.eq_nil_or_concat' l₁ with rfl | ⟨l₁, a, rfl⟩ <;> cases l₂ with
  | nil => ?_
  | cons b l₂ => ?_
  · exact iff_of_true (remove_alone h) (by simp [aloneOrInside])
  · refine iff_of_false ?_ (by simp [aloneOrInside])
    rintro ⟨q', hr, hq'⟩
    exact remove_first h hr hq'
  · have hlen : l₁ ++ [a] ++ [jp] ≠ [jp] := fun he => by simpa using congrArg List.length he
    refine iff_of_false ?_ (by simpa [aloneOrInside] using hlen)
    rintro ⟨q', hr, hq'⟩
    rw [List.append_nil] at hq'
    exact remove_last h hr hq'
  · refine iff_of_true (remove_inside h) ?_
    have hhead : (l₁ ++ [a] ++ jp :: b :: l₂).head? ≠ some jp := by
      rw [List.head?_append_of_ne_nil _ (by simp)]
      exact fun he => hout.1 (List.mem_of_head? he)
    have hlast : (l₁ ++ [a] ++ jp :: b :: l₂).getLast? ≠ some jp := by
      rw [List.getLast?_append_cons, List.getLast?_cons_cons]
      exact fun he => hout.2 (List.mem_of_getLast? he)
    simp only [aloneOrInside, Bool.or_eq_true, Bool.and_eq_true, decide_eq_true_eq]
    exact .inr ⟨hhead, hlast⟩

/-- The loop goes through the chain and stops at the first job with the id. -/
theorem findFrom_chain (jId : Addr → ThreadId) (id : ThreadId) {p : Option Addr} {n : ℕ}
    (h : Chain q.next p l) (hn : l.length ≤ n) :
    findFrom q jId id n p = some (l.find? fun jp => jId jp = id) := by
  induction l generalizing p n with
  | nil =>
    obtain rfl : p = none := h
    cases n <;> rfl
  | cons a l ih =>
    obtain ⟨rfl, h⟩ := h
    cases n with
    | zero => simp at hn
    | succ n =>
      have hrest := ih h (by simpa using hn)
      by_cases ha : jId a = id
      · simp [findFrom, ha]
      · simp [findFrom, ha, hrest]

end Operations

/-- What is claimed of the queue: both directions read the jobs, and `job_find` returns a job of
the queue with that id, or null when there is none. -/
structure WellFormed (s : State) : Prop where
  links : s.queue.Holds s.jobs
  found : ∀ jId id n, s.jobs.length ≤ n →
    ∃ r, jobFind s.queue jId true id n = some r ∧
      (∀ jp, r = some jp → jp ∈ s.jobs ∧ jId jp = id) ∧
      (r = none → ∀ jp ∈ s.jobs, jId jp ≠ id)

theorem wellFormed_of_holds {s : State} (h : s.queue.Holds s.jobs) : WellFormed s := by
  refine ⟨h, fun jId id n hn => ⟨_, findFrom_chain jId id h.forward hn, fun jp hjp => ?_, fun hnone => ?_⟩⟩
  · exact ⟨List.mem_of_find?_eq_some hjp, by simpa using List.find?_some hjp⟩
  · simpa using hnone

theorem holds_next {s t : State} {a : Action} (h : s.queue.Holds s.jobs)
    (hok : (proper s a && removesInside s a) = true) (ht : next s a = some t) :
    t.queue.Holds t.jobs := by
  simp only [Bool.and_eq_true] at hok
  cases a with
  | insert jp =>
    cases ht
    exact holds_insert h (by simpa [proper] using hok.1)
  | append jp =>
    cases ht
    exact holds_append h (by simpa [proper] using hok.1)
  | remove jp =>
    obtain ⟨q', hr, rfl⟩ := Option.map_eq_some_iff.mp ht
    obtain ⟨q'', hr', hq⟩ := (jobRemove_holds_iff h (by simpa [proper] using hok.1)).mpr hok.2
    cases hr.symm.trans hr'
    exact hq

theorem queue_wellFormed (q : Queue) {s : State}
    (h : Run next (fun s a => (proper s a && removesInside s a) = true) (start q) s) :
    WellFormed s :=
  wellFormed_of_holds (h.invariant (I := fun s => s.queue.Holds s.jobs) (holds_init q)
    fun _ _ _ hs hok ht => holds_next hs hok ht)

def emptyQueue : Queue := ⟨none, none, fun _ => none, fun _ => none⟩

/-- Three jobs, the middle one removed, then a new one in front. -/
theorem queue_wellFormed_middle : ∃ s, s.jobs = [4, 1, 3] ∧ WellFormed s := by
  obtain ⟨s, hrun, hs⟩ := followAllowed_reaches (fun s a => proper s a && removesInside s a) next
    (start emptyQueue) [.append 1, .append 2, .append 3, .remove 2, .insert 4]
    (fun s => s.jobs = [4, 1, 3]) (by decide +kernel)
  exact ⟨s, of_decide_eq_true hs, queue_wellFormed emptyQueue hrun⟩

/-- Two jobs, the last one removed: the first still leads to it, and `job_find` returns it. -/
theorem removed_job_found :
    ∃ s, Run next (fun s a => proper s a = true) (start emptyQueue) s ∧ s.jobs = [1] ∧
      s.queue.tail = some 1 ∧ s.queue.next 1 = some 2 ∧
      jobFind s.queue (fun jp => jp + 10) true 12 2 = some (some 2) ∧ ¬ WellFormed s := by
  obtain ⟨s, hrun, hs⟩ := followAllowed_reaches proper next (start emptyQueue)
    [.append 1, .append 2, .remove 2]
    (fun s => s.jobs = [1] && s.queue.tail = some 1 && s.queue.next 1 = some 2 &&
      jobFind s.queue (fun jp => jp + 10) true 12 2 = some (some 2)) (by decide +kernel)
  simp only [Bool.and_eq_true, decide_eq_true_eq] at hs
  obtain ⟨⟨⟨hjobs, htail⟩, hnext⟩, hfind⟩ := hs
  refine ⟨s, hrun, hjobs, htail, hnext, hfind, fun hwf => ?_⟩
  obtain ⟨r, hr, hmem, -⟩ := hwf.found (fun jp => jp + 10) 12 2 (by simp [hjobs])
  cases hfind.symm.trans hr
  have := (hmem 2 rfl).1
  simp [hjobs] at this

end JobQueue
