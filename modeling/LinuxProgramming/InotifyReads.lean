import LinuxProgramming.InotifyMonitor
import LinuxProgramming.ByteMachines
import Mathlib.Algebra.Ring.Nat

/-! # Reading the events

A call of `processInotifyEvents` reads some events and processes them; a directory that is moved
from its place at the end of what was read makes it read again. The events that the calls of `read`
return, one after the other, are a parameter. When there are no more, a second read is interrupted
by the alarm and there are no further calls. -/
namespace InotifyReads

open InotifyMonitor StateTransition ByteMachines

def bytes (events : List Event) : ℕ := (events.map Event.size).sum

inductive Stop where
  | exited
  | undefined
  deriving DecidableEq, Repr

/-- `buf` are the events from `evp` on and `size` the bytes from there to the end of what was read,
`buf + numRead - evp`. -/
structure Reader where
  monitor : Monitor
  reads : List (List Event)
  buf : List Event
  size : ℤ
  firstTry : Bool
  consumed : List (List Event)
  reinits : ℕ
  stopped : Option Stop
  deriving DecidableEq, Repr

/-- The second read, behind an event that hangs. The interrupted one returns -1, which is added to
`numRead` all the same. -/
def Reader.readMore (r : Reader) : Reader :=
  match r.reads with
  | [] => { r with size := r.size - 1, firstTry := false }
  | events :: reads =>
    { r with
      reads := reads
      buf := r.buf ++ events
      size := r.size + bytes events
      firstTry := false }

/-- What the loop does with the value for the event at `evp`. -/
def Reader.advance (r : Reader) : Reply × Monitor → Reader
  | (.consumed events, m) =>
    { r with
      monitor := m
      buf := r.buf.drop events.length
      size := r.size - bytes events
      firstTry := true
      consumed := r.consumed ++ [events] }
  | (.discarded, m) =>
    { r with monitor := m, buf := [], size := 0, firstTry := true, reinits := r.reinits + 1 }
  | (.hanging, m) => { r with monitor := m }.readMore
  | (.exited, m) => { r with monitor := m, stopped := some .exited }
  | (.undefined, m) => { r with monitor := m, stopped := some .undefined }

def Reader.nextEv (r : Reader) (ev : Event) : Option Event :=
  if (ev.size : ℤ) < r.size then r.buf[1]? else none

/-- A turn of the loop of `processInotifyEvents`, or the first read of the next call of it. -/
def step (w : World) (r : Reader) : Option Reader :=
  if r.stopped ≠ none then none
  else if 0 < r.size then
    match r.buf with
    | [] => none
    | ev :: _ =>
      some (r.advance (processNextInotifyEvent w r.monitor ev (r.nextEv ev) r.firstTry))
  else
    match r.reads with
    | [] => none
    | events :: reads =>
      some { r with reads := reads, buf := events, size := bytes events, firstTry := true }

def start (m : Monitor) (reads : List (List Event)) : Reader :=
  ⟨m, reads, [], 0, true, [], 0, none⟩

def Ends (w : World) (m : Monitor) (reads : List (List Event)) (r : Reader) : Prop :=
  Reaches (step w) (start m reads) r ∧ step w r = none

/-! ## Processing without a buffer -/

/-- The events that are still to come, as if all of them had been read. -/
structure Queue where
  monitor : Monitor
  pending : List Event
  consumed : List (List Event)
  stopped : Option Stop
  reinitialized : Bool
  deriving DecidableEq, Repr

def Queue.advance (q : Queue) : Reply × Monitor → Queue
  | (.consumed events, m) =>
    { q with
      monitor := m
      pending := q.pending.drop events.length
      consumed := q.consumed ++ [events] }
  | (.discarded, m) => { q with monitor := m, reinitialized := true }
  | (.hanging, m) => { q with monitor := m }
  | (.exited, m) => { q with monitor := m, stopped := some .exited }
  | (.undefined, m) => { q with monitor := m, stopped := some .undefined }

def qstep (w : World) (q : Queue) : Option Queue :=
  if q.stopped ≠ none ∨ q.reinitialized then none
  else
    match q.pending with
    | [] => none
    | ev :: more => some (q.advance (processNextInotifyEvent w q.monitor ev more.head? false))

def Reader.erase (r : Reader) : Queue :=
  ⟨r.monitor, r.buf ++ r.reads.flatten, r.consumed, r.stopped, false⟩

/-! ## One event -/

def hangs (ev : Event) : Bool := !ev.arrives && !ev.mask.deleteSelf && ev.departs

/-- A directory is moved from its place, and the next event says where to. -/
def pairs (ev nextEv : Event) : Bool := hangs ev && ev.matches nextEv

def unit (ev : Event) (nextEv : Option Event) : List Event :=
  ev :: (nextEv.filter (pairs ev)).toList

/-- Events are consumed if the process goes on with the cache as it is. -/
inductive Takes (events : List Event) : Reply → Prop where
  | consumed : Takes events (.consumed events)
  | discarded : Takes events .discarded
  | exited : Takes events .exited

section OneEvent

variable {w : World} {m : Monitor} {ev : Event} {nextEv nextEv' : Option Event} {firstTry : Bool}
  {events : List Event}

theorem takes_finish {reply : Reply} (h : Takes events reply) (r : Except Monitor Monitor) :
    Takes events (finish reply r).1 := by
  cases r with
  | ok m => exact h
  | error m => exact .exited

theorem takes_rebuild : Takes events (rebuild w m).1 := takes_finish .discarded _

theorem takes_zapOrRebuild {path : InotifyDtree.Path} : Takes [ev] (zapOrRebuild w ev m path).1 := by
  simp only [zapOrRebuild]
  split
  · exact .consumed
  · exact takes_rebuild

theorem handle_of_hangs (h : hangs ev = true) (slot : Option ℕ) :
    handle w m ev nextEv firstTry slot = movedFrom w m ev nextEv firstTry slot := by
  simp only [hangs, Bool.and_eq_true, Bool.not_eq_true'] at h
  simp [handle, h]

theorem handle_of_not_hangs (h : hangs ev = false) (slot : Option ℕ) :
    handle w m ev nextEv firstTry slot = handle w m ev nextEv' false slot := by
  simp only [handle]
  split
  · rfl
  · split
    · rfl
    · rename_i harrives hdelete
      have hdeparts : ev.departs = false := by
        simpa [hangs, harrives, hdelete] using h
      rw [hdeparts]
      rfl

/-- The value does not depend on how much has been read, unless it asks for more. -/
theorem process_agrees (w : World) (m : Monitor) (ev : Event)
    (h : nextEv = nextEv' ∨ nextEv = none ∧ firstTry = true) :
    processNextInotifyEvent w m ev nextEv firstTry = (.hanging, m) ∨
      processNextInotifyEvent w m ev nextEv firstTry =
        processNextInotifyEvent w m ev nextEv' false := by
  have hhandle : ∀ slot, handle w m ev nextEv firstTry slot = (.hanging, m) ∨
      handle w m ev nextEv firstTry slot = handle w m ev nextEv' false slot := by
    intro slot
    cases hev : hangs ev with
    | false => exact .inr (handle_of_not_hangs hev slot)
    | true =>
      rw [handle_of_hangs hev, handle_of_hangs hev]
      cases firstTry with
      | false => exact .inr (by rw [h.resolve_right (by simp)])
      | true =>
        cases nextEv with
        | none => exact .inl rfl
        | some n =>
          obtain rfl := h.resolve_right (by simp)
          exact .inr rfl
  simp only [processNextInotifyEvent]
  split
  · split
    · exact .inr rfl
    · exact hhandle _
  · exact hhandle _

theorem handle_takes {slot : Option ℕ} (hslot : slot = none → ev.mask.onWatch = false)
    (h : hangs ev = false) : Takes [ev] (handle w m ev nextEv firstTry slot).1 := by
  cases slot with
  | none =>
    have hmask := hslot rfl
    simp only [Mask.onWatch, Bool.or_eq_false_iff] at hmask
    simp only [handle, Event.arrives, Event.departs, hmask]
    simp only [Bool.or_self, Bool.and_false, Bool.false_and, Bool.false_eq_true, if_false]
    split
    · exact takes_rebuild
    · exact .consumed
  | some slot =>
    simp only [handle, withSlot]
    split
    · split
      · exact .consumed
      · exact takes_finish .consumed _
    · split
      · split
        · exact takes_finish .consumed _
        · exact .consumed
      · rename_i harrives hdelete
        have hdeparts : ev.departs = false := by
          simpa [hangs, harrives, hdelete] using h
        simp only [hdeparts, Bool.false_eq_true, if_false]
        split
        · exact takes_rebuild
        · split
          · exact .consumed
          · split
            · split
              · split
                · exact .exited
                · exact takes_zapOrRebuild
              · exact .consumed
            · exact .consumed

theorem unit_of_pairs {n : Event} (h : pairs ev n = true) : unit ev (some n) = [ev, n] := by
  simp [unit, Option.filter, h]

theorem unit_of_not_pairs {n : Event} (h : pairs ev n = false) : unit ev (some n) = [ev] := by
  simp [unit, h]

theorem unit_of_not_hangs (h : hangs ev = false) : unit ev nextEv = [ev] := by
  cases nextEv <;> simp [unit, pairs, h]

theorem movedFrom_takes {slot : ℕ} (h : hangs ev = true) :
    movedFrom w m ev nextEv firstTry (some slot) = (.hanging, m) ∧ nextEv = none ∧ firstTry = true ∨
      Takes (unit ev nextEv) (movedFrom w m ev nextEv firstTry (some slot)).1 := by
  cases nextEv with
  | none =>
    cases firstTry with
    | true => exact .inl ⟨rfl, rfl, rfl⟩
    | false => exact .inr takes_zapOrRebuild
  | some n =>
    right
    simp only [movedFrom]
    cases hmatch : ev.matches n with
    | true =>
      rw [unit_of_pairs (by simp [pairs, h, hmatch]), if_pos rfl, renamed]
      split
      · exact takes_rebuild
      · exact .consumed
    | false =>
      rw [unit_of_not_pairs (by simp [pairs, hmatch]), if_neg (by simp)]
      exact takes_zapOrRebuild

/-- A value other than -1 is for the events that belong together. -/
theorem process_takes (w : World) (m : Monitor) (ev : Event) (nextEv : Option Event) (firstTry : Bool) :
    processNextInotifyEvent w m ev nextEv firstTry = (.hanging, m) ∧ nextEv = none ∧
        firstTry = true ∨
      Takes (unit ev nextEv) (processNextInotifyEvent w m ev nextEv firstTry).1 := by
  simp only [processNextInotifyEvent]
  split
  · split
    · exact .inr takes_rebuild
    · cases hev : hangs ev with
      | true =>
        rw [handle_of_hangs hev]
        exact movedFrom_takes hev
      | false =>
        rw [unit_of_not_hangs hev]
        exact .inr (handle_takes (by simp) hev)
  · rename_i hwd
    have hmask : ev.mask.onWatch = false := by
      apply ev.watched
      by_contra h
      rw [not_or] at h
      exact hwd ⟨h.1, Bool.eq_false_iff.mpr h.2⟩
    have hev : hangs ev = false := by
      simp only [Mask.onWatch, Bool.or_eq_false_iff] at hmask
      simp [hangs, Event.departs, hmask]
    rw [unit_of_not_hangs hev]
    exact .inr (handle_takes (fun _ => hmask) hev)

end OneEvent

/-! ## The buffer -/

section Buffer

variable {w : World} {r r' : Reader} {ev : Event} {more : List Event}

theorem bytes_append (events events' : List Event) :
    bytes (events ++ events') = bytes events + bytes events' := by
  simp [bytes]

theorem bytes_pos {events : List Event} (h : events ≠ []) : 16 ≤ bytes events := by
  obtain ⟨ev, more, rfl⟩ := List.exists_cons_of_ne_nil h
  simp only [bytes, List.map_cons, List.sum_cons, Event.size]
  omega

/-- The events that are consumed at once are the first of the buffer. -/
theorem exists_unit_append (ev : Event) (more : List Event) :
    ∃ rest, ev :: more = unit ev more.head? ++ rest := by
  cases more with
  | nil => exact ⟨[], rfl⟩
  | cons n more =>
    cases h : pairs ev n with
    | true => exact ⟨more, by rw [List.head?_cons, unit_of_pairs h]; rfl⟩
    | false => exact ⟨n :: more, by rw [List.head?_cons, unit_of_not_pairs h]; rfl⟩

/-- What is known between two turns of the loop. The last of the events may have been read without
its last byte being counted. -/
structure Inv (r : Reader) : Prop where
  reads : ∀ events ∈ r.reads, events ≠ []
  tried : r.firstTry = false → 2 ≤ r.buf.length ∨ r.reads = []
  size : r.size = bytes r.buf ∨
    r.size = bytes r.buf - 1 ∧ r.reads = [] ∧ (r.buf = [] ∨ r.buf.length = 1 ∧ r.firstTry = false)

theorem Inv.nextEv_eq (h : Inv r) (hbuf : r.buf = ev :: more) : r.nextEv ev = more.head? := by
  have hcons : bytes (ev :: more) = ev.size + bytes more := rfl
  have hhead : r.buf[1]? = more.head? := by rw [hbuf, List.head?_eq_getElem?]; rfl
  rw [Reader.nextEv, hhead]
  cases more with
  | nil => simp
  | cons n more =>
    have hpos : 16 ≤ bytes (n :: more) := bytes_pos (List.cons_ne_nil _ _)
    refine if_pos ?_
    rcases h.size with hsize | ⟨-, -, hnil | ⟨hone, -⟩⟩
    · rw [hsize, hbuf, hcons]
      omega
    · rw [hbuf] at hnil
      cases hnil
    · rw [hbuf] at hone
      simp at hone

/-- The event behind the first one has been read, or the first one is tried for the first time. -/
theorem Inv.looks (h : Inv r) (hbuf : r.buf = ev :: more) :
    r.nextEv ev = (more ++ r.reads.flatten).head? ∨ r.nextEv ev = none ∧ r.firstTry = true := by
  rw [h.nextEv_eq hbuf]
  cases more with
  | cons n more => exact .inl rfl
  | nil =>
    cases hfirst : r.firstTry with
    | true => exact .inr ⟨rfl, rfl⟩
    | false =>
      left
      have hreads : r.reads = [] := (h.tried hfirst).resolve_left (by simp [hbuf])
      rw [hreads]
      rfl

theorem step_cases (h : step w r = some r') :
    r.stopped = none ∧
      ((0 < r.size ∧ ∃ ev more, r.buf = ev :: more ∧
          r' = r.advance (processNextInotifyEvent w r.monitor ev (r.nextEv ev) r.firstTry)) ∨
        (r.size ≤ 0 ∧ ∃ events reads, r.reads = events :: reads ∧
          r' = { r with reads := reads, buf := events, size := bytes events, firstTry := true })) := by
  simp only [step] at h
  split at h
  · cases h
  · rename_i hstopped
    refine ⟨not_not.mp hstopped, ?_⟩
    split at h
    · rename_i hsize
      cases hbuf : r.buf with
      | nil => simp [hbuf] at h
      | cons ev more =>
        simp only [hbuf, Option.some.injEq] at h
        exact .inl ⟨hsize, ev, more, rfl, h.symm⟩
    · rename_i hsize
      cases hreads : r.reads with
      | nil => simp [hreads] at h
      | cons events reads =>
        simp only [hreads, Option.some.injEq] at h
        exact .inr ⟨not_lt.mp hsize, events, reads, rfl, h.symm⟩

/-- The reads are put off until the events at hand have been processed. -/
theorem Inv.read {events : List Event} {reads : List (List Event)} (h : Inv r) (hsize : r.size ≤ 0)
    (hreads : r.reads = events :: reads) :
    r.buf = [] ∧
      Inv { r with reads := reads, buf := events, size := bytes events, firstTry := true } := by
  constructor
  · by_contra hbuf
    have hpos := bytes_pos hbuf
    rcases h.size with hs | ⟨-, hnil, -⟩
    · omega
    · rw [hreads] at hnil
      cases hnil
  · refine ⟨?_, fun hf => by simp at hf, .inl rfl⟩
    intro p hp
    exact h.reads p (by simp [hreads, hp])

theorem Inv.readMore (h : Inv r) (hbuf : r.buf = [ev]) (hfirst : r.firstTry = true) :
    Inv r.readMore := by
  have hsize : r.size = bytes r.buf := by
    rcases h.size with hs | ⟨-, -, hnil | ⟨-, hf⟩⟩
    · exact hs
    · rw [hbuf] at hnil
      cases hnil
    · rw [hfirst] at hf
      cases hf
  cases hreads : r.reads with
  | nil =>
    simp only [Reader.readMore, hreads]
    refine ⟨by simp, fun _ => .inr rfl, .inr ⟨by rw [hsize], rfl, .inr ⟨by rw [hbuf]; rfl, rfl⟩⟩⟩
  | cons events reads =>
    simp only [Reader.readMore, hreads]
    have hne : events ≠ [] := h.reads events (by simp [hreads])
    refine ⟨fun p hp => h.reads p (by simp [hreads, hp]), fun _ => .inl ?_, .inl ?_⟩
    · have := List.length_pos_iff.mpr hne
      simp only [hbuf, List.length_append, List.length_singleton]
      omega
    · rw [hsize, bytes_append]
      push_cast
      rfl

theorem Inv.consumed {m : Monitor} {events rest : List Event} (h : Inv r)
    (hbuf : r.buf = events ++ rest) (hne : events ≠ []) :
    Inv (r.advance (.consumed events, m)) := by
  have hdrop : r.buf.drop events.length = rest := by rw [hbuf, List.drop_left]
  have hbytes : bytes r.buf = bytes events + bytes rest := by rw [hbuf, bytes_append]
  have hpos := List.length_pos_iff.mpr hne
  refine ⟨h.reads, fun hf => by simp [Reader.advance] at hf, ?_⟩
  simp only [Reader.advance, hdrop]
  rcases h.size with hs | ⟨hs, hreads, hshort⟩
  · left
    omega
  · have hrest : rest = [] := by
      have hlen : r.buf.length = events.length + rest.length := by rw [hbuf, List.length_append]
      apply List.eq_nil_of_length_eq_zero
      rcases hshort with hnil | ⟨hone, -⟩
      · rw [hnil, List.length_nil] at hlen
        omega
      · omega
    exact .inr ⟨by omega, hreads, .inl hrest⟩

theorem Inv.turn (h : Inv r) (hstep : step w r = some r') :
    (∃ events reads, r.reads = events :: reads ∧ r.buf = [] ∧
        r' = { r with reads := reads, buf := events, size := bytes events, firstTry := true }) ∨
      (∃ ev, r.buf = [ev] ∧ r.firstTry = true ∧ r' = r.readMore) ∨
      ∃ ev more reply, r.buf = ev :: more ∧
        reply = processNextInotifyEvent w r.monitor ev (more ++ r.reads.flatten).head? false ∧
        Takes (unit ev more.head?) reply.1 ∧ r' = r.advance reply := by
  obtain ⟨-, ⟨hsize, ev, more, hbuf, rfl⟩ | ⟨hsize, events, reads, hreads, rfl⟩⟩ := step_cases hstep
  · right
    rcases process_takes w r.monitor ev (r.nextEv ev) r.firstTry with ⟨hhang, hnone, hfirst⟩ | htakes
    · left
      have hmore : more = [] := by
        rw [h.nextEv_eq hbuf, List.head?_eq_none_iff] at hnone
        exact hnone
      rw [hhang]
      exact ⟨ev, by rw [hbuf, hmore], hfirst, rfl⟩
    · right
      rw [h.nextEv_eq hbuf] at htakes
      refine ⟨ev, more, _, hbuf, ?_, htakes, by rw [h.nextEv_eq hbuf]⟩
      rcases process_agrees w r.monitor ev (h.looks hbuf) with hhang | hsame
      · rw [← h.nextEv_eq hbuf, hhang] at htakes
        cases htakes
      · rw [← h.nextEv_eq hbuf, hsame]
  · exact .inl ⟨events, reads, hreads, (h.read hsize hreads).1, rfl⟩

theorem length_unit_le (ev : Event) (nextEv : Option Event) : (unit ev nextEv).length ≤ 2 := by
  cases nextEv with
  | none => simp [unit]
  | some n =>
    cases h : pairs ev n with
    | true => simp [unit_of_pairs h]
    | false => simp [unit_of_not_pairs h]

theorem unit_ne_nil (ev : Event) (nextEv : Option Event) : unit ev nextEv ≠ [] :=
  List.cons_ne_nil _ _

theorem inv_step (h : Inv r) (hstep : step w r = some r') : Inv r' := by
  rcases h.turn hstep with ⟨events, reads, hreads, hbuf, rfl⟩ | ⟨ev, hbuf, hfirst, rfl⟩ |
    ⟨ev, more, ⟨reply, m⟩, hbuf, -, htakes, rfl⟩
  · refine ⟨fun p hp => h.reads p (by simp [hreads, hp]), fun hf => by simp at hf, .inl rfl⟩
  · exact h.readMore hbuf hfirst
  · obtain ⟨rest, hrest⟩ := exists_unit_append ev more
    cases htakes with
    | consumed => exact h.consumed (hbuf.trans hrest) (unit_ne_nil _ _)
    | discarded => exact ⟨h.reads, fun hf => by simp [Reader.advance] at hf, .inl rfl⟩
    | exited => exact ⟨h.reads, h.tried, h.size⟩

theorem inv_start {m : Monitor} {reads : List (List Event)} (h : ∀ events ∈ reads, events ≠ []) :
    Inv (start m reads) :=
  ⟨h, fun hf => by simp [start] at hf, .inl rfl⟩

/-- A turn of the loop only reads, or it processes the next of the events that are to come. -/
theorem Inv.erase_step (h : Inv r) (hstep : step w r = some r') :
    (r'.reinits = r.reinits ∧ (r'.erase = r.erase ∨ qstep w r.erase = some r'.erase)) ∨
      (r'.reinits = r.reinits + 1 ∧ ∃ q, qstep w r.erase = some q ∧ q.reinitialized = true) := by
  have hgo : r.stopped = none := (step_cases hstep).1
  rcases h.turn hstep with ⟨events, reads, hreads, hbuf, rfl⟩ | ⟨ev, hbuf, hfirst, rfl⟩ |
    ⟨ev, more, ⟨reply, m⟩, hbuf, hreply, htakes, rfl⟩
  · refine .inl ⟨rfl, .inl ?_⟩
    simp [Reader.erase, hreads, hbuf]
  · refine .inl ?_
    cases hreads : r.reads <;> simp [Reader.readMore, Reader.erase, hreads]
  · have hq : qstep w r.erase = some (r.erase.advance (reply, m)) := by
      simp only [qstep, Reader.erase, hgo, hbuf, List.cons_append, hreply]
      simp
    obtain ⟨rest, hrest⟩ := exists_unit_append ev more
    cases htakes with
    | consumed =>
      refine .inl ⟨rfl, .inr ?_⟩
      rw [hq]
      simp only [Queue.advance, Reader.advance, Reader.erase, hbuf, hrest, List.append_assoc,
        List.drop_left]
    | discarded => exact .inr ⟨rfl, _, hq, rfl⟩
    | exited => exact .inl ⟨rfl, .inr hq⟩

def Reader.work (r : Reader) : ℕ :=
  2 * r.erase.pending.length + 2 * r.reads.length + (if r.firstTry then 1 else 0)

theorem Inv.work_lt (h : Inv r) (hstep : step w r = some r') :
    r'.stopped ≠ none ∨ r'.work < r.work := by
  rcases h.turn hstep with ⟨events, reads, hreads, hbuf, rfl⟩ | ⟨ev, hbuf, hfirst, rfl⟩ |
    ⟨ev, more, ⟨reply, m⟩, hbuf, hreply, htakes, rfl⟩
  · right
    simp only [Reader.work, Reader.erase, hreads, hbuf, List.flatten_cons, List.nil_append,
      List.length_cons, if_true]
    split <;> omega
  · right
    cases hreads : r.reads with
    | nil => simp [Reader.work, Reader.readMore, Reader.erase, hreads, hfirst]
    | cons events reads =>
      simp only [Reader.work, Reader.readMore, Reader.erase, hreads, hfirst, List.flatten_cons,
        List.append_assoc, List.length_cons, if_true, Bool.false_eq_true, if_false]
      omega
  · obtain ⟨rest, hrest⟩ := exists_unit_append ev more
    have hlen : (ev :: more).length = (unit ev more.head?).length + rest.length := by
      rw [hrest, List.length_append]
    have hunit : 0 < (unit ev more.head?).length := List.length_pos_iff.mpr (unit_ne_nil _ _)
    cases htakes with
    | consumed =>
      right
      simp only [Reader.work, Reader.advance, Reader.erase, hbuf, List.length_append,
        List.length_drop, if_true]
      split <;> omega
    | discarded =>
      right
      simp only [Reader.work, Reader.advance, Reader.erase, hbuf, List.length_append,
        List.length_nil, if_true]
      split <;> omega
    | exited => exact .inl (by simp [Reader.advance])

end Buffer

/-! ## Runs -/

def queueOf (m : Monitor) (events : List Event) : Queue := ⟨m, events, [], none, false⟩

section Runs

variable {w : World} {m : Monitor} {reads : List (List Event)} {events : List Event} {r : Reader}

/-- A run ends when the process does, or with nothing left to read. -/
theorem Inv.of_final (h : Inv r) (hfinal : step w r = none) :
    r.stopped ≠ none ∨ r.buf = [] ∧ r.reads = [] := by
  by_cases hstopped : r.stopped = none
  · right
    have hbuf : r.buf = [] := by
      by_contra hbuf
      obtain ⟨ev, more, hcons⟩ := List.exists_cons_of_ne_nil hbuf
      have hsize : 0 < r.size := by
        have := bytes_pos hbuf
        rcases h.size with hs | ⟨hs, -⟩ <;> omega
      simp [step, hstopped, hsize, hcons] at hfinal
    have hsize : ¬ 0 < r.size := by
      have hbytes : bytes r.buf = 0 := by rw [hbuf]; rfl
      rcases h.size with hs | ⟨hs, -⟩ <;> omega
    refine ⟨hbuf, ?_⟩
    by_contra hreads
    obtain ⟨p, ps, hcons⟩ := List.exists_cons_of_ne_nil hreads
    simp [step, hstopped, hsize, hcons] at hfinal
  · exact .inl hstopped

theorem exists_ends (w : World) (m : Monitor) (h : ∀ p ∈ reads, p ≠ []) :
    ∃ r, Ends w m reads r := by
  refine ends_of_work Reader.work (I := Inv) (fun r hr => ?_) (inv_start h)
  cases hstep : step w r with
  | none => exact .inl rfl
  | some r' =>
    refine .inr ⟨r', rfl, ?_⟩
    rcases hr.work_lt hstep with hstopped | hlt
    · exact .inl (if_pos hstopped)
    · exact .inr ⟨inv_step hr hstep, hlt⟩

/-- A run and the run of the queue, up to the first reinitialisation. -/
theorem reaches_erase (h : ∀ p ∈ reads, p ≠ []) (hrun : Reaches (step w) (start m reads) r) :
    Inv r ∧
      ((r.reinits = 0 ∧ Reaches (qstep w) (queueOf m reads.flatten) r.erase) ∨
        (0 < r.reinits ∧
          ∃ q, Reaches (qstep w) (queueOf m reads.flatten) q ∧ q.reinitialized = true)) := by
  induction hrun with
  | refl => exact ⟨inv_start h, .inl ⟨rfl, .refl⟩⟩
  | tail _ hstep ih =>
    obtain ⟨hinv, hqueue⟩ := ih
    refine ⟨inv_step hinv hstep, ?_⟩
    have herase := hinv.erase_step hstep
    rcases hqueue with ⟨hzero, hreach⟩ | ⟨hpos, hq⟩
    · rcases herase with ⟨hsame, heq | hnext⟩ | ⟨hmore, q, hnext, hreinit⟩
      · exact .inl ⟨hsame.trans hzero, by rw [heq]; exact hreach⟩
      · exact .inl ⟨hsame.trans hzero, hreach.tail hnext⟩
      · exact .inr ⟨by omega, q, hreach.tail hnext, hreinit⟩
    · refine .inr ⟨?_, hq⟩
      rcases herase with ⟨hsame, -⟩ | ⟨hmore, -⟩ <;> omega

theorem qstep_final {q : Queue} (h : q.stopped ≠ none ∨ q.reinitialized = true ∨ q.pending = []) :
    qstep w q = none := by
  simp only [qstep]
  split
  · rfl
  · rename_i hgo
    rw [not_or, not_not] at hgo
    have hpending : q.pending = [] := by
      rcases h with h | h | h
      · exact absurd hgo.1 h
      · exact absurd h hgo.2
      · exact h
    rw [hpending]

/-- Without a reinitialisation the end of a run is that of the queue, whatever the reads were. -/
theorem Ends.erase_final (h : ∀ p ∈ reads, p ≠ []) (hends : Ends w m reads r) :
    (r.reinits = 0 ∧ Reaches (qstep w) (queueOf m reads.flatten) r.erase ∧
        qstep w r.erase = none) ∨
      (0 < r.reinits ∧ ∃ q, Reaches (qstep w) (queueOf m reads.flatten) q ∧
        qstep w q = none ∧ q.reinitialized = true) := by
  obtain ⟨hinv, hrun⟩ := reaches_erase h hends.1
  rcases hrun with ⟨hzero, hreach⟩ | ⟨hpos, q, hreach, hreinit⟩
  · refine .inl ⟨hzero, hreach, qstep_final ?_⟩
    rcases hinv.of_final hends.2 with hstopped | ⟨hbuf, hreads⟩
    · exact .inl hstopped
    · exact .inr (.inr (by simp [Reader.erase, hbuf, hreads]))
  · exact .inr ⟨hpos, q, hreach, qstep_final (.inr (.inl hreinit)), hreinit⟩

theorem Ends.erase_eq {reads' : List (List Event)} {r' : Reader} (h : ∀ p ∈ reads, p ≠ [])
    (h' : ∀ p ∈ reads', p ≠ []) (hflat : reads'.flatten = reads.flatten) (hends : Ends w m reads r)
    (hends' : Ends w m reads' r') (hzero : r.reinits = 0) :
    r'.reinits = 0 ∧ r'.erase = r.erase := by
  rcases hends.erase_final h with ⟨-, hreach, hfinal⟩ | ⟨hpos, -⟩
  · rcases hends'.erase_final h' with ⟨hzero', hreach', hfinal'⟩ | ⟨-, q, hreach', hfinal', hreinit⟩
    · rw [hflat] at hreach'
      exact ⟨hzero', final_unique hreach' hreach hfinal' hfinal⟩
    · rw [hflat] at hreach'
      rw [final_unique hreach' hreach hfinal' hfinal] at hreinit
      cases hreinit
  · omega

end Runs

/-! ## What is consumed -/

/-- The events are consumed in order, each of them once, and a rename as a whole. -/
structure ConsumedOnce (events : List Event) (q : Queue) : Prop where
  order : q.consumed.flatten ++ q.pending = events
  together : ∀ before ev nextEv after, events = before ++ ev :: nextEv :: after →
    pairs ev nextEv = true → before.length < q.consumed.flatten.length →
      ∃ us us', q.consumed = us ++ [ev, nextEv] :: us' ∧ us.flatten = before
  defined : q.stopped ≠ some .undefined

section Consumed

variable {w : World} {q q' : Queue} {events : List Event}

theorem qstep_cases (h : qstep w q = some q') :
    q.stopped = none ∧ ∃ ev more reply m, q.pending = ev :: more ∧ Takes (unit ev more.head?) reply ∧
      q' = q.advance (reply, m) := by
  simp only [qstep] at h
  split at h
  · cases h
  · rename_i hgo
    rw [not_or, not_not] at hgo
    refine ⟨hgo.1, ?_⟩
    cases hpending : q.pending with
    | nil => simp [hpending] at h
    | cons ev more =>
      simp only [hpending, Option.some.injEq] at h
      refine ⟨ev, more, _, _, rfl, ?_, h.symm⟩
      exact (process_takes _ _ _ _ _).resolve_left fun hhang => by simp at hhang

theorem not_pairs_of_pairs {ev ev' nextEv : Event} (h : pairs ev ev' = true) :
    pairs ev' nextEv = false := by
  simp only [pairs, Event.matches, Bool.and_eq_true] at h
  cases hdir : ev'.mask.isDir <;> simp [pairs, hangs, Event.arrives, Event.departs, h, hdir]

theorem ConsumedOnce.consume {ev : Event} {more : List Event} {m : Monitor}
    (h : ConsumedOnce events q) (hpending : q.pending = ev :: more) :
    ConsumedOnce events (q.advance (.consumed (unit ev more.head?), m)) := by
  obtain ⟨rest, hrest⟩ := exists_unit_append ev more
  have horder := h.order
  rw [hpending] at horder
  refine ⟨?_, ?_, h.defined⟩
  · simp only [Queue.advance, hpending, List.flatten_append, List.flatten_singleton]
    rw [← horder, hrest, List.drop_left, List.append_assoc]
  · intro before e n after hsplit hpair hlen
    simp only [Queue.advance, List.flatten_append, List.flatten_singleton, List.length_append]
      at hlen ⊢
    by_cases hold : before.length < q.consumed.flatten.length
    · obtain ⟨us, us', hus, hflat⟩ := h.together before e n after hsplit hpair hold
      exact ⟨us, us' ++ [unit ev more.head?], by rw [hus]; simp, hflat⟩
    · obtain ⟨d, rfl⟩ : q.consumed.flatten <+: before :=
        List.prefix_of_prefix_length_le ⟨_, horder⟩ ⟨_, hsplit.symm⟩ (by omega)
      rw [hsplit, List.append_assoc, List.append_cancel_left_eq] at horder
      cases d with
      | nil =>
        obtain ⟨rfl, rfl⟩ : ev = e ∧ more = n :: after := by simpa using horder
        exact ⟨q.consumed, [], by rw [List.head?_cons, unit_of_pairs hpair], by simp⟩
      | cons x d =>
        -- a rename would have to begin with the event that ends another one
        have hunit := length_unit_le ev more.head?
        obtain rfl : d = [] := by
          apply List.eq_nil_of_length_eq_zero
          simp only [List.length_append, List.length_cons] at hlen
          omega
        obtain ⟨rfl, rfl⟩ : ev = x ∧ more = e :: n :: after := by simpa using horder
        cases hprev : pairs ev e with
        | true => simp [not_pairs_of_pairs hprev] at hpair
        | false => simp [unit_of_not_pairs hprev] at hlen

theorem consumedOnce_step (h : ConsumedOnce events q) (hstep : qstep w q = some q') :
    ConsumedOnce events q' := by
  obtain ⟨-, ev, more, reply, m, hpending, htakes, rfl⟩ := qstep_cases hstep
  cases htakes with
  | consumed => exact h.consume hpending
  | discarded => exact ⟨h.order, h.together, h.defined⟩
  | exited => exact ⟨h.order, h.together, by simp [Queue.advance]⟩

theorem consumedOnce_start (m : Monitor) (events : List Event) :
    ConsumedOnce events (queueOf m events) :=
  ⟨rfl, fun _ _ _ _ _ _ hlen => by simp [queueOf] at hlen, by simp [queueOf]⟩

theorem Ends.consumedOnce {m : Monitor} {reads : List (List Event)} {r : Reader}
    (h : ∀ p ∈ reads, p ≠ []) (hends : Ends w m reads r) (hzero : r.reinits = 0) :
    ConsumedOnce reads.flatten r.erase := by
  rcases hends.erase_final h with ⟨-, hreach, -⟩ | ⟨hpos, -⟩
  · exact reaches_invariant hreach (consumedOnce_start m _) fun _ _ hq hstep =>
      consumedOnce_step hq hstep
  · omega

end Consumed

/-! ## Reads -/

/-- The run is accounted for: the operations, the cache and the rest of the state are those of another
run, the events are consumed in order and each of them once, all of them unless the process exits,
and the two events of a rename of a directory together. -/
structure SameAs (events : List Event) (one r : Reader) : Prop where
  monitor : r.monitor = one.monitor
  stopped : r.stopped = one.stopped
  consumed : r.consumed = one.consumed
  order : r.consumed.flatten <+: events
  defined : r.stopped ≠ some .undefined
  all : r.stopped = none → r.consumed.flatten = events
  together : ∀ before ev nextEv after, events = before ++ ev :: nextEv :: after →
    pairs ev nextEv = true → before.length < r.consumed.flatten.length →
      ∃ us us', r.consumed = us ++ [ev, nextEv] :: us' ∧ us.flatten = before

/-- Events that are read at once are processed; and every way to cut them into reads does the same,
if that run has no reinitialisation. -/
theorem reads_agree (w : World) (m : Monitor) {events : List Event} (hne : events ≠ []) :
    ∃ one, Ends w m [events] one ∧
      (one.reinits = 0 → ∀ reads : List (List Event), (∀ p ∈ reads, p ≠ []) →
        reads.flatten = events → ∃ r, Ends w m reads r ∧ r.reinits = 0 ∧ SameAs events one r) := by
  have hone : ∀ p ∈ [events], p ≠ [] := by simpa using hne
  obtain ⟨one, hends⟩ := exists_ends w m hone
  refine ⟨one, hends, fun hzero reads hreads hflat => ?_⟩
  obtain ⟨r, hr⟩ := exists_ends w m hreads
  have hsame : reads.flatten = [events].flatten := by rw [hflat, List.flatten_singleton]
  obtain ⟨hzero', herase⟩ := Ends.erase_eq hone hreads hsame hends hr hzero
  have hconsumed := hr.consumedOnce hreads hzero'
  rw [hflat] at hconsumed
  refine ⟨r, hr, hzero', ?_⟩
  constructor
  · exact congrArg Queue.monitor herase
  · exact congrArg Queue.stopped herase
  · exact congrArg Queue.consumed herase
  · exact ⟨_, hconsumed.order⟩
  · exact hconsumed.defined
  · intro hgo
    have hfinal := (reaches_erase hreads hr.1).1.of_final hr.2
    obtain ⟨hbuf, hnil⟩ := hfinal.resolve_left (not_not_intro hgo)
    have horder := hconsumed.order
    simpa [Reader.erase, hbuf, hnil] using horder
  · exact hconsumed.together

def nested : Monitor := ⟨[⟨some 1, [97]⟩, ⟨some 2, [97, 47, 98]⟩], [some [97]], 0, 0, 0, []⟩

def quiet : World := ⟨fun _ _ => [], fun _ _ => .enoent, fun _ _ => true⟩

def fromEvent : Event where
  wd := some 1
  mask := ⟨false, true, false, false, false, false, false, false, true⟩
  cookie := 7
  len := 16
  name := [98]
  watched := by decide

def toEvent : Event where
  wd := some 1
  mask := ⟨false, false, true, false, false, false, false, false, true⟩
  cookie := 7
  len := 16
  name := [99]
  watched := by decide

def afterRename : Reader where
  monitor :=
    { nested with
      cache := [⟨some 1, [97]⟩, ⟨some 2, [97, 47, 99]⟩]
      ops := [.rewriteCachedPaths [97] [98] [97] [99]] }
  reads := []
  buf := []
  size := 0
  firstTry := true
  consumed := [[fromEvent, toEvent]]
  reinits := 0
  stopped := none

theorem reads_agree_rename :
    ∃ r, Ends quiet nested [[fromEvent], [toEvent]] r ∧ r.consumed = [[fromEvent, toEvent]] ∧
      r.monitor = afterRename.monitor := by
  obtain ⟨one, hone, h⟩ := reads_agree quiet nested (List.cons_ne_nil fromEvent [toEvent])
  have hread : step quiet (start nested [[fromEvent, toEvent]]) =
      some ⟨nested, [], [fromEvent, toEvent], 64, true, [], 0, none⟩ := by decide +kernel
  have hrename : step quiet ⟨nested, [], [fromEvent, toEvent], 64, true, [], 0, none⟩ =
      some afterRename := by decide +kernel
  have hfinal : one = afterRename :=
    final_unique hone.1 ((reaches_step hread).tail hrename) hone.2 (by decide +kernel)
  obtain ⟨r, hr, -, hsame⟩ := h (by rw [hfinal]; rfl) [[fromEvent], [toEvent]] (by simp) rfl
  exact ⟨r, hr, by rw [hsame.consumed, hfinal]; rfl, by rw [hsame.monitor, hfinal]⟩

end InotifyReads
