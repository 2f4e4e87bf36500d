import LinuxProgramming.Interleaving
import LinuxProgramming.DoublyLinked

/-! # The list of worker threads

`add_worker`, `client_cleanup` and `kill_workers` statement by statement. A thread is named
by its thread ID, which may be used again after the thread has ended. -/
namespace PrintdWorkers

open Interleaving DoublyLinked Function

abbrev Addr := ℕ

inductive Who where
  | client (tid : ℕ)
  | signal
  deriving DecidableEq, Repr

structure Shared where
  workers : Option Addr
  next : Addr → Option Addr
  prev : Addr → Option Addr
  tid : Addr → ℕ
  sockfd : Addr → ℕ
  live : Addr → Bool
  lock : Option Who
  cancelled : ℕ → Bool
  /-- What a thread has closed in `client_cleanup` since it began. -/
  closed : ℕ → List ℕ

/-- `added` says whether `add_worker` was completed; the code does not keep it. -/
inductive Pc where
  | idle
  | addMalloc (sockfd : ℕ)
  | addLock (sockfd : ℕ) (wtp : Addr)
  | addPrev (sockfd : ℕ) (wtp : Addr)
  | addNext (sockfd : ℕ) (wtp : Addr)
  | addLink (sockfd : ℕ) (wtp : Addr)
  | addUnlock (sockfd : ℕ) (wtp : Addr)
  | working (sockfd : ℕ)
  | cleanupLock (sockfd : ℕ) (added : Bool)
  | cleanupScan (sockfd : ℕ) (added : Bool) (wtp : Option Addr)
  | cleanupNext (sockfd : ℕ) (wtp : Addr)
  | cleanupPrev (sockfd : ℕ) (wtp : Addr)
  | cleanupUnlock (sockfd : ℕ) (wtp : Option Addr)
  | cleanupClose (sockfd : ℕ) (wtp : Addr)
  | cleanupFree (sockfd : ℕ) (wtp : Addr)
  | finished (sockfd : ℕ)
  | killLock
  | killScan (wtp : Option Addr)
  | killUnlock
  deriving DecidableEq, Repr

inductive Act where
  | start (sockfd : ℕ)
  | addr (a : Addr)
  | nomem
  | go
  deriving DecidableEq, Repr

def Shared.take (s : Shared) (t : Who) : Option Shared :=
  if s.lock = none then some { s with lock := some t } else none

def addWorker (s : Shared) (tid : ℕ) (ans : Act) : Pc → Option (Shared × Pc)
  | .addMalloc sockfd =>
    match ans with
    | .addr wtp =>
      if s.live wtp then none
      else some ({ s with
        live := Function.update s.live wtp true
        tid := Function.update s.tid wtp tid
        sockfd := Function.update s.sockfd wtp sockfd }, .addLock sockfd wtp)
    -- pthread_exit runs the cleanup handler
    | .nomem => some (s, .cleanupLock sockfd false)
    | _ => none
  | .addLock sockfd wtp => (s.take (.client tid)).map fun s => (s, .addPrev sockfd wtp)
  | .addPrev sockfd wtp =>
    some ({ s with prev := Function.update s.prev wtp none }, .addNext sockfd wtp)
  | .addNext sockfd wtp =>
    some ({ s with next := Function.update s.next wtp s.workers }, .addLink sockfd wtp)
  | .addLink sockfd wtp =>
    match s.workers with
    | none => some ({ s with workers := some wtp }, .addUnlock sockfd wtp)
    | some a => some ({ s with prev := Function.update s.prev a (some wtp) }, .addUnlock sockfd wtp)
  | .addUnlock sockfd _ => some ({ s with lock := none }, .working sockfd)
  | _ => none

def clientCleanup (s : Shared) (tid : ℕ) : Pc → Option (Shared × Pc)
  | .cleanupLock sockfd added =>
    (s.take (.client tid)).map fun s => (s, .cleanupScan sockfd added s.workers)
  | .cleanupScan sockfd _ none => some (s, .cleanupUnlock sockfd none)
  | .cleanupScan sockfd added (some wtp) =>
    if s.tid wtp = tid then some (s, .cleanupNext sockfd wtp)
    else some (s, .cleanupScan sockfd added (s.next wtp))
  | .cleanupNext sockfd wtp =>
    match s.next wtp with
    | some a => some ({ s with prev := Function.update s.prev a (s.prev wtp) }, .cleanupPrev sockfd wtp)
    | none => some (s, .cleanupPrev sockfd wtp)
  | .cleanupPrev sockfd wtp =>
    match s.prev wtp with
    | some a =>
      some ({ s with next := Function.update s.next a (s.next wtp) }, .cleanupUnlock sockfd (some wtp))
    | none => some ({ s with workers := s.next wtp }, .cleanupUnlock sockfd (some wtp))
  | .cleanupUnlock sockfd none => some ({ s with lock := none }, .finished sockfd)
  | .cleanupUnlock sockfd (some wtp) => some ({ s with lock := none }, .cleanupClose sockfd wtp)
  | .cleanupClose sockfd wtp =>
    some ({ s with closed := Function.update s.closed tid (s.closed tid ++ [s.sockfd wtp]) },
      .cleanupFree sockfd wtp)
  | .cleanupFree sockfd wtp =>
    some ({ s with live := Function.update s.live wtp false }, .finished sockfd)
  | _ => none

/-- A client thread works until it exits or is cancelled; both run the cleanup handler. -/
def clientThread (s : Shared) (tid : ℕ) (ans : Act) : Pc → Option (Shared × Pc)
  | .idle | .finished _ =>
    match ans with
    | .start sockfd => some ({ s with
        cancelled := Function.update s.cancelled tid false
        closed := Function.update s.closed tid [] }, .addMalloc sockfd)
    | _ => none
  | .working sockfd => some (s, .cleanupLock sockfd true)
  | pc => (addWorker s tid ans pc).or (clientCleanup s tid pc)

def killWorkers (s : Shared) : Pc → Option (Shared × Pc)
  | .idle => some (s, .killLock)
  | .killLock => (s.take .signal).map fun s => (s, .killScan s.workers)
  | .killScan none => some (s, .killUnlock)
  | .killScan (some wtp) =>
    some ({ s with cancelled := Function.update s.cancelled (s.tid wtp) true }, .killScan (s.next wtp))
  | .killUnlock => some ({ s with lock := none }, .idle)
  | _ => none

def act (s : Shared) (t : Who) (pc : Pc) (ans : Act) : Option (Shared × Pc) :=
  match t with
  | .client tid => clientThread s tid ans pc
  | .signal => killWorkers s pc

abbrev Pool := World Who Shared Pc

def initial : Pool :=
  ⟨⟨none, fun _ => none, fun _ => none, fun _ => 0, fun _ => 0, fun _ => false, none,
    fun _ => false, fun _ => []⟩, fun _ => .idle⟩

/-! ## What the list should be -/

/-- The thread has completed `add_worker` and not yet run `client_cleanup`. -/
def Outstanding : Pc → Prop
  | .working _ | .cleanupLock _ true => True
  | _ => False

def Names (w : Pool) (l : List Addr) : Prop :=
  (l.map w.shared.tid).Nodup ∧
    ∀ n, n ∈ l.map w.shared.tid ↔ Outstanding (w.thread (.client n))

structure Exact (w : Pool) : Prop where
  list : w.shared.lock = none → ∃ l, Chain w.shared.next w.shared.workers l ∧
    Chain w.shared.prev l.getLast? l.reverse ∧ Names w l
  closed : ∀ n sockfd, w.thread (.client n) = .finished sockfd → w.shared.closed n = [sockfd]
  killed : w.thread .signal = .killUnlock →
    ∀ n, Outstanding (w.thread (.client n)) → w.shared.cancelled n = true

/-- `add_worker` finds an empty list, and memory for the new entry. -/
def alone (w : Pool) (a : Who × Act) : Bool :=
  match w.thread a.1, a.2 with
  | .addMalloc _, .nomem => false
  | .addLink _ _, _ => w.shared.workers = none
  | _, _ => true

/-! ## The invariant

Under the condition the list has at most one entry, `cur`. -/

def holds : Pc → Bool
  | .addPrev _ _ | .addNext _ _ | .addLink _ _ | .addUnlock _ _ | .cleanupScan _ _ _
  | .cleanupNext _ _ | .cleanupPrev _ _ | .cleanupUnlock _ _ | .killScan _ | .killUnlock => true
  | _ => false

def listed : Pc → Bool
  | .addUnlock _ _ | .working _ | .cleanupLock _ true | .cleanupScan _ true _
  | .cleanupNext _ _ | .cleanupPrev _ _ => true
  | _ => false

structure Whole (s : Shared) (cur : Option Addr) : Prop where
  workers : s.workers = cur
  ends : ∀ a, cur = some a → s.next a = none ∧ s.prev a = none

/-- The entry of thread `n`, whose socket is still open. -/
structure Entry (s : Shared) (n sockfd : ℕ) (a : Addr) : Prop where
  live : s.live a = true
  tid : s.tid a = n
  sockfd : s.sockfd a = sockfd
  closed : s.closed n = []

def AllCancelled (s : Shared) (cur : Option Addr) : Prop :=
  ∀ a, cur = some a → s.cancelled (s.tid a) = true

def ClientOK (s : Shared) (cur : Option Addr) (n : ℕ) : Pc → Prop
  | .addMalloc _ => s.closed n = []
  | .addLock fd a | .cleanupClose fd a => Entry s n fd a
  | .addPrev fd a => Entry s n fd a ∧ Whole s cur
  | .addNext fd a => Entry s n fd a ∧ Whole s cur ∧ s.prev a = none
  | .addLink fd a => Entry s n fd a ∧ Whole s cur ∧ s.prev a = none ∧ s.next a = s.workers
  | .working fd => ∃ a, cur = some a ∧ Entry s n fd a
  | .cleanupLock fd added => added = true ∧ ∃ a, cur = some a ∧ Entry s n fd a
  | .cleanupScan fd added p => added = true ∧ p = cur ∧ Whole s cur ∧ ∃ a, cur = some a ∧ Entry s n fd a
  | .addUnlock fd a | .cleanupNext fd a | .cleanupPrev fd a =>
    cur = some a ∧ Whole s cur ∧ Entry s n fd a
  | .cleanupUnlock fd p => ∃ a, p = some a ∧ Whole s cur ∧ Entry s n fd a
  | .cleanupFree fd a => s.live a = true ∧ s.tid a = n ∧ s.closed n = [fd]
  | .finished fd => s.closed n = [fd]
  | _ => True

def SignalOK (s : Shared) (cur : Option Addr) : Pc → Prop
  | .killScan p => Whole s cur ∧ (p = cur ∨ p = none ∧ AllCancelled s cur)
  | .killUnlock => Whole s cur ∧ AllCancelled s cur
  | _ => True

structure WorkersOK (w : Pool) (cur : Option Addr) : Prop where
  holder : ∀ t, holds (w.thread t) = true ↔ w.shared.lock = some t
  free : w.shared.lock = none → Whole w.shared cur
  client : ∀ n, ClientOK w.shared cur n (w.thread (.client n))
  signal : SignalOK w.shared cur (w.thread .signal)
  owner : ∀ a, cur = some a →
    w.shared.live a = true ∧ listed (w.thread (.client (w.shared.tid a))) = true

variable {s s' : Shared} {cur cur' : Option Addr} {n : ℕ} {pc pc' : Pc} {ans : Act}

theorem whole_same (h : Whole s cur)
    (hmem : (s'.workers, s'.next, s'.prev) = (s.workers, s.next, s.prev)) : Whole s' cur := by
  simp only [Prod.mk.injEq] at hmem
  obtain ⟨hworkers, hnext, hprev⟩ := hmem
  exact ⟨hworkers.trans h.workers, fun a ha => by rw [hnext, hprev]; exact h.ends a ha⟩

/-- Within a section the list stays as it was. -/
def Leaves (s : Shared) (cur : Option Addr) (s' : Shared) (cur' : Option Addr) : Prop :=
  cur' = cur ∧ (s'.workers, s'.next, s'.prev) = (s.workers, s.next, s.prev)

theorem Leaves.whole (h : Leaves s cur s' cur') (hw : Whole s cur) : Whole s' cur' :=
  h.1 ▸ whole_same hw h.2

theorem ClientOK.stable (h : ClientOK s cur n pc) (hclosed : s'.closed n = s.closed n)
    (hentry : ∀ a, s.live a = true → s.tid a = n →
      s'.live a = true ∧ s'.tid a = n ∧ s'.sockfd a = s.sockfd a)
    (hcur : listed pc = true → cur' = cur) (hheld : holds pc = true → Leaves s cur s' cur') :
    ClientOK s' cur' n pc := by
  have hentry' : ∀ fd a, Entry s n fd a → Entry s' n fd a := by
    rintro fd a ⟨hl, ht, hs, hc⟩
    obtain ⟨hl', ht', hs'⟩ := hentry a hl ht
    exact ⟨hl', ht', hs'.trans hs, hclosed.trans hc⟩
  have hmine : ∀ fd, listed pc = true → (∃ a, cur = some a ∧ Entry s n fd a) →
      ∃ a, cur' = some a ∧ Entry s' n fd a := by
    rintro fd hl ⟨a, ha, he⟩
    exact ⟨a, (hcur hl).trans ha, hentry' fd a he⟩
  cases pc with
  | addMalloc fd => exact hclosed.trans h
  | addLock fd a => exact hentry' fd a h
  | cleanupClose fd a => exact hentry' fd a h
  | addPrev fd a => exact ⟨hentry' fd a h.1, (hheld rfl).whole h.2⟩
  | addNext fd a =>
    refine ⟨hentry' fd a h.1, (hheld rfl).whole h.2.1, ?_⟩
    obtain ⟨-, hsame⟩ := hheld rfl
    simp only [Prod.mk.injEq] at hsame
    rw [hsame.2.2]
    exact h.2.2
  | addLink fd a =>
    refine ⟨hentry' fd a h.1, (hheld rfl).whole h.2.1, ?_⟩
    obtain ⟨-, hsame⟩ := hheld rfl
    simp only [Prod.mk.injEq] at hsame
    rw [hsame.2.2, hsame.2.1, hsame.1]
    exact h.2.2
  | working fd => exact hmine fd rfl h
  | cleanupLock fd added =>
    obtain ⟨rfl, h⟩ := h
    exact ⟨rfl, hmine fd rfl h⟩
  | cleanupScan fd added p =>
    obtain ⟨rfl, hp, hw, h⟩ := h
    exact ⟨rfl, hp.trans (hheld rfl).1.symm, (hheld rfl).whole hw, hmine fd rfl h⟩
  | addUnlock fd a | cleanupNext fd a | cleanupPrev fd a =>
    exact ⟨(hheld rfl).1.trans h.1, (hheld rfl).whole h.2.1, hentry' fd a h.2.2⟩
  | cleanupUnlock fd p =>
    obtain ⟨a, hp, hw, he⟩ := h
    exact ⟨a, hp, (hheld rfl).whole hw, hentry' fd a he⟩
  | cleanupFree fd a =>
    obtain ⟨hl, ht, hc⟩ := h
    obtain ⟨hl', ht', -⟩ := hentry a hl ht
    exact ⟨hl', ht', hclosed.trans hc⟩
  | finished fd => exact hclosed.trans h
  | _ => trivial

theorem ClientOK.listed_entry (h : ClientOK s cur n pc) (hl : listed pc = true) :
    ∃ fd a, cur = some a ∧ Entry s n fd a := by
  cases pc with
  | working fd => exact ⟨fd, h⟩
  | cleanupLock fd added => exact ⟨fd, h.2⟩
  | cleanupScan fd added p => exact ⟨fd, h.2.2.2⟩
  | addUnlock fd a | cleanupNext fd a | cleanupPrev fd a => exact ⟨fd, a, h.1, h.2.2⟩
  | _ => cases hl

theorem SignalOK.stable (h : SignalOK s cur pc) (hheld : holds pc = true → Leaves s cur s' cur')
    (hcancel : ∀ a, cur = some a → s.cancelled (s.tid a) = true → s'.cancelled (s'.tid a) = true) :
    SignalOK s' cur' pc := by
  have hall : cur' = cur → AllCancelled s cur → AllCancelled s' cur' := by
    rintro rfl ha a hc
    exact hcancel a hc (ha a hc)
  cases pc with
  | killScan p =>
    have he := (hheld rfl).1
    exact ⟨(hheld rfl).whole h.1, h.2.imp (fun hp => hp.trans he.symm) fun hp => ⟨hp.1, hall he hp.2⟩⟩
  | killUnlock => exact ⟨(hheld rfl).whole h.1, hall (hheld rfl).1 h.2⟩
  | _ => trivial

section Steps

variable {w : Pool}

theorem WorkersOK.unlisted (h : WorkersOK w cur) {a : Addr} (hn : w.shared.tid a = n)
    (hl : listed (w.thread (.client n)) = false) : cur ≠ some a := by
  intro hc
  have := (h.owner a hc).2
  rw [hn, hl] at this
  cases this

/-- The lock is that of thread `t` exactly when it is in a section, and as before for the others. -/
def LockMoves (w : Pool) (t : Who) (s' : Shared) (pc' : Pc) : Prop :=
  (holds pc' = true ↔ s'.lock = some t) ∧ ∀ u, u ≠ t → (w.shared.lock = some u ↔ s'.lock = some u)

theorem WorkersOK.holder_after {t : Who} (h : WorkersOK w cur) (hlock : LockMoves w t s' pc')
    (u : Who) : holds ((after w t s' pc').thread u) = true ↔ s'.lock = some u := by
  obtain ⟨rfl, he⟩ | ⟨hu, he⟩ := after_cases w t s' pc' u
  · rw [he]
    exact hlock.1
  · rw [he, h.holder]
    exact hlock.2 u hu

theorem WorkersOK.client_step (h : WorkersOK w cur) (hlock : LockMoves w (.client n) s' pc')
    (hfree : s'.lock = none → Whole s' cur') (hown : ClientOK s' cur' n pc')
    (hclosed : ∀ m, m ≠ n → s'.closed m = w.shared.closed m)
    (hentry : ∀ a, w.shared.live a = true → w.shared.tid a ≠ n →
      s'.live a = true ∧ s'.tid a = w.shared.tid a ∧ s'.sockfd a = w.shared.sockfd a)
    (hcur : ∀ m, m ≠ n → listed (w.thread (.client m)) = true → cur' = cur)
    (hheld : ∀ u, u ≠ .client n → w.shared.lock = some u → Leaves w.shared cur s' cur')
    (hcancel : ∀ a, cur = some a → w.shared.cancelled (w.shared.tid a) = true →
      s'.cancelled (s'.tid a) = true)
    (howner : ∀ a, cur' = some a → s'.live a = true ∧
      (s'.tid a = n ∧ listed pc' = true ∨
        s'.tid a ≠ n ∧ listed (w.thread (.client (s'.tid a))) = true)) :
    WorkersOK (after w (.client n) s' pc') cur' := by
  have hother : ∀ m, m ≠ n → (Who.client m) ≠ .client n := by simp
  refine ⟨h.holder_after hlock, hfree, fun m => ?_, ?_, fun a ha => ?_⟩
  · by_cases hm : m = n
    · subst hm
      rw [thread_after_self]
      exact hown
    · rw [thread_after_other (hother m hm)]
      refine (h.client m).stable (hclosed m hm) (fun a hl ht => ?_) (hcur m hm) fun hp => ?_
      · obtain ⟨hl', ht', hs'⟩ := hentry a hl (by rwa [ht])
        exact ⟨hl', ht'.trans ht, hs'⟩
      · exact hheld _ (hother m hm) ((h.holder _).mp hp)
  · rw [thread_after_other (by simp)]
    exact h.signal.stable (fun hp => hheld _ (by simp) ((h.holder _).mp hp)) hcancel
  · obtain ⟨hl, hp⟩ := howner a ha
    refine ⟨hl, ?_⟩
    change listed ((after w (.client n) s' pc').thread (.client (s'.tid a))) = true
    rcases hp with ⟨ht, hp⟩ | ⟨ht, hp⟩
    · rw [ht, thread_after_self]
      exact hp
    · rw [thread_after_other (hother _ ht)]
      exact hp

theorem WorkersOK.owner_kept (h : WorkersOK w cur) (hpc : w.thread (.client n) = pc)
    (hlisted : listed pc' = listed pc) {a : Addr} (ha : cur = some a) : w.shared.live a = true ∧
      (w.shared.tid a = n ∧ listed pc' = true ∨
        w.shared.tid a ≠ n ∧ listed (w.thread (.client (w.shared.tid a))) = true) := by
  obtain ⟨hl, hp⟩ := h.owner a ha
  refine ⟨hl, ?_⟩
  by_cases ht : w.shared.tid a = n
  · rw [ht, hpc] at hp
    exact .inl ⟨ht, hlisted.trans hp⟩
  · exact .inr ⟨ht, hp⟩

theorem WorkersOK.client_quiet (h : WorkersOK w cur) (hpc : w.thread (.client n) = pc)
    (hmem : (s'.workers, s'.next, s'.prev) = (w.shared.workers, w.shared.next, w.shared.prev))
    (hentries : (s'.live, s'.tid, s'.sockfd, s'.cancelled) =
      (w.shared.live, w.shared.tid, w.shared.sockfd, w.shared.cancelled))
    (hclosed : ∀ m, m ≠ n → s'.closed m = w.shared.closed m)
    (hlock : LockMoves w (.client n) s' pc') (hfree : s'.lock = none → Whole s' cur)
    (hown : ClientOK s' cur n pc') (hlisted : listed pc' = listed pc) :
    WorkersOK (after w (.client n) s' pc') cur := by
  simp only [Prod.mk.injEq] at hentries
  obtain ⟨hlive, htid, hsockfd, hcancelled⟩ := hentries
  refine h.client_step hlock hfree hown hclosed (fun a hl _ => ?_) (fun _ _ _ => rfl)
    (fun u _ _ => ⟨rfl, hmem⟩) (fun a _ hc => ?_) fun a ha => ?_
  · rw [hlive, htid, hsockfd]
    exact ⟨hl, rfl, rfl⟩
  · rw [hcancelled, htid]
    exact hc
  · rw [hlive, htid]
    exact h.owner_kept hpc hlisted ha

theorem take_eq_some {t : Who} (h : s.take t = some s') : s.lock = none ∧ s' = { s with lock := some t } := by
  unfold Shared.take at h
  split at h
  · cases h
    exact ⟨‹_›, rfl⟩
  · cases h

variable {t : Who}

theorem WorkersOK.lock_kept (h : WorkersOK w cur) (hpc : w.thread t = pc)
    (hs : s'.lock = w.shared.lock) (hholds : holds pc' = holds pc) : LockMoves w t s' pc' := by
  subst hpc
  rw [LockMoves, hholds, hs]
  exact ⟨h.holder t, fun _ _ => Iff.rfl⟩

theorem lock_taken (hnone : w.shared.lock = none) (hs : s'.lock = some t)
    (hholds : holds pc' = true) : LockMoves w t s' pc' := by
  simp only [LockMoves, hholds, hs, hnone, Option.some.injEq, true_and, reduceCtorEq, false_iff]
  exact fun u hu he => hu he.symm

theorem WorkersOK.lock_released (h : WorkersOK w cur) (hpc : w.thread t = pc)
    (hheld : holds pc = true) (hs : s'.lock = none) (hholds : holds pc' = false) :
    LockMoves w t s' pc' := by
  have hlock := (h.holder t).mp (hpc ▸ hheld)
  simp only [LockMoves, hholds, hs, hlock, Option.some.injEq, reduceCtorEq, iff_false]
  exact ⟨by simp, fun u hu he => hu he.symm⟩

theorem WorkersOK.held (h : WorkersOK w cur) (hpc : w.thread t = pc) (hheld : holds pc = true) :
    w.shared.lock = some t := (h.holder t).mp (hpc ▸ hheld)

theorem whole_update {next prev : Addr → Option Addr} {a : Addr} (h : Whole s cur) (ha : cur ≠ some a)
    (hnext : ∀ b, b ≠ a → next b = s.next b) (hprev : ∀ b, b ≠ a → prev b = s.prev b) :
    Whole { s with next := next, prev := prev } cur := by
  refine ⟨h.workers, fun b hb => ?_⟩
  have hne : b ≠ a := by
    rintro rfl
    exact ha hb
  change next b = none ∧ prev b = none
  rw [hnext b hne, hprev b hne]
  exact h.ends b hb

theorem WorkersOK.start {sockfd : ℕ} (h : WorkersOK w cur) (hpc : w.thread (.client n) = pc)
    (hidle : listed pc = false ∧ holds pc = false) :
    WorkersOK (after w (.client n) { w.shared with
      cancelled := Function.update w.shared.cancelled n false
      closed := Function.update w.shared.closed n [] } (.addMalloc sockfd)) cur := by
  have hne : ∀ a, cur = some a → w.shared.tid a ≠ n :=
    fun a ha ht => h.unlisted ht (hpc ▸ hidle.1) ha
  refine h.client_step (h.lock_kept hpc rfl hidle.2.symm) (fun hs => whole_same (h.free hs) rfl)
    (update_self _ _ _) (fun m hm => update_of_ne hm _ _)
    (fun a hl _ => ⟨hl, rfl, rfl⟩) (fun _ _ _ => rfl) (fun u _ _ => ⟨rfl, rfl⟩)
    (fun a ha hc => ?_) fun a ha => ?_
  · exact (update_of_ne (hne a ha) _ _).trans hc
  · exact ⟨(h.owner a ha).1, .inr ⟨hne a ha, (h.owner a ha).2⟩⟩

theorem WorkersOK.malloc {sockfd : ℕ} {wtp : Addr} (h : WorkersOK w cur)
    (hpc : w.thread (.client n) = .addMalloc sockfd) (hnew : w.shared.live wtp = false) :
    WorkersOK (after w (.client n) { w.shared with
      live := Function.update w.shared.live wtp true
      tid := Function.update w.shared.tid wtp n
      sockfd := Function.update w.shared.sockfd wtp sockfd } (.addLock sockfd wtp)) cur := by
  have hclosed := h.client n
  rw [hpc] at hclosed
  have hne : ∀ a, w.shared.live a = true → a ≠ wtp := by
    rintro a ha rfl
    rw [hnew] at ha
    cases ha
  refine h.client_step (h.lock_kept hpc rfl rfl) (fun hs => whole_same (h.free hs) rfl)
    ⟨update_self _ _ _, update_self _ _ _, update_self _ _ _, hclosed⟩
    (fun _ _ => rfl) (fun a hl _ => ?_) (fun _ _ _ => rfl) (fun u _ _ => ⟨rfl, rfl⟩)
    (fun a ha hc => ?_) fun a ha => ?_
  · simp [update_of_ne (hne a hl), hl]
  · simp only [update_of_ne (hne a (h.owner a ha).1)]
    exact hc
  · obtain ⟨hl, hp⟩ := h.owner a ha
    simp only [update_of_ne (hne a hl)]
    refine ⟨hl, .inr ⟨fun ht => ?_, hp⟩⟩
    rw [ht, hpc] at hp
    cases hp

/-- A statement inside a section, with the list before and after it. -/
theorem WorkersOK.client_statement (h : WorkersOK w cur) (hpc : w.thread (.client n) = pc)
    (hheld : holds pc = true) (hheld' : holds pc' = true)
    (hs : (s'.live, s'.tid, s'.sockfd, s'.cancelled, s'.closed, s'.lock) =
      (w.shared.live, w.shared.tid, w.shared.sockfd, w.shared.cancelled, w.shared.closed,
        w.shared.lock))
    (hown : ClientOK s' cur' n pc')
    (hcur : ∀ m, m ≠ n → listed (w.thread (.client m)) = true → cur' = cur)
    (howner : ∀ a, cur' = some a → w.shared.live a = true ∧
      (w.shared.tid a = n ∧ listed pc' = true ∨
        w.shared.tid a ≠ n ∧ listed (w.thread (.client (w.shared.tid a))) = true)) :
    WorkersOK (after w (.client n) s' pc') cur' := by
  simp only [Prod.mk.injEq] at hs
  obtain ⟨hlive, htid, hsockfd, hcancelled, hclosed, hlocked⟩ := hs
  have hlock := h.held hpc hheld
  refine h.client_step (h.lock_kept hpc hlocked (hheld'.trans hheld.symm)) (fun hnone => ?_) hown
    (fun _ _ => by rw [hclosed]) (fun a hl _ => ?_) hcur (fun u hu hlock' => ?_) (fun a _ hc => ?_) ?_
  · rw [hlocked, hlock] at hnone
    cases hnone
  · rw [hlive, htid, hsockfd]
    exact ⟨hl, rfl, rfl⟩
  · rw [hlock] at hlock'
    exact absurd (Option.some.inj hlock').symm hu
  · rw [hcancelled, htid]
    exact hc
  · rw [hlive, htid]
    exact howner

theorem WorkersOK.client_same (h : WorkersOK w cur) (hpc : w.thread (.client n) = pc)
    (hheld : holds pc = true) (hheld' : holds pc' = true)
    (hs : (s'.live, s'.tid, s'.sockfd, s'.cancelled, s'.closed, s'.lock) =
      (w.shared.live, w.shared.tid, w.shared.sockfd, w.shared.cancelled, w.shared.closed,
        w.shared.lock))
    (hown : ClientOK s' cur n pc') (hlisted : listed pc' = listed pc) :
    WorkersOK (after w (.client n) s' pc') cur :=
  h.client_statement hpc hheld hheld' hs hown (fun _ _ _ => rfl) fun _ => h.owner_kept hpc hlisted

theorem entry_same {s s' : Shared} {fd : ℕ} {a : Addr} (h : Entry s n fd a)
    (hs : (s'.live, s'.tid, s'.sockfd, s'.closed) = (s.live, s.tid, s.sockfd, s.closed)) :
    Entry s' n fd a := by
  simp only [Prod.mk.injEq] at hs
  obtain ⟨hlive, htid, hsockfd, hclosed⟩ := hs
  exact ⟨hlive ▸ h.live, htid ▸ h.tid, hsockfd ▸ h.sockfd, hclosed ▸ h.closed⟩

theorem WorkersOK.addWorker (h : WorkersOK w cur) (hok : alone w (.client n, ans) = true)
    (hpc : w.thread (.client n) = pc) (hact : addWorker w.shared n ans pc = some (s', pc')) :
    ∃ cur', WorkersOK (after w (.client n) s' pc') cur' := by
  have hc := h.client n
  rw [hpc] at hc
  cases pc with
  | addMalloc fd =>
    cases ans with
    | addr wtp =>
      simp only [PrintdWorkers.addWorker] at hact
      split at hact
      · cases hact
      · cases hact
        exact ⟨cur, h.malloc hpc (Bool.eq_false_iff.mpr ‹_›)⟩
    | nomem =>
      simp [alone, hpc] at hok
    | _ => cases hact
  | addLock fd wtp =>
    obtain ⟨s₁, hs₁, hact⟩ := Option.map_eq_some_iff.mp hact
    cases hact
    obtain ⟨hnone, rfl⟩ := take_eq_some hs₁
    exact ⟨cur, h.client_quiet hpc rfl rfl (fun _ _ => rfl) (lock_taken hnone rfl rfl)
      (fun hs => by cases hs) ⟨entry_same hc rfl, whole_same (h.free hnone) rfl⟩ rfl⟩
  | addPrev fd wtp =>
    cases hact
    obtain ⟨hentry, hwhole⟩ := hc
    have hnot := h.unlisted hentry.tid (by rw [hpc]; rfl)
    exact ⟨cur, h.client_same hpc rfl rfl rfl ⟨entry_same hentry rfl,
      whole_update hwhole hnot (fun _ _ => rfl) (fun b hb => update_of_ne hb _ _),
      update_self _ _ _⟩ rfl⟩
  | addNext fd wtp =>
    cases hact
    obtain ⟨hentry, hwhole, hprev⟩ := hc
    have hnot := h.unlisted hentry.tid (by rw [hpc]; rfl)
    exact ⟨cur, h.client_same hpc rfl rfl rfl ⟨entry_same hentry rfl,
      whole_update hwhole hnot (fun b hb => update_of_ne hb _ _) (fun _ _ => rfl),
      hprev, update_self _ _ _⟩ rfl⟩
  | addLink fd wtp =>
    obtain ⟨hentry, hwhole, hprev, hnext⟩ := hc
    have hempty : w.shared.workers = none := by simpa [alone, hpc] using hok
    obtain rfl : cur = none := hwhole.workers.symm.trans hempty
    simp only [PrintdWorkers.addWorker, hempty] at hact
    cases hact
    rw [hempty] at hnext
    refine ⟨some wtp, h.client_statement hpc rfl rfl rfl ⟨rfl, ⟨rfl, fun a ha => ?_⟩,
      entry_same hentry rfl⟩ (fun m _ hl => ?_) fun a ha => ?_⟩
    · cases ha
      exact ⟨hnext, hprev⟩
    · -- nobody is in an empty list
      obtain ⟨fd, a, ha, -⟩ := (h.client m).listed_entry hl
      cases ha
    · cases ha
      exact ⟨hentry.live, .inl ⟨hentry.tid, rfl⟩⟩
  | addUnlock fd wtp =>
    cases hact
    obtain ⟨hcur, hwhole, hentry⟩ := hc
    exact ⟨cur, h.client_quiet hpc rfl rfl (fun _ _ => rfl) (h.lock_released hpc rfl rfl rfl)
      (fun _ => whole_same hwhole rfl) ⟨wtp, hcur, entry_same hentry rfl⟩ rfl⟩
  | _ => cases hact

theorem WorkersOK.clientCleanup (h : WorkersOK w cur) (hpc : w.thread (.client n) = pc)
    (hact : clientCleanup w.shared n pc = some (s', pc')) :
    ∃ cur', WorkersOK (after w (.client n) s' pc') cur' := by
  have hc := h.client n
  rw [hpc] at hc
  cases pc with
  | cleanupLock fd added =>
    obtain ⟨s₁, hs₁, hact⟩ := Option.map_eq_some_iff.mp hact
    cases hact
    obtain ⟨hnone, rfl⟩ := take_eq_some hs₁
    obtain ⟨rfl, a, hcur, hentry⟩ := hc
    have hwhole := h.free hnone
    exact ⟨cur, h.client_quiet hpc rfl rfl (fun _ _ => rfl) (lock_taken hnone rfl rfl)
      (fun hs => by cases hs) ⟨rfl, hwhole.workers, whole_same hwhole rfl, a, hcur,
        entry_same hentry rfl⟩ rfl⟩
  | cleanupScan fd added p =>
    obtain ⟨rfl, rfl, hwhole, a, rfl, hentry⟩ := hc
    -- the first entry is the thread's own
    simp only [PrintdWorkers.clientCleanup, hentry.tid, if_true] at hact
    cases hact
    exact ⟨some a, h.client_same hpc rfl rfl rfl ⟨rfl, hwhole, hentry⟩ rfl⟩
  | cleanupNext fd wtp =>
    obtain ⟨rfl, hwhole, hentry⟩ := hc
    simp only [PrintdWorkers.clientCleanup, (hwhole.ends wtp rfl).1] at hact
    cases hact
    exact ⟨some wtp, h.client_same hpc rfl rfl rfl ⟨rfl, hwhole, hentry⟩ rfl⟩
  | cleanupPrev fd wtp =>
    obtain ⟨rfl, hwhole, hentry⟩ := hc
    obtain ⟨hnext, hprev⟩ := hwhole.ends wtp rfl
    simp only [PrintdWorkers.clientCleanup, hprev, hnext] at hact
    cases hact
    refine ⟨none, h.client_statement hpc rfl rfl rfl ⟨wtp, rfl, ⟨rfl, fun a ha => by cases ha⟩,
      entry_same hentry rfl⟩ (fun m hm hl => ?_) fun a ha => by cases ha⟩
    -- the one entry belongs to this thread
    obtain ⟨fd', a, ha, he⟩ := (h.client m).listed_entry hl
    cases ha
    exact absurd (he.tid.symm.trans hentry.tid) hm
  | cleanupUnlock fd p =>
    obtain ⟨a, rfl, hwhole, hentry⟩ := hc
    cases hact
    exact ⟨cur, h.client_quiet hpc rfl rfl (fun _ _ => rfl) (h.lock_released hpc rfl rfl rfl)
      (fun _ => whole_same hwhole rfl) (entry_same hentry rfl) rfl⟩
  | cleanupClose fd wtp =>
    cases hact
    refine ⟨cur, h.client_quiet hpc rfl rfl (fun m hm => update_of_ne hm _ _)
      (h.lock_kept hpc rfl rfl) (fun hs => whole_same (h.free hs) rfl) ⟨hc.live, hc.tid, ?_⟩ rfl⟩
    change Function.update w.shared.closed n _ n = [fd]
    rw [update_self, hc.closed, hc.sockfd]
    rfl
  | cleanupFree fd wtp =>
    cases hact
    obtain ⟨hlive, htid, hclosed⟩ := hc
    have hnot := h.unlisted htid (by rw [hpc]; rfl)
    have hne : ∀ a, w.shared.tid a ≠ n → a ≠ wtp := by
      rintro a ha rfl
      exact ha htid
    refine ⟨cur, h.client_step (h.lock_kept hpc rfl rfl) (fun hs => whole_same (h.free hs) rfl)
      hclosed (fun _ _ => rfl) (fun a hl ht => ?_) (fun _ _ _ => rfl)
      (fun u _ _ => ⟨rfl, rfl⟩) (fun a _ hc => hc) fun a ha => ?_⟩
    · exact ⟨(update_of_ne (hne a ht) _ _).trans hl, rfl, rfl⟩
    · obtain ⟨hl, hp⟩ := h.owner a ha
      have ht : w.shared.tid a ≠ n := by
        intro ht
        rw [ht, hpc] at hp
        cases hp
      exact ⟨(update_of_ne (hne a ht) _ _).trans hl, .inr ⟨ht, hp⟩⟩
  | _ => cases hact

theorem WorkersOK.clientThread (h : WorkersOK w cur) (hok : alone w (.client n, ans) = true)
    (hact : clientThread w.shared n ans (w.thread (.client n)) = some (s', pc')) :
    ∃ cur', WorkersOK (after w (.client n) s' pc') cur' := by
  generalize hpc : w.thread (.client n) = pc at hact
  cases pc with
  | idle =>
    cases ans with
    | start fd =>
      cases hact
      exact ⟨cur, h.start hpc ⟨rfl, rfl⟩⟩
    | _ => cases hact
  | finished fd =>
    cases ans with
    | start fd =>
      cases hact
      exact ⟨cur, h.start hpc ⟨rfl, rfl⟩⟩
    | _ => cases hact
  | working fd =>
    cases hact
    have hc := h.client n
    rw [hpc] at hc
    exact ⟨cur, h.client_quiet hpc rfl rfl (fun _ _ => rfl) (h.lock_kept hpc rfl rfl)
      (fun hs => h.free hs) ⟨rfl, hc⟩ rfl⟩
  | _ =>
    dsimp only [PrintdWorkers.clientThread] at hact
    rcases Option.or_eq_some_iff.mp hact with hact | ⟨-, hact⟩
    · exact h.addWorker hok hpc hact
    · exact h.clientCleanup hpc hact

theorem WorkersOK.signal_step (h : WorkersOK w cur) (hlock : LockMoves w .signal s' pc')
    (hs : s' = { w.shared with lock := s'.lock, cancelled := s'.cancelled })
    (hfree : s'.lock = none → Whole s' cur) (hown : SignalOK s' cur pc') :
    WorkersOK (after w .signal s' pc') cur := by
  have hclient : ∀ n, (after w .signal s' pc').thread (.client n) = w.thread (.client n) :=
    fun n => thread_after_other (by simp)
  refine ⟨h.holder_after hlock, hfree, fun n => ?_, ?_, fun a ha => ?_⟩
  · rw [hclient]
    change ClientOK s' cur n _
    rw [hs]
    exact (h.client n).stable rfl (fun a hl ht => ⟨hl, ht, rfl⟩) (fun _ => rfl)
      fun _ => ⟨rfl, rfl⟩
  · rw [thread_after_self]
    exact hown
  · change s'.live a = true ∧ listed ((after w .signal s' pc').thread (.client (s'.tid a))) = true
    rw [hclient, hs]
    exact h.owner a ha

theorem WorkersOK.killWorkers (h : WorkersOK w cur)
    (hact : killWorkers w.shared (w.thread .signal) = some (s', pc')) :
    WorkersOK (after w .signal s' pc') cur := by
  have hc := h.signal
  generalize hpc : w.thread .signal = pc at hact
  rw [hpc] at hc
  cases pc with
  | idle =>
    cases hact
    exact h.signal_step (h.lock_kept hpc rfl rfl) rfl h.free trivial
  | killLock =>
    obtain ⟨s₁, hs₁, hact⟩ := Option.map_eq_some_iff.mp hact
    cases hact
    obtain ⟨hnone, rfl⟩ := take_eq_some hs₁
    have hwhole := h.free hnone
    exact h.signal_step (lock_taken hnone rfl rfl) rfl (fun hs => by cases hs)
      ⟨whole_same hwhole rfl, .inl hwhole.workers⟩
  | killScan p =>
    obtain ⟨hwhole, hp⟩ := hc
    have hlock := h.held hpc rfl
    cases p with
    | none =>
      cases hact
      refine h.signal_step (h.lock_kept hpc rfl rfl) rfl h.free ⟨hwhole, ?_⟩
      rcases hp with rfl | ⟨-, hall⟩
      · intro a ha
        cases ha
      · exact hall
    | some a =>
      obtain rfl : cur = some a := by
        rcases hp with rfl | ⟨hp, -⟩
        · rfl
        · cases hp
      cases hact
      refine h.signal_step (h.lock_kept hpc rfl rfl) rfl (fun hs => absurd (hlock.symm.trans hs) (by simp))
        ⟨whole_same hwhole rfl, .inr ⟨(hwhole.ends a rfl).1, fun b hb => ?_⟩⟩
      cases hb
      exact update_self _ _ _
  | killUnlock =>
    cases hact
    exact h.signal_step (h.lock_released hpc rfl rfl rfl) rfl (fun _ => whole_same hc.1 rfl) trivial
  | _ => cases hact

end Steps

/-! ## Whole runs -/

theorem workersOK_next {w w' : Pool} {cur : Option Addr} {a : Who × Act} (h : WorkersOK w cur)
    (hok : alone w a = true) (hnext : w.next act a = some w') : ∃ cur', WorkersOK w' cur' := by
  obtain ⟨t, ans⟩ := a
  obtain ⟨s', pc', hact, rfl⟩ := next_eq_some.mp hnext
  cases t with
  | client n => exact h.clientThread hok hact
  | signal => exact ⟨cur, h.killWorkers hact⟩

theorem workersOK_initial : WorkersOK initial none where
  holder t := by simp [initial, holds]
  free _ := ⟨rfl, fun a ha => by cases ha⟩
  client n := trivial
  signal := trivial
  owner a ha := by cases ha

theorem workersOK_run {w : Pool} (h : Run (World.next act) (fun w a => alone w a = true) initial w) :
    ∃ cur, WorkersOK w cur :=
  h.invariant (I := fun w => ∃ cur, WorkersOK w cur) ⟨none, workersOK_initial⟩
    fun _ _ _ ⟨_, hw⟩ hok hnext => workersOK_next hw hok hnext

theorem listed_of_outstanding {pc : Pc} (h : Outstanding pc) : listed pc = true := by
  cases pc with
  | working fd => rfl
  | cleanupLock fd added =>
    cases added
    · cases h
    · rfl
  | _ => cases h

theorem entry_of_outstanding {w : Pool} {cur : Option Addr} {n : ℕ} (h : WorkersOK w cur)
    (ho : Outstanding (w.thread (.client n))) : ∃ a, cur = some a ∧ w.shared.tid a = n := by
  obtain ⟨fd, a, ha, he⟩ := (h.client n).listed_entry (listed_of_outstanding ho)
  exact ⟨a, ha, he.tid⟩

/-- An entry of the list is that of an outstanding thread, except within the sections. -/
theorem outstanding_of_listed {pc : Pc} (h : listed pc = true) (hh : holds pc = false) :
    Outstanding pc := by
  cases pc with
  | working fd => trivial
  | cleanupLock fd added =>
    cases added
    · cases h
    · trivial
  | _ => first | cases h; done | cases hh

theorem exact_of_workersOK {w : Pool} {cur : Option Addr} (h : WorkersOK w cur) : Exact w := by
  refine ⟨fun hfree => ⟨cur.toList, ?_, ?_, ?_, fun n => ?_⟩, fun n fd hpc => ?_, fun hpc n ho => ?_⟩
  · obtain ⟨hworkers, hends⟩ := h.free hfree
    rw [hworkers]
    cases cur with
    | none => rfl
    | some a => exact ⟨rfl, (hends a rfl).1⟩
  · obtain ⟨-, hends⟩ := h.free hfree
    cases cur with
    | none => rfl
    | some a => exact ⟨rfl, (hends a rfl).2⟩
  · cases cur <;> simp
  · constructor
    · intro hn
      obtain ⟨a, ha, rfl⟩ := List.mem_map.mp hn
      have hl := (h.owner a (Option.mem_toList.mp ha)).2
      refine outstanding_of_listed hl (Bool.eq_false_iff.mpr fun hh => ?_)
      have := (h.holder _).mp hh
      rw [hfree] at this
      cases this
    · intro ho
      obtain ⟨a, rfl, rfl⟩ := entry_of_outstanding h ho
      simp
  · have hc := h.client n
    rw [hpc] at hc
    exact hc
  · have hs := h.signal
    rw [hpc] at hs
    obtain ⟨a, ha, rfl⟩ := entry_of_outstanding h ho
    exact hs.2 a ha

/-- As long as no two clients are served at once, the worker list names exactly the
outstanding threads. -/
theorem worker_list_exact (w : Pool)
    (h : Run (World.next act) (fun w a => alone w a = true) initial w) : Exact w := by
  obtain ⟨cur, hw⟩ := workersOK_run h
  exact exact_of_workersOK hw

/-- The actions of a thread that runs `add_worker`. -/
def adds (n : ℕ) (a : Addr) : List (Who × Act) :=
  [(.client n, .start n), (.client n, .addr a), (.client n, .go), (.client n, .go), (.client n, .go),
    (.client n, .go), (.client n, .go)]

theorem worker_list_exact_one : ∃ w : Pool, w.thread (.client 3) = .working 3 ∧
    w.shared.workers = some 7 ∧ Exact w := by
  have h : Run (World.next act) (fun w a => alone w a = true) initial _ :=
    followAllowed_run (adds 3 7) rfl
  exact ⟨_, rfl, rfl, worker_list_exact _ h⟩

/-- Two clients at once: the entry of the second is not in the list. -/
theorem second_worker_not_listed : ∃ w : Pool, Run (World.next act) anyStep initial w ∧
    w.shared.lock = none ∧ w.thread (.client 4) = .working 4 ∧ ¬ Exact w := by
  have h : Run (World.next act) anyStep initial _ := follow_run (adds 3 7 ++ adds 4 8) rfl
  refine ⟨_, h, rfl, rfl, fun he => ?_⟩
  obtain ⟨l, hl, -, hnames⟩ := he.list rfl
  obtain rfl : l = [7] := chain_unique hl ⟨rfl, rfl⟩
  exact absurd ((hnames.2 4).mpr trivial) (by decide)

end PrintdWorkers
