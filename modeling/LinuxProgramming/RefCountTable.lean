import Mathlib.Data.List.Count
import Mathlib.Logic.Function.Basic
import LinuxProgramming.Interleaving

/-! # The reference-counted objects of `mutex2.c` and `mutex3.c`

Any number of threads call `foo_alloc`, `foo_hold`, `foo_find` and `foo_rele`. A step takes or
releases a mutex or does what is between two such calls. The references that the threads hold, the
objects that `foo_alloc` has put in the table and the results of `foo_find` are ghost observations. -/
namespace RefCountTable

open Interleaving Function

inductive Version where
  | mutex2
  | mutex3
  deriving DecidableEq, Repr

def nhash : ℕ := 29

/-- `HASH`: an object is its address. -/
def hash (fp : ℕ) : ℕ := fp % nhash

structure Obj (ι : Type) where
  count : ℕ
  lock : Option ι
  next : Option ℕ
  id : ℤ

inductive Pc where
  | idle
  | allocLockHash (fp : ℕ)
  | allocInsert (fp : ℕ)
  | allocLock (fp : ℕ)
  | allocUnlockHash (fp : ℕ)
  | allocUnlock (fp : ℕ)
  | holdLock (fp : ℕ)
  | holdInc (fp : ℕ)
  | holdUnlock (fp : ℕ)
  | findLockHash (id : ℤ) (idx : ℕ)
  | findFirst (id : ℤ) (idx : ℕ)
  | findTest (id : ℤ) (fp : Option ℕ)
  | findHoldLock (id : ℤ) (fp : ℕ)
  | findHoldInc (id : ℤ) (fp : ℕ)
  | findHoldUnlock (id : ℤ) (fp : ℕ)
  | findUnlockHash
  | releLock (fp : ℕ)
  | releTest (fp : ℕ)
  | releUnlock (fp : ℕ)
  | releLockHash (fp : ℕ)
  | releRelock (fp : ℕ)
  | releRetest (fp : ℕ)
  | releDec (fp : ℕ)
  | releWalk (fp : ℕ) (tfp : Option ℕ)
  | releUnlinked (fp : ℕ)
  | releUnlockUnlinked (fp : ℕ)
  | releFree (fp : ℕ)
  | releUnlockKept (fp : ℕ)
  | releUnlockBoth (fp : ℕ)
  | releUnlockHash
  deriving DecidableEq, Repr

/-- A result of `foo_find`, and whether an object with that id was in the table. -/
structure Found where
  id : ℤ
  result : Option ℕ
  existed : Bool
  deriving DecidableEq, Repr

structure State (ι : Type) where
  heap : ℕ → Option (Obj ι)
  fh : ℕ → Option ℕ
  hashlock : Option ι
  pc : ι → Pc
  held : List (ι × ℕ)
  published : List ℕ
  finds : List Found
  freed : List ℕ
  crashed : Bool

inductive Call where
  | alloc (fp : ℕ) (next : Option ℕ) (id : ℤ)
  | allocFails
  | hold (fp : ℕ)
  | find (id : ℤ) (fp : ℕ)
  | rele (fp : ℕ)
  deriving DecidableEq, Repr

/-- A thread may hand a reference it holds to another one. -/
inductive Action (ι : Type) where
  | call (i : ι) (c : Call)
  | step (i : ι)
  | pass (i j : ι) (fp : ℕ)
  deriving DecidableEq, Repr

section Model

variable {ι : Type} [DecidableEq ι]

namespace State

def go (s : State ι) (i : ι) (pc : Pc) : State ι := { s with pc := Function.update s.pc i pc }

def setObj (s : State ι) (fp : ℕ) (o : Obj ι) : State ι :=
  { s with heap := Function.update s.heap fp (some o) }

def crash (s : State ι) : State ι := { s with crashed := true }

def lockHash (s : State ι) (i : ι) (pc : Pc) : Option (State ι) :=
  if s.hashlock = none then some ({ s with hashlock := some i }.go i pc) else none

def unlockHash (s : State ι) (i : ι) (pc : Pc) : State ι := { s with hashlock := none }.go i pc

def lockObj (s : State ι) (i : ι) (fp : ℕ) (pc : Pc) : Option (State ι) :=
  match s.heap fp with
  | none => some s.crash
  | some o => if o.lock = none then some ((s.setObj fp { o with lock := some i }).go i pc) else none

def unlockObj (s : State ι) (i : ι) (fp : ℕ) (pc : Pc) : State ι :=
  match s.heap fp with
  | none => s.crash
  | some o => (s.setObj fp { o with lock := none }).go i pc

/-- `f_count++`: the thread has one reference more. -/
def inc (s : State ι) (i : ι) (fp : ℕ) (pc : Pc) : State ι :=
  match s.heap fp with
  | none => s.crash
  | some o => { s.setObj fp { o with count := o.count + 1 } with held := (i, fp) :: s.held }.go i pc

/-- `f_count--`: the reference is gone. -/
def dec (s : State ι) (i : ι) (fp : ℕ) (o : Obj ι) : State ι :=
  { s.setObj fp { o with count := o.count - 1 } with held := s.held.erase (i, fp) }

def existing (s : State ι) (id : ℤ) : Bool :=
  s.published.any fun fp => (s.heap fp).any fun o => o.id = id

def record (s : State ι) (id : ℤ) (result : Option ℕ) : State ι :=
  { s with finds := ⟨id, result, s.existing id⟩ :: s.finds }

end State

/-- The assignments of `foo_alloc` to the table. -/
def insert (s : State ι) (i : ι) (fp : ℕ) : State ι :=
  match s.heap fp with
  | none => s.crash
  | some o =>
    let o := { o with next := s.fh (hash fp) }
    { s.setObj fp o with
      fh := Function.update s.fh (hash fp) o.next
      published := fp :: s.published }.go i (.allocLock fp)

/-- One turn of the loop of `foo_find`. -/
def findTest (v : Version) (s : State ι) (i : ι) (id : ℤ) : Option ℕ → State ι
  | none => (s.record id none).go i .findUnlockHash
  | some fp =>
    match s.heap fp with
    | none => s.crash
    | some o =>
      if o.id = id then
        match v with
        | .mutex2 => s.go i (.findHoldLock id fp)
        | .mutex3 => (s.record id (some fp)).inc i fp .findUnlockHash
      else s.go i (.findTest id o.next)

/-- The test of the loop of `foo_rele`, with what follows it when `tfp` is the predecessor. -/
def walk (s : State ι) (i : ι) (fp : ℕ) : Option ℕ → State ι
  | none => s.crash
  | some tfp =>
    match s.heap tfp, s.heap fp with
    | some t, some o =>
      if t.next = some fp then (s.setObj tfp { t with next := o.next }).go i (.releUnlinked fp)
      else s.go i (.releWalk fp t.next)
    | _, _ => s.crash

def unlink (s : State ι) (i : ι) (fp : ℕ) (o : Obj ι) : State ι :=
  if s.fh (hash fp) = some fp then
    { s with fh := Function.update s.fh (hash fp) o.next }.go i (.releUnlinked fp)
  else walk s i fp (s.fh (hash fp))

/-- The first test of `foo_rele` in `mutex2.c`. -/
def releTest (s : State ι) (i : ι) (fp : ℕ) : State ι :=
  match s.heap fp with
  | none => s.crash
  | some o => if o.count = 1 then s.go i (.releUnlock fp) else (s.dec i fp o).go i (.releUnlockKept fp)

def releRetest (s : State ι) (i : ι) (fp : ℕ) : State ι :=
  match s.heap fp with
  | none => s.crash
  | some o =>
    if o.count ≠ 1 then (s.dec i fp o).go i (.releUnlockBoth fp)
    else unlink { s with held := s.held.erase (i, fp) } i fp o

/-- The only test of `foo_rele` in `mutex3.c`. -/
def releDec (s : State ι) (i : ι) (fp : ℕ) : State ι :=
  match s.heap fp with
  | none => s.crash
  | some o =>
    if o.count - 1 = 0 then unlink (s.dec i fp o) i fp o else (s.dec i fp o).go i .releUnlockHash

def step (v : Version) (s : State ι) (i : ι) : Option (State ι) :=
  if s.crashed then none
  else match s.pc i with
  | .idle => none
  | .allocLockHash fp => s.lockHash i (.allocInsert fp)
  | .allocInsert fp => some (insert s i fp)
  | .allocLock fp => s.lockObj i fp (.allocUnlockHash fp)
  | .allocUnlockHash fp =>
    some (s.unlockHash i (match v with | .mutex2 => .allocUnlock fp | .mutex3 => .idle))
  | .allocUnlock fp => some (s.unlockObj i fp .idle)
  | .holdLock fp =>
    match v with
    | .mutex2 => s.lockObj i fp (.holdInc fp)
    | .mutex3 => s.lockHash i (.holdInc fp)
  | .holdInc fp => some (s.inc i fp (.holdUnlock fp))
  | .holdUnlock fp =>
    match v with
    | .mutex2 => some (s.unlockObj i fp .idle)
    | .mutex3 => some (s.unlockHash i .idle)
  | .findLockHash id idx => s.lockHash i (.findFirst id idx)
  | .findFirst id idx => some (s.go i (.findTest id (s.fh idx)))
  | .findTest id fp => some (findTest v s i id fp)
  | .findHoldLock id fp => s.lockObj i fp (.findHoldInc id fp)
  | .findHoldInc id fp => some ((s.record id (some fp)).inc i fp (.findHoldUnlock id fp))
  | .findHoldUnlock _ fp => some (s.unlockObj i fp .findUnlockHash)
  | .findUnlockHash => some (s.unlockHash i .idle)
  | .releLock fp =>
    match v with
    | .mutex2 => s.lockObj i fp (.releTest fp)
    | .mutex3 => s.lockHash i (.releDec fp)
  | .releTest fp => some (releTest s i fp)
  | .releUnlock fp => some (s.unlockObj i fp (.releLockHash fp))
  | .releLockHash fp => s.lockHash i (.releRelock fp)
  | .releRelock fp => s.lockObj i fp (.releRetest fp)
  | .releRetest fp => some (releRetest s i fp)
  | .releDec fp => some (releDec s i fp)
  | .releWalk fp tfp => some (walk s i fp tfp)
  | .releUnlinked fp =>
    some (s.unlockHash i (match v with | .mutex2 => .releUnlockUnlinked fp | .mutex3 => .releFree fp))
  | .releUnlockUnlinked fp => some (s.unlockObj i fp (.releFree fp))
  | .releFree fp =>
    some ({ s with heap := Function.update s.heap fp none, freed := fp :: s.freed }.go i .idle)
  | .releUnlockKept fp => some (s.unlockObj i fp .idle)
  | .releUnlockBoth fp => some (s.unlockObj i fp .releUnlockHash)
  | .releUnlockHash => some (s.unlockHash i .idle)

/-- `malloc` gives memory that is not in use, whose `f_next` and `f_id` may be anything; `foo_find`
computes its index from a pointer that has not been set. -/
def call (s : State ι) (i : ι) : Call → Option (State ι)
  | .alloc fp next id =>
    if s.heap fp = none then
      some ({ s.setObj fp ⟨1, none, next, id⟩ with held := (i, fp) :: s.held }.go i (.allocLockHash fp))
    else none
  | .allocFails => some s
  | .hold fp => some (s.go i (.holdLock fp))
  | .find id fp => some (s.go i (.findLockHash id (hash fp)))
  | .rele fp => some (s.go i (.releLock fp))

def next (v : Version) (s : State ι) : Action ι → Option (State ι)
  | .call i c => if s.crashed = false ∧ s.pc i = .idle then call s i c else none
  | .step i => step v s i
  | .pass i j fp =>
    if s.crashed = false ∧ s.pc i = .idle then
      some { s with held := (j, fp) :: s.held.erase (i, fp) }
    else none

def uses (s : State ι) : Action ι → Bool
  | .call i (.hold fp) | .call i (.rele fp) | .pass i _ fp => (i, fp) ∈ s.held
  | _ => true

def start : State ι := ⟨fun _ => none, fun _ => none, none, fun _ => .idle, [], [], [], [], false⟩

end Model

/-! ## What stays true until the first crash -/

section Invariant

variable {ι : Type}

def refs (held : List (ι × ℕ)) (fp : ℕ) : ℕ := held.countP fun r => r.2 = fp

def State.count (s : State ι) (fp : ℕ) : Option ℕ := (s.heap fp).map Obj.count

def Private (pc : Pc) (fp : ℕ) : Prop := pc = .allocLockHash fp ∨ pc = .allocInsert fp

/-- What a thread at `pc` knows. The walks over a chain never get to an object. -/
def PcOk (held : List (ι × ℕ)) (published : List ℕ) (i : ι) : Pc → Prop
  | .idle | .findLockHash _ _ | .findFirst _ _ | .findUnlockHash | .releUnlockHash => True
  | .allocLockHash fp | .allocInsert fp => (i, fp) ∈ held
  | .allocLock fp | .allocUnlockHash fp | .allocUnlock fp | .holdUnlock fp | .releUnlockKept fp
  | .releUnlockBoth fp => fp ∈ published
  | .holdLock fp | .holdInc fp | .releLock fp | .releTest fp | .releUnlock fp | .releLockHash fp
  | .releRelock fp | .releRetest fp | .releDec fp => (i, fp) ∈ held ∧ fp ∈ published
  | .findTest _ fp => fp = none
  | .findHoldLock _ _ | .findHoldInc _ _ | .findHoldUnlock _ _ | .releWalk _ _ | .releUnlinked _
  | .releUnlockUnlinked _ | .releFree _ => False

structure Live (s : State ι) : Prop where
  running : s.crashed = false
  empty : ∀ idx, s.fh idx = none
  counts : ∀ fp n, s.count fp = some n → n = refs s.held fp
  objects : ∀ r ∈ s.held, s.count r.2 ≠ none
  remain : ∀ fp ∈ s.published, 0 < refs s.held fp
  owned : ∀ r ∈ s.held, r.2 ∈ s.published ∨ Private (s.pc r.1) r.2
  finds : ∀ r ∈ s.finds, r.result = none ∧ (r.existed = true → s.published ≠ [])
  freed : s.freed = []
  pcs : ∀ i, PcOk s.held s.published i (s.pc i)

/-- Once an object is in the table there is nothing but a crash that ends it. -/
structure Inv (s : State ι) : Prop where
  live : s.crashed = false → Live s
  crashed : s.crashed = true → s.published ≠ []
  finds : ∀ r ∈ s.finds, r.result = none ∧ (r.existed = true → s.published ≠ [])
  freed : s.freed = []

theorem Live.inv {s : State ι} (h : Live s) : Inv s where
  live _ := h
  crashed hc := absurd (h.running.symm.trans hc) (by simp)
  finds := h.finds
  freed := h.freed

theorem Inv.reached {t u : State ι} (ht : some u = some t) (h : Live u) : Inv t :=
  Option.some.inj ht ▸ h.inv

theorem live_start : Live (start : State ι) where
  running := rfl
  empty _ := rfl
  counts := by simp [State.count, start]
  objects := by simp [start]
  remain := by simp [start]
  owned := by simp [start]
  finds := by simp [start]
  freed := rfl
  pcs _ := trivial

theorem refs_pos {held : List (ι × ℕ)} {i : ι} {fp : ℕ} (h : (i, fp) ∈ held) : 0 < refs held fp :=
  List.countP_pos_iff.mpr ⟨(i, fp), h, by simp⟩

theorem refs_cons (held : List (ι × ℕ)) (i : ι) (fp fp' : ℕ) :
    refs ((i, fp) :: held) fp' = refs held fp' + if fp = fp' then 1 else 0 := by
  simp [refs, List.countP_cons]

section Objects

variable {s : State ι} {fp : ℕ} {o : Obj ι}

theorem count_eq (ho : s.heap fp = some o) : s.count fp = some o.count := by simp [State.count, ho]

theorem count_setObj (s : State ι) (fp : ℕ) (o : Obj ι) :
    (s.setObj fp o).count = Function.update s.count fp (some o.count) := by
  funext fp'
  by_cases h : fp' = fp
  · simp [State.count, State.setObj, h]
  · simp [State.count, State.setObj, h]

theorem count_same (ho : s.heap fp = some o) {o' : Obj ι} (h : o'.count = o.count) :
    (s.setObj fp o').count = s.count := by
  rw [count_setObj, h]
  exact update_eq_self_iff.mpr (count_eq ho).symm

theorem Live.exists_obj (h : Live s) {r : ι × ℕ} (hr : r ∈ s.held) : ∃ o, s.heap r.2 = some o :=
  Option.ne_none_iff_exists'.mp fun hn => h.objects r hr (by simp [State.count, hn])

theorem Live.published_obj (h : Live s) (hfp : fp ∈ s.published) : ∃ o, s.heap fp = some o := by
  obtain ⟨r, hr, heq⟩ := List.countP_pos_iff.mp (h.remain fp hfp)
  obtain rfl : r.2 = fp := by simpa using heq
  exact h.exists_obj hr

theorem inv_crash {t : State ι} (h : Live s) (hfp : fp ∈ s.published) (hpublished : t.published = s.published)
    (hfinds : t.finds = s.finds) (hfreed : t.freed = s.freed) : Inv t.crash where
  live hc := by cases hc
  crashed _ := by
    show t.published ≠ []
    rw [hpublished]
    exact List.ne_nil_of_mem hfp
  finds := by
    show ∀ r ∈ t.finds, r.result = none ∧ (r.existed = true → t.published ≠ [])
    rw [hfinds, hpublished]
    exact h.finds
  freed := hfreed.trans h.freed

theorem Live.idle_published {i : ι} (h : Live s) (hidle : s.pc i = .idle) (hheld : (i, fp) ∈ s.held) :
    fp ∈ s.published :=
  (h.owned (i, fp) hheld).resolve_right (by simp [Private, hidle])

theorem Live.counts_setObj (h : Live s) (held : List (ι × ℕ))
    (hrefs : ∀ fp', refs held fp' = if fp' = fp then o.count else refs s.held fp') (fp' n : ℕ)
    (hn : (s.setObj fp o).count fp' = some n) : n = refs held fp' := by
  rw [count_setObj] at hn
  rw [hrefs]
  by_cases heq : fp' = fp
  · rw [heq, update_self] at hn
    rw [if_pos heq]
    exact (Option.some.inj hn).symm
  · rw [update_of_ne heq] at hn
    rw [if_neg heq]
    exact h.counts fp' n hn

theorem Live.objects_setObj (h : Live s) {held : List (ι × ℕ)}
    (hheld : ∀ r ∈ held, r.2 = fp ∨ r ∈ s.held) (r : ι × ℕ) (hr : r ∈ held) :
    (s.setObj fp o).count r.2 ≠ none := by
  rw [count_setObj]
  by_cases heq : r.2 = fp
  · simp [heq]
  · rw [update_of_ne heq]
    exact h.objects r ((hheld r hr).resolve_left heq)

end Objects

/-- What the other threads know stays true when the references of `i` only change. -/
theorem PcOk.mono {held held' : List (ι × ℕ)} {published published' : List ℕ} {j : ι} {pc : Pc}
    (h : PcOk held published j pc) (hheld : ∀ fp, (j, fp) ∈ held → (j, fp) ∈ held')
    (hpublished : ∀ fp ∈ published, fp ∈ published') : PcOk held' published' j pc := by
  cases pc <;> simp only [PcOk] at h ⊢
  all_goals first
    | exact hheld _ h
    | exact hpublished _ h
    | exact ⟨hheld _ h.1, hpublished _ h.2⟩
    | exact h

variable [DecidableEq ι]

theorem refs_erase {held : List (ι × ℕ)} {i : ι} {fp : ℕ} (h : (i, fp) ∈ held) (fp' : ℕ) :
    refs held fp' = refs (held.erase (i, fp)) fp' + if fp = fp' then 1 else 0 := by
  have hperm := (List.perm_cons_erase h).countP_eq fun r => decide (r.2 = fp')
  simpa [refs, List.countP_cons] using hperm

theorem mem_erase_other {held : List (ι × ℕ)} {i j : ι} {fp fp' : ℕ} (hij : j ≠ i)
    (h : (j, fp') ∈ held) : (j, fp') ∈ held.erase (i, fp) :=
  (List.mem_erase_of_ne (by simp [hij])).mpr h

section Steps

variable {s t : State ι} {i : ι} {pc : Pc} {fp : ℕ} {o : Obj ι}

theorem pcOk_update {held held' : List (ι × ℕ)} {published published' : List ℕ} {pcs : ι → Pc}
    (h : ∀ j, PcOk held published j (pcs j)) (hok : PcOk held' published' i pc)
    (hheld : ∀ j fp, j ≠ i → (j, fp) ∈ held → (j, fp) ∈ held')
    (hpublished : ∀ fp ∈ published, fp ∈ published') (j : ι) :
    PcOk held' published' j (Function.update pcs i pc j) := by
  by_cases hj : j = i
  · subst hj
    rw [update_self]
    exact hok
  · rw [update_of_ne hj]
    exact (h j).mono (fun fp => hheld j fp hj) hpublished

theorem Live.owned_update (h : Live s) (hprivate : ∀ fp, Private (s.pc i) fp → Private pc fp)
    {r : ι × ℕ} (hr : r ∈ s.held) :
    r.2 ∈ s.published ∨ Private (Function.update s.pc i pc r.1) r.2 := by
  by_cases hi : r.1 = i
  · rw [hi, update_self]
    exact (h.owned r hr).imp_right fun hp => hprivate _ (hi ▸ hp)
  · rw [update_of_ne hi]
    exact h.owned r hr

/-- The step changes locks and the thread's own program counter only. -/
theorem Live.move (h : Live s) (hpc : t.pc = Function.update s.pc i pc)
    (hok : PcOk s.held s.published i pc) (hprivate : ∀ fp, Private (s.pc i) fp → Private pc fp)
    (hcount : t.count = s.count) (hfh : t.fh = s.fh) (hheld : t.held = s.held)
    (hpublished : t.published = s.published) (hfinds : t.finds = s.finds)
    (hfreed : t.freed = s.freed) (hcrashed : t.crashed = s.crashed) : Live t := by
  constructor
  · rw [hcrashed]
    exact h.running
  · rw [hfh]
    exact h.empty
  · rw [hcount, hheld]
    exact h.counts
  · rw [hcount, hheld]
    exact h.objects
  · rw [hpublished, hheld]
    exact h.remain
  · rw [hheld, hpublished, hpc]
    exact fun r hr => h.owned_update hprivate hr
  · rw [hfinds, hpublished]
    exact h.finds
  · rw [hfreed]
    exact h.freed
  · rw [hheld, hpublished, hpc]
    exact pcOk_update h.pcs hok (fun _ _ _ hm => hm) fun _ hm => hm

theorem Live.go (h : Live s) (hok : PcOk s.held s.published i pc)
    (hprivate : ∀ fp, Private (s.pc i) fp → Private pc fp) : Live (s.go i pc) :=
  h.move rfl hok hprivate rfl rfl rfl rfl rfl rfl rfl

theorem Live.lockHash (h : Live s) (ht : s.lockHash i pc = some t)
    (hok : PcOk s.held s.published i pc) (hprivate : ∀ fp, Private (s.pc i) fp → Private pc fp) :
    Live t := by
  unfold State.lockHash at ht
  split at ht
  · obtain rfl := Option.some.inj ht
    exact h.move rfl hok hprivate rfl rfl rfl rfl rfl rfl rfl
  · cases ht

theorem Live.unlockHash (h : Live s) (hok : PcOk s.held s.published i pc)
    (hprivate : ∀ fp, Private (s.pc i) fp → Private pc fp) : Live (s.unlockHash i pc) :=
  h.move rfl hok hprivate rfl rfl rfl rfl rfl rfl rfl

theorem Live.lockObj (h : Live s) (ht : s.lockObj i fp pc = some t) (hfp : fp ∈ s.published)
    (hok : PcOk s.held s.published i pc) (hprivate : ∀ fp, Private (s.pc i) fp → Private pc fp) :
    Live t := by
  obtain ⟨o, ho⟩ := h.published_obj hfp
  simp only [State.lockObj, ho] at ht
  split at ht
  · obtain rfl := Option.some.inj ht
    exact h.move rfl hok hprivate (count_same ho rfl) rfl rfl rfl rfl rfl rfl
  · cases ht

theorem Live.unlockObj (h : Live s) (hfp : fp ∈ s.published) (hok : PcOk s.held s.published i pc)
    (hprivate : ∀ fp, Private (s.pc i) fp → Private pc fp) : Live (s.unlockObj i fp pc) := by
  obtain ⟨o, ho⟩ := h.published_obj hfp
  simp only [State.unlockObj, ho]
  exact h.move rfl hok hprivate (count_same ho rfl) rfl rfl rfl rfl rfl rfl

/-- `foo_alloc` stores the head of the chain, which is null, and not the object. -/
theorem Live.insert (h : Live s) (hpc : s.pc i = .allocInsert fp) : Live (insert s i fp) := by
  have hheld : (i, fp) ∈ s.held := by simpa [PcOk, hpc] using h.pcs i
  obtain ⟨o, ho⟩ := h.exists_obj hheld
  simp only [RefCountTable.insert, ho]
  have hcount : (s.setObj fp { o with next := s.fh (hash fp) }).count = s.count := count_same ho rfl
  constructor
  · exact h.running
  · intro idx
    show Function.update s.fh (hash fp) (s.fh (hash fp)) idx = none
    rw [update_eq_self]
    exact h.empty idx
  · intro fp' n hn
    exact h.counts fp' n (by rw [← hcount]; exact hn)
  · intro r hr hn
    exact h.objects r hr (by rw [← hcount]; exact hn)
  · intro fp' hfp'
    obtain rfl | hfp' := List.mem_cons.mp hfp'
    · exact refs_pos hheld
    · exact h.remain fp' hfp'
  · intro r hr
    by_cases hi : r.1 = i
    · left
      obtain hp | hp := h.owned r hr
      · exact List.mem_cons_of_mem _ hp
      · rw [hi, hpc] at hp
        obtain rfl : fp = r.2 := by simpa [Private] using hp
        exact List.mem_cons_self
    · refine (h.owned r hr).imp (List.mem_cons_of_mem _) fun hp => ?_
      show Private (Function.update s.pc i _ r.1) r.2
      rwa [update_of_ne hi]
  · exact fun r hr => ⟨(h.finds r hr).1, fun _ => List.cons_ne_nil _ _⟩
  · exact h.freed
  · exact pcOk_update h.pcs List.mem_cons_self (fun _ _ _ hm => hm) fun _ => List.mem_cons_of_mem _

/-- The object has one reference more, which is the thread's. -/
theorem Live.grant (h : Live s) (hcount : o.count = refs s.held fp + 1)
    (hown : fp ∈ s.published ∨ Private pc fp) (hok : PcOk ((i, fp) :: s.held) s.published i pc)
    (hprivate : ∀ fp, Private (s.pc i) fp → Private pc fp) :
    Live ({ s.setObj fp o with held := (i, fp) :: s.held }.go i pc) := by
  constructor
  · exact h.running
  · exact h.empty
  · refine h.counts_setObj ((i, fp) :: s.held) fun fp' => ?_
    rw [refs_cons]
    by_cases heq : fp' = fp
    · simp [heq, hcount]
    · simp [heq, Ne.symm heq]
  · exact h.objects_setObj fun r hr => (List.mem_cons.mp hr).imp_left fun heq => by rw [heq]
  · intro fp' hfp'
    show 0 < refs ((i, fp) :: s.held) fp'
    rw [refs_cons]
    exact Nat.add_pos_left (h.remain fp' hfp') _
  · intro r hr
    show r.2 ∈ s.published ∨ Private (Function.update s.pc i pc r.1) r.2
    obtain rfl | hr := List.mem_cons.mp hr
    · rwa [update_self]
    · exact h.owned_update hprivate hr
  · exact h.finds
  · exact h.freed
  · exact pcOk_update h.pcs hok (fun _ _ _ => List.mem_cons_of_mem _) fun _ hm => hm

theorem Live.inc (h : Live s) (hheld : (i, fp) ∈ s.held) (hfp : fp ∈ s.published)
    (hok : PcOk s.held s.published i pc) (hprivate : ∀ fp, Private (s.pc i) fp → Private pc fp) :
    Live (s.inc i fp pc) := by
  obtain ⟨o, ho⟩ := h.exists_obj hheld
  have hcount := h.counts fp o.count (count_eq ho)
  simp only [State.inc, ho]
  refine h.grant (by rw [← hcount]) (.inl hfp) ?_ hprivate
  exact hok.mono (fun _ => List.mem_cons_of_mem _) fun _ hm => hm

theorem Live.dec (h : Live s) (hheld : (i, fp) ∈ s.held) (hfp : fp ∈ s.published)
    (ho : s.heap fp = some o) (hlast : o.count ≠ 1)
    (hok : PcOk (s.held.erase (i, fp)) s.published i pc) (hprivate : ∀ fp, ¬ Private (s.pc i) fp) :
    Live ((s.dec i fp o).go i pc) := by
  have hcount := h.counts fp o.count (count_eq ho)
  have hpos := refs_pos hheld
  have herase := refs_erase hheld
  constructor
  · exact h.running
  · exact h.empty
  · refine h.counts_setObj (s.held.erase (i, fp)) fun fp' => ?_
    have herase := herase fp'
    by_cases heq : fp' = fp
    · rw [if_pos heq.symm, heq, ← hcount] at herase
      rw [if_pos heq, heq]
      show _ = o.count - 1
      omega
    · rw [if_neg (Ne.symm heq)] at herase
      rw [if_neg heq]
      exact herase.symm
  · exact h.objects_setObj fun r hr => .inr (List.mem_of_mem_erase hr)
  · intro fp' hfp'
    show 0 < refs (s.held.erase (i, fp)) fp'
    have hremain := h.remain fp' hfp'
    have herase := herase fp'
    by_cases heq : fp' = fp
    · subst heq
      rw [if_pos rfl] at herase
      omega
    · rw [if_neg (Ne.symm heq)] at herase
      omega
  · intro r hr
    exact h.owned_update (fun _ hp => absurd hp (hprivate _)) (List.mem_of_mem_erase hr)
  · exact h.finds
  · exact h.freed
  · exact pcOk_update h.pcs hok (fun _ _ hj hm => mem_erase_other hj hm) fun _ hm => hm

/-- The object is not where `foo_rele` looks for it, and the search follows a null pointer. -/
theorem unlink_crashes (h : ∀ idx, s.fh idx = none) (i : ι) (fp : ℕ) (o : Obj ι) :
    unlink s i fp o = s.crash := by
  simp [unlink, walk, h]

theorem Live.releTest (h : Live s) (hpc : s.pc i = .releTest fp) : Live (releTest s i fp) := by
  obtain ⟨hheld, hfp⟩ : (i, fp) ∈ s.held ∧ fp ∈ s.published := by simpa [PcOk, hpc] using h.pcs i
  obtain ⟨o, ho⟩ := h.exists_obj hheld
  have hprivate : ∀ fp, ¬ Private (s.pc i) fp := by simp [Private, hpc]
  simp only [RefCountTable.releTest, ho]
  split
  · exact h.go ⟨hheld, hfp⟩ fun _ hp => absurd hp (hprivate _)
  · exact h.dec hheld hfp ho ‹_› hfp hprivate

theorem Live.releRetest (h : Live s) (hpc : s.pc i = .releRetest fp) : Inv (releRetest s i fp) := by
  obtain ⟨hheld, hfp⟩ : (i, fp) ∈ s.held ∧ fp ∈ s.published := by simpa [PcOk, hpc] using h.pcs i
  obtain ⟨o, ho⟩ := h.exists_obj hheld
  simp only [RefCountTable.releRetest, ho]
  split
  · rename_i hlast
    have hlive : Live ((s.dec i fp o).go i (.releUnlockBoth fp)) :=
      h.dec hheld hfp ho hlast hfp (by simp [Private, hpc])
    exact hlive.inv
  · have hcrash := unlink_crashes (s := { s with held := s.held.erase (i, fp) }) h.empty i fp o
    rw [hcrash]
    exact inv_crash h hfp rfl rfl rfl

theorem Live.releDec (h : Live s) (hpc : s.pc i = .releDec fp) : Inv (releDec s i fp) := by
  obtain ⟨hheld, hfp⟩ : (i, fp) ∈ s.held ∧ fp ∈ s.published := by simpa [PcOk, hpc] using h.pcs i
  obtain ⟨o, ho⟩ := h.exists_obj hheld
  simp only [RefCountTable.releDec, ho]
  split
  · have hcrash := unlink_crashes (s := s.dec i fp o) h.empty i fp o
    rw [hcrash]
    exact inv_crash h hfp rfl rfl rfl
  · have hlast : o.count ≠ 1 := by omega
    have hlive : Live ((s.dec i fp o).go i .releUnlockHash) :=
      h.dec hheld hfp ho hlast trivial (by simp [Private, hpc])
    exact hlive.inv

/-- `foo_find` comes to the end of an empty chain. -/
theorem Live.findTest (h : Live s) {v : Version} {id : ℤ} {p : Option ℕ}
    (hpc : s.pc i = .findTest id p) : Live (findTest v s i id p) := by
  obtain rfl : p = none := by simpa [PcOk, hpc] using h.pcs i
  have hrecord : Live (s.record id none) := by
    refine ⟨h.running, h.empty, h.counts, h.objects, h.remain, h.owned, ?_, h.freed, h.pcs⟩
    intro r hr
    obtain rfl | hr := List.mem_cons.mp hr
    · refine ⟨rfl, fun hexisted hnil => ?_⟩
      have hnil : s.published = [] := hnil
      simp [State.existing, hnil] at hexisted
    · exact h.finds r hr
  exact hrecord.go trivial fun fp hp => absurd hp (by simp [Private, State.record, hpc])

theorem Live.step (h : Live s) {v : Version} (ht : step v s i = some t) : Inv t := by
  have hok := h.pcs i
  simp only [RefCountTable.step, h.running, Bool.false_eq_true, if_false] at ht
  cases hpc : s.pc i <;> simp only [hpc, PcOk] at ht hok
  -- no object is private to a thread outside of `foo_alloc`
  all_goals try have hprivate {q : Pc} : ∀ fp, Private (s.pc i) fp → Private q fp := by simp [Private, hpc]
  case idle => cases ht
  case allocLockHash fp =>
    refine (h.lockHash ht hok ?_).inv
    intro fp' hp
    obtain rfl : fp = fp' := by simpa [Private, hpc] using hp
    exact .inr rfl
  case allocInsert fp => exact .reached ht (h.insert hpc)
  case allocLock fp => exact (h.lockObj ht hok hok hprivate).inv
  case allocUnlockHash fp =>
    cases v with
    | mutex2 => exact .reached ht (h.unlockHash hok hprivate)
    | mutex3 => exact .reached ht (h.unlockHash trivial hprivate)
  case allocUnlock fp => exact .reached ht (h.unlockObj hok trivial hprivate)
  case holdLock fp =>
    cases v with
    | mutex2 => exact (h.lockObj ht hok.2 hok hprivate).inv
    | mutex3 => exact (h.lockHash ht hok hprivate).inv
  case holdInc fp => exact .reached ht (h.inc hok.1 hok.2 hok.2 hprivate)
  case holdUnlock fp =>
    cases v with
    | mutex2 => exact .reached ht (h.unlockObj hok trivial hprivate)
    | mutex3 => exact .reached ht (h.unlockHash trivial hprivate)
  case findLockHash id idx => exact (h.lockHash ht trivial hprivate).inv
  case findFirst id idx => exact .reached ht (h.go (h.empty idx) hprivate)
  case findTest id p => exact .reached ht (h.findTest hpc)
  case findUnlockHash => exact .reached ht (h.unlockHash trivial hprivate)
  case releLock fp =>
    cases v with
    | mutex2 => exact (h.lockObj ht hok.2 hok hprivate).inv
    | mutex3 => exact (h.lockHash ht hok hprivate).inv
  case releTest fp => exact .reached ht (h.releTest hpc)
  case releUnlock fp => exact .reached ht (h.unlockObj hok.2 hok hprivate)
  case releLockHash fp => exact (h.lockHash ht hok hprivate).inv
  case releRelock fp => exact (h.lockObj ht hok.2 hok hprivate).inv
  case releRetest fp =>
    obtain rfl := Option.some.inj ht
    exact h.releRetest hpc
  case releDec fp =>
    obtain rfl := Option.some.inj ht
    exact h.releDec hpc
  case releUnlockKept fp => exact .reached ht (h.unlockObj hok trivial hprivate)
  case releUnlockBoth fp => exact .reached ht (h.unlockObj hok trivial hprivate)
  case releUnlockHash => exact .reached ht (h.unlockHash trivial hprivate)

/-- `malloc` gives memory that nobody refers to. -/
theorem Live.alloc (h : Live s) (hidle : s.pc i = .idle) (hfree : s.heap fp = none) (p : Option ℕ)
    (id : ℤ) :
    Live ({ s.setObj fp ⟨1, none, p, id⟩ with held := (i, fp) :: s.held }.go i (.allocLockHash fp)) := by
  have hnone : s.count fp = none := by simp [State.count, hfree]
  have hzero : refs s.held fp = 0 := by
    refine List.countP_eq_zero.mpr fun r hr heq => ?_
    obtain rfl : r.2 = fp := by simpa using heq
    exact h.objects r hr hnone
  refine h.grant (by rw [hzero]) (.inr (.inl rfl)) List.mem_cons_self ?_
  simp [Private, hidle]

theorem Live.pass (h : Live s) (hidle : s.pc i = .idle) (hheld : (i, fp) ∈ s.held) (j : ι) :
    Live { s with held := (j, fp) :: s.held.erase (i, fp) } := by
  have hrefs : refs ((j, fp) :: s.held.erase (i, fp)) = refs s.held := by
    funext fp'
    rw [refs_cons, ← refs_erase hheld]
  constructor
  · exact h.running
  · exact h.empty
  · intro fp' n hn
    show n = refs ((j, fp) :: s.held.erase (i, fp)) fp'
    rw [hrefs]
    exact h.counts fp' n hn
  · intro r hr
    obtain rfl | hr := List.mem_cons.mp hr
    · exact h.objects (i, fp) hheld
    · exact h.objects r (List.mem_of_mem_erase hr)
  · intro fp' hfp'
    show 0 < refs ((j, fp) :: s.held.erase (i, fp)) fp'
    rw [hrefs]
    exact h.remain fp' hfp'
  · intro r hr
    obtain rfl | hr := List.mem_cons.mp hr
    · exact .inl (h.idle_published hidle hheld)
    · exact h.owned r (List.mem_of_mem_erase hr)
  · exact h.finds
  · exact h.freed
  · intro k
    by_cases hk : k = i
    · subst hk
      show PcOk _ _ k (s.pc k)
      rw [hidle]
      trivial
    · exact (h.pcs k).mono (fun fp' hm => List.mem_cons_of_mem _ (mem_erase_other hk hm)) fun _ hm => hm

theorem Live.call (h : Live s) (hidle : s.pc i = .idle) {c : Call} (huses : uses s (.call i c) = true)
    (ht : call s i c = some t) : Live t := by
  have hprivate {q : Pc} : ∀ fp, Private (s.pc i) fp → Private q fp := by simp [Private, hidle]
  cases c with
  | alloc fp p id =>
    simp only [RefCountTable.call] at ht
    split at ht
    · obtain rfl := Option.some.inj ht
      exact h.alloc hidle ‹_› p id
    · cases ht
  | allocFails => exact Option.some.inj ht ▸ h
  | hold fp =>
    obtain rfl := Option.some.inj ht
    have hheld : (i, fp) ∈ s.held := by simpa [uses] using huses
    exact h.go ⟨hheld, h.idle_published hidle hheld⟩ hprivate
  | find id fp =>
    obtain rfl := Option.some.inj ht
    exact h.go trivial hprivate
  | rele fp =>
    obtain rfl := Option.some.inj ht
    have hheld : (i, fp) ∈ s.held := by simpa [uses] using huses
    exact h.go ⟨hheld, h.idle_published hidle hheld⟩ hprivate

theorem Inv.next (h : Inv s) {v : Version} {a : Action ι} (huses : uses s a = true)
    (ht : next v s a = some t) : Inv t := by
  cases a with
  | call i c =>
    simp only [RefCountTable.next] at ht
    split at ht
    · rename_i hcan
      exact ((h.live hcan.1).call hcan.2 huses ht).inv
    · cases ht
  | step i =>
    have hrunning : s.crashed = false := by
      by_contra hc
      simp [RefCountTable.next, RefCountTable.step, hc] at ht
    exact (h.live hrunning).step ht
  | pass i j fp =>
    simp only [RefCountTable.next] at ht
    split at ht
    · rename_i hcan
      obtain rfl := Option.some.inj ht
      exact ((h.live hcan.1).pass hcan.2 (by simpa [uses] using huses) j).inv
    · cases ht

/-- `foo_rele` runs into the null pointer exactly when the reference is the last one. -/
theorem Live.last_release (h : Live s) {v : Version}
    (hpc : s.pc i = .releRetest fp ∨ s.pc i = .releDec fp) :
    ∃ t, RefCountTable.step v s i = some t ∧ (t.crashed = true ↔ refs s.held fp = 1) := by
  have hok : (i, fp) ∈ s.held ∧ fp ∈ s.published := by
    rcases hpc with hpc | hpc <;> simpa [PcOk, hpc] using h.pcs i
  obtain ⟨o, ho⟩ := h.exists_obj hok.1
  have hcount := h.counts fp o.count (count_eq ho)
  have hpos := refs_pos hok.1
  rcases hpc with hpc | hpc
  · refine ⟨RefCountTable.releRetest s i fp, by simp [RefCountTable.step, h.running, hpc], ?_⟩
    have hcrash := unlink_crashes (s := { s with held := s.held.erase (i, fp) }) h.empty i fp o
    simp only [RefCountTable.releRetest, ho, hcrash]
    by_cases hlast : o.count = 1
    · simp [hlast, State.crash, ← hcount]
    · simp [hlast, State.dec, State.go, State.setObj, h.running, ← hcount]
  · refine ⟨RefCountTable.releDec s i fp, by simp [RefCountTable.step, h.running, hpc], ?_⟩
    have hcrash := unlink_crashes (s := s.dec i fp o) h.empty i fp o
    simp only [RefCountTable.releDec, ho, hcrash]
    by_cases hlast : o.count = 1
    · simp [hlast, State.crash, ← hcount]
    · have hlast' : ¬ o.count - 1 = 0 := by omega
      rw [if_neg hlast', ← hcount]
      simp [hlast, State.dec, State.go, State.setObj, h.running]

end Steps

end Invariant

/-! ## The table as it should be -/

section Runs

variable {ι : Type}

/-- `fp` is on the chain that starts at the given pointer. -/
inductive OnChain (heap : ℕ → Option (Obj ι)) (fp : ℕ) : Option ℕ → Prop
  | here : OnChain heap fp (some fp)
  | there {tfp : ℕ} {o : Obj ι} (ho : heap tfp = some o) (h : OnChain heap fp o.next) :
      OnChain heap fp (some tfp)

def Releasing (pc : Pc) (fp : ℕ) : Prop :=
  (∃ tfp, pc = .releWalk fp tfp) ∨ pc = .releUnlinked fp ∨ pc = .releUnlockUnlinked fp ∨ pc = .releFree fp

structure Consistent (s : State ι) : Prop where
  chained : ∀ fp ∈ s.published, ∀ o, s.heap fp = some o → 0 < o.count →
    OnChain s.heap fp (s.fh (hash fp))
  found : ∀ r ∈ s.finds, r.existed = true → r.result ≠ none
  once : s.freed.Nodup ∧ ∀ fp ∈ s.freed, fp ∈ s.published ∧ refs s.held fp = 0
  freed : ∀ fp ∈ s.published, refs s.held fp = 0 → fp ∈ s.freed ∨ ∃ i, Releasing (s.pc i) fp
  inside : s.crashed = false

theorem Inv.consistent_iff {s : State ι} (h : Inv s) : Consistent s ↔ s.published = [] := by
  constructor
  · intro hs
    by_contra hne
    obtain ⟨fp, hfp⟩ := List.exists_mem_of_ne_nil _ hne
    have hlive := h.live hs.inside
    obtain ⟨o, ho⟩ := hlive.published_obj hfp
    have hpos : 0 < o.count := by
      rw [hlive.counts fp o.count (count_eq ho)]
      exact hlive.remain fp hfp
    have hchain := hs.chained fp hfp o ho hpos
    rw [hlive.empty] at hchain
    cases hchain
  · intro hnil
    have hrunning : s.crashed = false := by
      by_contra hc
      exact h.crashed (by simpa using hc) hnil
    constructor
    · simp [hnil]
    · exact fun r hr hexisted => absurd hnil ((h.finds r hr).2 hexisted)
    · simp [h.freed]
    · simp [hnil]
    · exact hrunning

variable [DecidableEq ι]

/-- In every state the table is as it should be exactly when no object has been put into it: an
object is never on its chain, `foo_find` returns null always, nothing is ever freed, and the release
of a last reference follows a null pointer. The counts themselves are right. -/
theorem consistent_iff_nothing_allocated (v : Version) {s : State ι}
    (h : Run (next v) (fun s a => uses s a = true) start s) :
    (Consistent s ↔ s.published = []) ∧ (∀ r ∈ s.finds, r.result = none) ∧ s.freed = [] ∧
      (s.crashed = false → (∀ fp o, s.heap fp = some o → o.count = refs s.held fp) ∧
        ∀ i fp, s.pc i = .releRetest fp ∨ s.pc i = .releDec fp →
          ∃ t, step v s i = some t ∧ (t.crashed = true ↔ refs s.held fp = 1)) := by
  have hinv : Inv s := h.invariant live_start.inv fun _ _ _ hs huses ht => hs.next huses ht
  refine ⟨hinv.consistent_iff, fun r hr => (hinv.finds r hr).1, hinv.freed, fun hrunning => ⟨?_, ?_⟩⟩
  · exact fun fp o ho => (hinv.live hrunning).counts fp o.count (count_eq ho)
  · exact fun i fp hpc => (hinv.live hrunning).last_release hpc

end Runs

/-- Thread 0 allocates an object with id 7, and thread 1 looks for it. -/
def lookup : List (Action (Fin 2)) :=
  [.call 0 (.alloc 40 none 7), .step 0, .step 0, .step 0, .step 0, .step 0, .call 1 (.find 7 40), .step 1,
    .step 1, .step 1, .step 1]

theorem consistent_iff_one_object :
    ∃ s : State (Fin 2), s.published = [40] ∧ s.finds = [⟨7, none, true⟩] ∧
      (Consistent s ↔ s.published = []) := by
  obtain ⟨s, hrun, hs⟩ := followAllowed_reaches uses (next .mutex2) (start : State (Fin 2)) lookup
    (fun s => s.published = [40] && s.finds = [⟨7, none, true⟩]) (by decide +kernel)
  simp only [Bool.and_eq_true, decide_eq_true_eq] at hs
  exact ⟨s, hs.1, hs.2, (consistent_iff_nothing_allocated .mutex2 hrun).1⟩

/-- A thread that looks for its object does not find it and crashes when it releases it. -/
def Crashes (v : Version) : Prop :=
  ∃ s : State (Fin 1), Run (next v) (fun s a => uses s a = true) start s ∧
    s.finds = [⟨7, none, true⟩] ∧ s.crashed = true ∧ ¬ Consistent s

theorem crashes_of_actions (v : Version) (as : List (Action (Fin 1)))
    (h : (followAllowed uses (next v) start as).any
      (fun s => s.finds = [⟨7, none, true⟩] && s.crashed) = true) : Crashes v := by
  obtain ⟨s, hrun, hs⟩ := followAllowed_reaches uses (next v) start as _ h
  simp only [Bool.and_eq_true, decide_eq_true_eq] at hs
  exact ⟨s, hrun, hs.1, hs.2, fun hc => by simp [hc.inside] at hs⟩

/-- It does in both versions. -/
theorem release_crashes : Crashes .mutex2 ∧ Crashes .mutex3 := by
  constructor
  · refine crashes_of_actions .mutex2
      [.call 0 (.alloc 40 none 7), .step 0, .step 0, .step 0, .step 0, .step 0,
        .call 0 (.find 7 40), .step 0, .step 0, .step 0, .step 0,
        .call 0 (.rele 40), .step 0, .step 0, .step 0, .step 0, .step 0, .step 0] ?_
    decide +kernel
  · refine crashes_of_actions .mutex3
      [.call 0 (.alloc 40 none 7), .step 0, .step 0, .step 0, .step 0,
        .call 0 (.find 7 40), .step 0, .step 0, .step 0, .step 0,
        .call 0 (.rele 40), .step 0, .step 0] ?_
    decide +kernel

end RefCountTable
