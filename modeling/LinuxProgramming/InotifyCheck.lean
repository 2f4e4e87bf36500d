import LinuxProgramming.InotifyDtree

/-! # The two checks of the directory cache

`checkCacheConsistency` runs on its own, `checkAllCachedPathnamesExist` on request. A pathname has a
mode, of which only whether it is a directory is looked at, or `lstat` fails with an error. A failed
`lstat` leaves the buffer as it was, and `junk` is what the buffer holds before the first one. -/
namespace InotifyCheck

open InotifyDtree

/-- `lstat`: the error, or whether it is a directory. -/
abbrev FileSystem := Path → Except ℕ Bool

/-- The calls of `logMessage`. -/
inductive Message where
  | stat (slot wd : ℕ) (path : Path) (errno : ℕ)
  | notDirectory (path : Path)
  | verifiedSlot (slot wd : ℕ) (path : Path)
  | verified (cnt : ℕ)
  | failures (failures : ℕ)
  deriving DecidableEq, Repr

/-- The number of failures, or the end of the program; and the messages. -/
abbrev Outcome := Option ℕ × List Message

def Outcome.log (m : Message) (o : Outcome) : Outcome := (o.1, m :: o.2)

/-- The loop of `checkCacheConsistency`; `sb` is the one stat buffer of all rounds. -/
def consistencyLoop (lstat : FileSystem) : List Watch → ℕ → Bool → ℕ → Outcome
  | [], _, _, failures => (some failures, if failures > 0 then [.failures failures] else [])
  | w :: cache, j, sb, failures =>
    match w.wd with
    | some wd =>
      match lstat w.path with
      | .error e =>
        Outcome.log (.stat j wd w.path e) (consistencyLoop lstat cache (j + 1) sb (failures + 1))
      | .ok isDir => consistencyLoop lstat cache (j + 1) isDir failures
    | none =>
      -- the else of the test of wd
      if sb = false then (none, [.notDirectory w.path])
      else consistencyLoop lstat cache (j + 1) sb failures

def checkCacheConsistency (lstat : FileSystem) (junk : Bool) (cache : List Watch) : Outcome :=
  consistencyLoop lstat cache 0 junk 0

/-- The loop of `checkAllCachedPathnamesExist`; `loud` is whether the command is `c`. -/
def existLoop (lstat : FileSystem) (loud : Bool) : List Watch → ℕ → ℕ → ℕ → Outcome
  | [], _, cnt, failures => (some failures, [.verified cnt, .failures failures])
  | w :: cache, j, cnt, failures =>
    match w.wd with
    | some wd =>
      match lstat w.path with
      | .error e =>
        let rest := existLoop lstat loud cache (j + 1) cnt (failures + 1)
        if loud then rest.log (.stat j wd w.path e) else rest
      | .ok false => (none, if loud then [.notDirectory w.path] else [])
      | .ok true =>
        let rest := existLoop lstat loud cache (j + 1) (cnt + 1) failures
        if loud then rest.log (.verifiedSlot j wd w.path) else rest
    | none => existLoop lstat loud cache (j + 1) cnt failures

def checkAllCachedPathnamesExist (lstat : FileSystem) (loud : Bool) (cache : List Watch) : Outcome :=
  existLoop lstat loud cache 0 0 0

/-! ## What the loops find -/

variable {lstat : FileSystem} {cache : List Watch}

def isMissing (lstat : FileSystem) (w : Watch) : Bool :=
  w.wd.isSome && !(lstat w.path).toBool

def isNonDirectory (lstat : FileSystem) (w : Watch) : Bool :=
  w.wd.isSome && (lstat w.path).toOption == some false

def LiveNonDirectory (lstat : FileSystem) (cache : List Watch) : Prop :=
  ∃ w ∈ cache, isNonDirectory lstat w = true

def statBuffer (lstat : FileSystem) (sb : Bool) (cache : List Watch) : Bool :=
  cache.foldl (fun sb w => if w.wd.isSome then ((lstat w.path).toOption).getD sb else sb) sb

/-- An unused slot comes when the stat buffer is not that of a directory. -/
def StaleNonDirectory (lstat : FileSystem) (junk : Bool) (cache : List Watch) : Prop :=
  ∃ before w after, cache = before ++ w :: after ∧ w.wd = none ∧ statBuffer lstat junk before = false

theorem staleNonDirectory_cons (sb : Bool) (w : Watch) (cache : List Watch) :
    StaleNonDirectory lstat sb (w :: cache) ↔
      (w.wd = none ∧ sb = false) ∨ StaleNonDirectory lstat (statBuffer lstat sb [w]) cache := by
  constructor
  · rintro ⟨before, v, after, heq, hv, hsb⟩
    cases before with
    | nil =>
      obtain ⟨rfl, rfl⟩ := List.cons.inj heq
      exact .inl ⟨hv, hsb⟩
    | cons u before =>
      obtain ⟨rfl, rfl⟩ := List.cons.inj heq
      exact .inr ⟨before, v, after, rfl, hv, hsb⟩
  · rintro (⟨hv, hsb⟩ | ⟨before, v, after, rfl, hv, hsb⟩)
    · exact ⟨[], w, cache, rfl, hv, hsb⟩
    · exact ⟨w :: before, v, after, rfl, hv, hsb⟩

theorem consistencyLoop_spec (lstat : FileSystem) (cache : List Watch) (j : ℕ) (sb : Bool) (failures : ℕ) :
    ((consistencyLoop lstat cache j sb failures).1 = none ↔ StaleNonDirectory lstat sb cache) ∧
      ∀ f, (consistencyLoop lstat cache j sb failures).1 = some f →
        f = failures + cache.countP (isMissing lstat) := by
  induction cache generalizing j sb failures with
  | nil =>
    refine ⟨?_, ?_⟩
    · simp [consistencyLoop, StaleNonDirectory]
    · rintro f ⟨⟩
      simp
  | cons w cache ih =>
    rw [staleNonDirectory_cons, List.countP_cons]
    cases hwd : w.wd with
    | none =>
      have hmissing : isMissing lstat w = false := by simp [isMissing, hwd]
      have hbuffer : statBuffer lstat sb [w] = sb := by simp [statBuffer, hwd]
      rw [consistencyLoop, hwd, hmissing, hbuffer]
      cases sb with
      | false => simp
      | true => simpa using ih (j + 1) true failures
    | some wd =>
      cases hstat : lstat w.path with
      | error e =>
        have hmissing : isMissing lstat w = true := by simp [isMissing, hwd, hstat, Except.toBool]
        have hbuffer : statBuffer lstat sb [w] = sb := by simp [statBuffer, hwd, hstat, Except.toOption]
        obtain ⟨hexit, hcount⟩ := ih (j + 1) sb (failures + 1)
        rw [consistencyLoop, hwd, hmissing, hbuffer]
        simp only [hstat, Outcome.log]
        refine ⟨by simpa using hexit, ?_⟩
        intro f hf
        have := hcount f hf
        simp only [if_true]
        omega
      | ok isDir =>
        have hmissing : isMissing lstat w = false := by simp [isMissing, hwd, hstat, Except.toBool]
        have hbuffer : statBuffer lstat sb [w] = isDir := by simp [statBuffer, hwd, hstat, Except.toOption]
        rw [consistencyLoop, hwd, hmissing, hbuffer]
        simp only [hstat]
        simpa using ih (j + 1) isDir failures

theorem liveNonDirectory_cons (w : Watch) (cache : List Watch) :
    LiveNonDirectory lstat (w :: cache) ↔ isNonDirectory lstat w = true ∨ LiveNonDirectory lstat cache := by
  simp [LiveNonDirectory]

theorem existLoop_spec (lstat : FileSystem) (loud : Bool) (cache : List Watch) (j cnt failures : ℕ) :
    ((existLoop lstat loud cache j cnt failures).1 = none ↔ LiveNonDirectory lstat cache) ∧
      ∀ f, (existLoop lstat loud cache j cnt failures).1 = some f →
        f = failures + cache.countP (isMissing lstat) := by
  have hlog (m : Message) (o : Outcome) : (if loud then o.log m else o).1 = o.1 := by
    cases loud <;> rfl
  induction cache generalizing j cnt failures with
  | nil =>
    refine ⟨?_, ?_⟩
    · simp [existLoop, LiveNonDirectory]
    · rintro f ⟨⟩
      simp
  | cons w cache ih =>
    rw [liveNonDirectory_cons, List.countP_cons]
    cases hwd : w.wd with
    | none =>
      have hmissing : isMissing lstat w = false := by simp [isMissing, hwd]
      have hnondir : isNonDirectory lstat w = false := by simp [isNonDirectory, hwd]
      rw [existLoop, hwd, hmissing, hnondir]
      simpa using ih (j + 1) cnt failures
    | some wd =>
      cases hstat : lstat w.path with
      | error e =>
        have hmissing : isMissing lstat w = true := by simp [isMissing, hwd, hstat, Except.toBool]
        have hnondir : isNonDirectory lstat w = false := by
          simp [isNonDirectory, hstat, Except.toOption]
        obtain ⟨hexit, hcount⟩ := ih (j + 1) cnt (failures + 1)
        rw [existLoop, hwd, hmissing, hnondir]
        simp only [hstat, hlog]
        refine ⟨by simpa using hexit, ?_⟩
        intro f hf
        have := hcount f hf
        simp only [if_true]
        omega
      | ok isDir =>
        have hmissing : isMissing lstat w = false := by simp [isMissing, hwd, hstat, Except.toBool]
        have hnondir : isNonDirectory lstat w = !isDir := by
          cases isDir <;> simp [isNonDirectory, hwd, hstat, Except.toOption]
        rw [existLoop, hwd, hmissing, hnondir]
        cases isDir with
        | false => simp [hstat]
        | true =>
          simp only [hstat, hlog]
          simpa using ih (j + 1) (cnt + 1) failures

/-! ## When they agree -/

/-- The automatic check ends the program for the reason it should, counts what it should, and the
manual one agrees. -/
structure ChecksAgree (lstat : FileSystem) (junk : Bool) (cache : List Watch) : Prop where
  exits : (checkCacheConsistency lstat junk cache).1 = none ↔ LiveNonDirectory lstat cache
  counts : ∀ f, (checkCacheConsistency lstat junk cache).1 = some f →
    f = cache.countP (isMissing lstat)
  manual : ∀ loud, (checkAllCachedPathnamesExist lstat loud cache).1 =
    (checkCacheConsistency lstat junk cache).1

/-- The check is right, and then the manual one agrees, exactly when the stat buffer left over from a
live slot is seen to be that of no directory if and only if one of the live slots has none. -/
theorem checksAgree_iff (lstat : FileSystem) (junk : Bool) (cache : List Watch) :
    ChecksAgree lstat junk cache ↔
      (StaleNonDirectory lstat junk cache ↔ LiveNonDirectory lstat cache) := by
  obtain ⟨hexit, hcount⟩ := consistencyLoop_spec lstat cache 0 junk 0
  constructor
  · intro h
    exact hexit.symm.trans h.exits
  · intro h
    refine ⟨hexit.trans h, fun f hf => (hcount f hf).trans (Nat.zero_add _), fun loud => ?_⟩
    obtain ⟨hexit', hcount'⟩ := existLoop_spec lstat loud cache 0 0 0
    unfold checkAllCachedPathnamesExist checkCacheConsistency
    cases hauto : (consistencyLoop lstat cache 0 junk 0).1 with
    | none => exact hexit'.mpr (h.mp (hexit.mp hauto))
    | some f =>
      cases hmanual : (existLoop lstat loud cache 0 0 0).1 with
      | none =>
        rw [hexit.mpr (h.mpr (hexit'.mp hmanual))] at hauto
        cases hauto
      | some f' => rw [hcount f hauto, hcount' f' hmanual]

/-- A live slot with a file goes unnoticed; an unused slot ends the program for what the buffer
happens to hold. -/
theorem file_unnoticed :
    let lstat : FileSystem := fun _ => .ok false
    let file : Watch := ⟨some 1, [47, 102]⟩
    (checkCacheConsistency lstat true [file]).1 = some 0 ∧
      (checkAllCachedPathnamesExist lstat false [file]).1 = none ∧ LiveNonDirectory lstat [file] ∧
      (checkCacheConsistency lstat false [emptySlot]).1 = none ∧
      (checkAllCachedPathnamesExist lstat false [emptySlot]).1 = some 0 := by
  exact ⟨rfl, rfl, ⟨_, List.mem_singleton_self _, rfl⟩, rfl, rfl⟩

end InotifyCheck
