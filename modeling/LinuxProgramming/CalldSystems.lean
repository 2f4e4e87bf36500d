import LinuxProgramming.CalldFiles

/-! # Retries walk the Systems file once

Whatever other clients do with the stream between two calls of `request` for a client, the lines
that are looked at for it are the matching lines of the file in their order. -/
namespace CalldSystems

open CStrings TextLines Interleaving CalldFiles
open Calld (Name Pid Lock pidOf findLine)
open CalldSteps (pidOf_findLine)

variable {files : Files} {sysname speed : Name} {ls done todo : List (List Byte)}

/-! ## Matching lines and their devices -/

theorem wanted_iff {sys : Systems} :
    wanted sysname speed sys = true ↔ sysname = sys.name ∧ (speed = [] ∨ speed = sys.class') := by
  simp [wanted]

def matchesLine (sysname speed : Name) (line : List Byte) : Bool :=
  match sysLine line with
  | .entry sys => wanted sysname speed sys
  | _ => false

theorem matchesLine_skip {line : List Byte} (h : sysLine line = .skip) (sysname speed : Name) :
    matchesLine sysname speed line = false := by
  rw [matchesLine, h]

theorem matchesLine_entry {line : List Byte} {sys : Systems} (h : sysLine line = .entry sys)
    (sysname speed : Name) : matchesLine sysname speed line = wanted sysname speed sys := by
  rw [matchesLine, h]

def matching (sysname speed : Name) (ls : List (ℕ × List Byte)) : List ℕ :=
  (ls.filter fun x => matchesLine sysname speed x.2).map Prod.fst

def deviceEntry (line : List Byte) : Option Devices :=
  match devLine line with
  | .entry dev => some dev
  | _ => none

/-- The first entry of the Devices file for the type and the class. -/
def firstDevice (ls : List (List Byte)) (sys : Systems) : Option Devices :=
  (ls.filterMap deviceEntry).find? fun d => sys.type = d.type && sys.class' = d.class'

theorem deviceEntry_eq {line : List Byte} {dev : Devices} (h : devLine line = .entry dev) :
    deviceEntry line = some dev := by
  rw [deviceEntry, h]

theorem deviceEntry_skip {line : List Byte} (h : devLine line = .skip) : deviceEntry line = none := by
  rw [deviceEntry, h]

theorem firstDevice_skip {line : List Byte} (sys : Systems) (h : devLine line = .skip) :
    firstDevice (line :: ls) sys = firstDevice ls sys := by
  rw [firstDevice, List.filterMap_cons_none (deviceEntry_skip h), firstDevice]

theorem firstDevice_entry {line : List Byte} {dev : Devices} (sys : Systems)
    (h : devLine line = .entry dev) :
    firstDevice (line :: ls) sys =
      if sys.type = dev.type ∧ sys.class' = dev.class' then some dev else firstDevice ls sys := by
  have hdec : (decide (sys.type = dev.type) && decide (sys.class' = dev.class')) =
      decide (sys.type = dev.type ∧ sys.class' = dev.class') := (Bool.decide_and _ _).symm
  rw [firstDevice, List.filterMap_cons_some (deviceEntry_eq h), List.find?_cons, hdec]
  by_cases hm : sys.type = dev.type ∧ sys.class' = dev.class'
  · rw [decide_eq_true hm, if_pos hm]
  · rw [decide_eq_false hm, if_neg hm, firstDevice]

def Found.ofOption : Option Devices → Found
  | none => .notFound
  | some dev => .found dev

/-- `dev_find` finds the first entry, unless a malformed line ends the daemon before. -/
theorem devFind_eq (sys : Systems) (ls : List (List Byte)) (n : ℕ) :
    (∃ line ∈ ls, ∃ field m, devLine line = .missing field ∧ devFind sys ls n = .missing field m) ∨
      devFind sys ls n = Found.ofOption (firstDevice ls sys) := by
  induction ls generalizing n with
  | nil => exact .inr rfl
  | cons line ls ih =>
    -- the rest of the file decides
    have hrest : (∃ l ∈ line :: ls, ∃ field m, devLine l = .missing field ∧
        devFind sys ls (n + 1) = .missing field m) ∨
          devFind sys ls (n + 1) = Found.ofOption (firstDevice ls sys) := by
      rcases ih (n + 1) with ⟨l, hl, h⟩ | h
      · exact .inl ⟨l, List.mem_cons_of_mem _ hl, h⟩
      · exact .inr h
    rw [devFind]
    cases hl : devLine line with
    | skip =>
      rw [firstDevice_skip sys hl]
      exact hrest
    | missing field => exact .inl ⟨line, by simp, field, n + 1, hl, rfl⟩
    | entry dev =>
      rw [firstDevice_entry sys hl]
      simp only
      split
      · exact .inr rfl
      · exact hrest

/-! ## The model that counts entries

Where no line is malformed, a call does what `Calld.request` does on the lists of entries. -/

def entryOf (sys : Systems) : Calld.Systems := ⟨sys.name, sys.type, sys.class'⟩
def deviceOf (dev : Devices) : Calld.Devices := ⟨dev.type, dev.line, dev.class'⟩

def systemEntry (line : List Byte) : Option Systems :=
  match sysLine line with
  | .entry sys => some sys
  | _ => none

def outcomeOf : Name ⊕ Calld.ErrMsg → Outcome
  | .inl line => .started line
  | .inr errmsg => .refused errmsg

theorem devFind_map (devs : List (List Byte)) (sys : Systems) :
    Calld.devFind ((devs.filterMap deviceEntry).map deviceOf) (entryOf sys) =
      (firstDevice devs sys).map deviceOf := by
  rw [Calld.devFind, List.find?_map, firstDevice]
  congr 2
  funext d
  simp only [Function.comp_apply, deviceOf, entryOf, @eq_comm _ d.type, @eq_comm _ d.class']

/-- The two models agree on what is started or refused, and on the locks. -/
theorem tryLines_refines {devs : List (List Byte)}
    (hsys : ∀ l ∈ ls, ∀ field, sysLine l ≠ .missing field)
    (hdev : ∀ l ∈ devs, ∀ field, devLine l ≠ .missing field) (s : Scan) (k : ℕ) :
    let t := tryLines devs sysname speed ls s
    let r := Calld.tryFrom ((devs.filterMap deviceEntry).map deviceOf) sysname speed
      ((ls.filterMap systemEntry).map entryOf) k s.foundone s.lock s.errmsg
    t.outcome = outcomeOf r.outcome ∧ t.scan.foundone = r.foundone ∧ t.scan.lock = r.lock ∧
      t.sysftell.isSome = r.sysftell.isSome := by
  induction ls generalizing s k with
  | nil => exact ⟨rfl, rfl, rfl, rfl⟩
  | cons line ls ih =>
    have hrest := ih fun l hl => hsys l (by simp [hl])
    rw [tryLines]
    cases hl : sysLine line with
    | skip =>
      have hnone : systemEntry line = none := by rw [systemEntry, hl]
      rw [List.filterMap_cons_none hnone]
      exact hrest (s.past line) k
    | missing field => exact absurd hl (hsys line (by simp) field)
    | entry sys =>
      have hsome : systemEntry line = some sys := by rw [systemEntry, hl]
      rw [List.filterMap_cons_some hsome, List.map_cons, Calld.tryFrom, devFind_map]
      simp only [tryOne]
      cases hw : wanted sysname speed sys with
      | false =>
        have hno : ¬ ((entryOf sys).name = sysname ∧ (speed = [] ∨ speed = (entryOf sys).class')) := by
          rintro ⟨hname, hspeed⟩
          rw [wanted_iff.mpr ⟨hname.symm, hspeed⟩] at hw
          cases hw
        rw [if_neg hno]
        exact hrest (s.past line) (k + 1)
      | true =>
        obtain ⟨hname, hspeed⟩ := wanted_iff.mp hw
        have hyes : (entryOf sys).name = sysname ∧ (speed = [] ∨ speed = (entryOf sys).class') :=
          ⟨hname.symm, hspeed⟩
        rw [if_pos hyes, if_pos rfl]
        rcases devFind_eq sys devs 0 with ⟨l, hmem, field, -, hmissing, -⟩ | hd
        · exact absurd hmissing (hdev l hmem field)
        · rw [hd]
          cases firstDevice devs sys with
          | none => exact ⟨rfl, rfl, rfl, rfl⟩
          | some dev =>
            simp only [Found.ofOption, Option.map_some, deviceOf]
            by_cases hpid : pidOf (findLine s.lock dev.line) dev.line = 0
            · have hfree : ¬ pidOf (findLine (s.past line).lock dev.line) dev.line ≠ 0 :=
                not_ne_iff.mpr hpid
              rw [if_pos hpid, if_neg hfree]
              exact ⟨rfl, rfl, rfl, rfl⟩
            · have hlocked : pidOf (findLine (s.past line).lock dev.line) dev.line ≠ 0 := hpid
              rw [if_neg hpid, if_pos hlocked]
              exact hrest _ (k + 1)

/-! ## What the log of a client says -/

def VerdictOK (files : Files) (sys : Systems) (x : Exam) : Prop :=
  match x.verdict with
  | .noDevice => firstDevice (lines files.devices) sys = none
  | .locked => ∃ d, firstDevice (lines files.devices) sys = some d ∧ pidOf x.lock d.line ≠ 0
  | .started => ∃ d, firstDevice (lines files.devices) sys = some d ∧ pidOf x.lock d.line = 0

/-- A line of the Systems file that matches, and what was found for it. -/
structure Sound (files : Files) (sysname speed : Name) (x : Exam) (line : List Byte) (sys : Systems) :
    Prop where
  place : (x.line, line) ∈ placed 0 (lines files.systems)
  entry : sysLine line = .entry sys
  wants : wanted sysname speed sys = true
  verdict : VerdictOK files sys x

/-- The log when the lines of `done` have been read. -/
structure LogOK (files : Files) (sysname speed : Name) (done : List (List Byte)) (log : List Exam) :
    Prop where
  offsets : log.map Exam.line = matching sysname speed (placed 0 done)
  sound : ∀ x ∈ log, ∃ line sys, Sound files sysname speed x line sys

theorem matching_append (sysname speed : Name) (done : List (List Byte)) (line : List Byte) :
    matching sysname speed (placed 0 (done ++ [line])) = matching sysname speed (placed 0 done) ++
      if matchesLine sysname speed line then [done.flatten.length] else [] := by
  rw [placed_append, matching, matching, List.filter_append, List.map_append, Nat.zero_add]
  congr 1
  simp only [placed, List.filter_cons, List.filter_nil]
  split <;> rfl

theorem LogOK.pass {log : List Exam} {line : List Byte} (h : LogOK files sysname speed done log)
    (hline : matchesLine sysname speed line = false) :
    LogOK files sysname speed (done ++ [line]) log := by
  refine ⟨?_, h.sound⟩
  rw [matching_append, hline, h.offsets]
  simp

theorem LogOK.examined {log : List Exam} {line : List Byte} {sys : Systems} {lock : List Lock}
    {verdict : Verdict} (h : LogOK files sysname speed done log)
    (hsys : lines files.systems = done ++ line :: todo) (hentry : sysLine line = .entry sys)
    (hwanted : wanted sysname speed sys = true)
    (hverdict : VerdictOK files sys ⟨done.flatten.length, lock, verdict⟩) :
    LogOK files sysname speed (done ++ [line]) (log ++ [⟨done.flatten.length, lock, verdict⟩]) := by
  constructor
  · rw [matching_append, matchesLine_entry hentry, hwanted, if_pos rfl, List.map_append, h.offsets]
    rfl
  · intro x hx
    rcases List.mem_append.mp hx with hx | hx
    · exact h.sound x hx
    · rw [List.mem_singleton.mp hx]
      refine ⟨line, sys, ?_, hentry, hwanted, hverdict⟩
      rw [hsys, placed_append, Nat.zero_add, placed]
      simp

def Kept (files : Files) (sysname speed : Name) (sysftell : Option ℕ) (log : List Exam) : Prop :=
  ∃ done todo, lines files.systems = done ++ todo ∧ LogOK files sysname speed done log ∧
    (sysftell = some done.flatten.length ∨ sysftell = none ∧ todo = [])

/-- A call of `request` that does not end the daemon. -/
theorem tryLines_kept {s : Scan} (hsys : lines files.systems = done ++ todo)
    (hposn : s.posn = done.flatten.length) (hlog : LogOK files sysname speed done s.log) :
    (∃ q, (tryLines (lines files.devices) sysname speed todo s).outcome = .quit q) ∨
      Kept files sysname speed (tryLines (lines files.devices) sysname speed todo s).sysftell
        (tryLines (lines files.devices) sysname speed todo s).scan.log := by
  induction todo generalizing done s with
  | nil => exact .inr ⟨done, [], hsys, hlog, .inr ⟨rfl, rfl⟩⟩
  | cons line todo ih =>
    have hsys' : lines files.systems = (done ++ [line]) ++ todo := by
      rw [hsys, List.append_assoc, List.singleton_append]
    have hposn' : (s.past line).posn = (done ++ [line]).flatten.length := by
      simp [Scan.past, hposn]
    rw [tryLines]
    cases hl : sysLine line with
    | skip => exact ih hsys' hposn' (hlog.pass (matchesLine_skip hl _ _))
    | missing field => exact .inl ⟨_, rfl⟩
    | entry sys =>
      simp only [tryOne]
      cases hw : wanted sysname speed sys with
      | false =>
        simp only [Bool.false_eq_true, if_false]
        exact ih hsys' hposn' (hlog.pass ((matchesLine_entry hl _ _).trans hw))
      | true =>
        simp only [if_true]
        rcases devFind_eq sys (lines files.devices) 0 with ⟨-, -, field, m, -, hd⟩ | hd
        · rw [hd]
          exact .inl ⟨_, rfl⟩
        · rw [hd]
          cases hfirst : firstDevice (lines files.devices) sys with
          | none =>
            have hexam := hlog.examined hsys hl hw
              (show VerdictOK files sys ⟨_, s.lock, .noDevice⟩ from hfirst)
            rw [← hposn] at hexam
            exact .inr ⟨_, todo, hsys', hexam, .inl (congrArg some hposn')⟩
          | some dev =>
            simp only [Found.ofOption, pidOf_findLine]
            by_cases hpid : pidOf (s.past line).lock dev.line ≠ 0
            · have hexam := hlog.examined hsys hl hw
                (show VerdictOK files sys ⟨_, s.lock, .locked⟩ from ⟨dev, hfirst, hpid⟩)
              rw [← hposn] at hexam
              rw [if_pos hpid]
              exact ih hsys' hposn' hexam
            · have hexam := hlog.examined hsys hl hw
                (show VerdictOK files sys ⟨_, s.lock, .started⟩ from
                  ⟨dev, hfirst, not_ne_iff.mp hpid⟩)
              rw [← hposn] at hexam
              rw [if_neg hpid]
              exact .inr ⟨_, todo, hsys', hexam, .inl (congrArg some hposn')⟩

/-! ## Runs -/

def LogsOK (files : Files) (s : State) : Prop :=
  ∀ i log, (s.client i).log = some log →
    Kept files (s.client i).sysname (s.client i).speed (s.client i).sysftell log

/-- The lines of both files fit the buffers. -/
structure Short (files : Files) : Prop where
  systems : ∀ l ∈ lines files.systems, l.length < maxLine
  devices : ∀ l ∈ lines files.devices, l.length < maxLine

theorem LogsOK.of_client {s t : State} (h : LogsOK files s) (hc : t.client = s.client) :
    LogsOK files t := by
  intro i log hlog
  rw [hc] at hlog ⊢
  exact h i log hlog

theorem LogsOK.setClient {s : State} {c : Client} (h : LogsOK files s) (i : ℕ)
    (hc : ∀ log, c.log = some log → Kept files c.sysname c.speed c.sysftell log) :
    LogsOK files (s.setClient i c) := by
  intro j log hlog
  by_cases hj : j = i
  · subst hj
    simp only [State.setClient, Function.update_self] at hlog ⊢
    exact hc log hlog
  · simp only [State.setClient, Function.update_of_ne hj] at hlog ⊢
    exact h j log hlog

theorem kept_nil (files : Files) (sysname speed : Name) : Kept files sysname speed (some 0) [] :=
  ⟨[], lines files.systems, rfl, ⟨rfl, by simp⟩, .inl rfl⟩

theorem requestAt_kept (hshort : Short files) {s : State} {c : Client} {posn : ℕ} {log : List Exam}
    (hlog : c.log = some log) (hk : Kept files c.sysname c.speed (some posn) log) :
    (∃ q, (requestAt files s c posn).outcome = .quit q) ∨
      Kept files c.sysname c.speed (requestAt files s c posn).sysftell
        (requestAt files s c posn).scan.log := by
  obtain ⟨done, todo, hsys, hok, hposn | ⟨hposn, -⟩⟩ := hk
  · cases hposn
    have htodo : fgetsAll maxLine (files.systems.drop done.flatten.length) = todo := by
      rw [fgetsAll_eq, lines_drop hsys]
      intro l hl
      rw [lines_drop hsys] at hl
      exact hshort.systems l (by simp [hsys, hl])
    rw [requestAt, fgetsAll_eq hshort.devices, htodo, hlog]
    exact tryLines_kept hsys rfl hok
  · cases hposn

theorem LogsOK.after (hshort : Short files) {s : State} {i posn : ℕ} (h : LogsOK files s)
    (hposn : (s.client i).sysftell = some posn)
    (hquit : ∀ q, (requestAt files s (s.client i) posn).outcome ≠ .quit q) :
    LogsOK files (s.after i (requestAt files s (s.client i) posn)) := by
  refine (h.of_client (t := { s with
    fpsys := some (requestAt files s (s.client i) posn).scan.posn
    syslineno := (requestAt files s (s.client i) posn).scan.syslineno
    lock := (requestAt files s (s.client i) posn).scan.lock }) rfl).setClient i ?_
  intro log hlog
  obtain ⟨log₀, hlog₀, rfl⟩ := Option.map_eq_some_iff.mp hlog
  have hk := h i log₀ hlog₀
  rw [hposn] at hk
  rcases requestAt_kept (s := s) hshort hlog₀ hk with ⟨q, hq⟩ | hkept
  · exact absurd hq (hquit q)
  · exact hkept

theorem LogsOK.forked {s : State} (h : LogsOK files s) (i : ℕ) (line : Name) (pid : Pid) :
    LogsOK files (s.forked i line pid) :=
  (h.of_client (t := { s with lock := Calld.lockSet s.lock line pid }) rfl).setClient i
    fun log hlog => h i log hlog

theorem LogsOK.request (hshort : Short files) {s : State} (h : LogsOK files s) (i : ℕ)
    (fork : Option Pid) : LogsOK files (request files s i fork) := by
  unfold CalldFiles.request
  cases hposn : (s.client i).sysftell with
  | none => exact h.of_client rfl
  | some posn =>
    simp only
    split
    · exact h.of_client rfl
    · cases hout : (requestAt files s (s.client i) posn).outcome with
      | quit q => exact h.of_client rfl
      | refused errmsg => exact h.after hshort hposn fun q => by simp [hout]
      | started line =>
        cases fork with
        | none => exact h.of_client rfl
        | some pid => exact (h.after hshort hposn fun q => by simp [hout]).forked i line pid

theorem LogsOK.next (hshort : Short files) {s t : State} {a : Action} (h : LogsOK files s)
    (hnext : next files s a = some t) : LogsOK files t := by
  unfold CalldFiles.next at hnext
  split at hnext
  · cases hnext
  · cases a with
    | arrive i sysname speed =>
      cases hnext
      refine h.setClient i fun log hlog => ?_
      cases hlog
      exact kept_nil files sysname speed
    | request i fork =>
      cases hnext
      exact h.request hshort i fork
    | locks lock =>
      cases hnext
      exact h.of_client rfl

/-- A line of the Systems file for the client's system, at its speed. -/
def Matches (files : Files) (c : Client) (o : ℕ) : Prop :=
  ∃ line sys, (o, line) ∈ placed 0 (lines files.systems) ∧ sysLine line = .entry sys ∧
    c.sysname = sys.name ∧ (c.speed = [] ∨ c.speed = sys.class')

/-- The line had no device, or its first device was locked when it was looked at. -/
def Passed (files : Files) (x : Exam) : Prop :=
  ∃ line sys, (x.line, line) ∈ placed 0 (lines files.systems) ∧ sysLine line = .entry sys ∧
    (firstDevice (lines files.devices) sys = none ∨
      ∃ d, firstDevice (lines files.devices) sys = some d ∧ pidOf x.lock d.line ≠ 0)

theorem mem_matching {o : ℕ} {xs : List (ℕ × List Byte)} :
    o ∈ matching sysname speed xs ↔ ∃ line, (o, line) ∈ xs ∧ matchesLine sysname speed line = true := by
  simp [matching]

theorem matching_pairwise (sysname speed : Name) {o : ℕ} (h : ∀ l ∈ ls, l ≠ []) :
    (matching sysname speed (placed o ls)).Pairwise (· < ·) :=
  List.pairwise_map.mpr ((placed_pairwise o h).filter _)

section Kept

variable {sysftell : Option ℕ} {log : List Exam}

theorem Kept.pairwise (h : Kept files sysname speed sysftell log) :
    (log.map Exam.line).Pairwise (· < ·) := by
  obtain ⟨done, todo, hsys, hlog, -⟩ := h
  rw [hlog.offsets]
  refine matching_pairwise sysname speed fun l hl => ?_
  have hmem : l ∈ lines files.systems := by
    rw [hsys]
    exact List.mem_append_left _ hl
  exact ne_nil_of_mem_lines hmem

/-- A matching line in front of one that has been looked at has been looked at. -/
theorem Kept.complete (h : Kept files sysname speed sysftell log) {x : Exam} (hx : x ∈ log) {o : ℕ}
    {line : List Byte} (ho : (o, line) ∈ placed 0 (lines files.systems))
    (hline : matchesLine sysname speed line = true) (hlt : o < x.line) : ∃ y ∈ log, y.line = o := by
  obtain ⟨done, todo, hsys, hlog, -⟩ := h
  have hxline : x.line ∈ matching sysname speed (placed 0 done) := by
    rw [← hlog.offsets]
    exact List.mem_map_of_mem hx
  obtain ⟨xline, hxdone, -⟩ := mem_matching.mp hxline
  rw [hsys, placed_append, List.mem_append] at ho
  rcases ho with ho | ho
  · have hmem : o ∈ log.map Exam.line := by
      rw [hlog.offsets]
      exact mem_matching.mpr ⟨line, ho, hline⟩
    obtain ⟨y, hy, hyo⟩ := List.mem_map.mp hmem
    exact ⟨y, hy, hyo⟩
  · -- a line that has not been read stands behind all that have
    have hall : (placed 0 (lines files.systems)).Pairwise fun x y => x.1 < y.1 :=
      placed_pairwise 0 fun l => ne_nil_of_mem_lines
    rw [hsys, placed_append] at hall
    have hbehind := (List.pairwise_append.mp hall).2.2 _ hxdone _ ho
    simp only at hbehind
    omega

theorem Kept.sound (h : Kept files sysname speed sysftell log) {x : Exam} (hx : x ∈ log) :
    ∃ line sys, Sound files sysname speed x line sys := by
  obtain ⟨done, todo, -, hlog, -⟩ := h
  exact hlog.sound x hx

end Kept

theorem Sound.passed {x : Exam} {line : List Byte} {sys : Systems}
    (h : Sound files sysname speed x line sys) (hx : x.verdict ≠ .started) : Passed files x := by
  refine ⟨line, sys, h.place, h.entry, ?_⟩
  have hverdict := h.verdict
  unfold VerdictOK at hverdict
  split at hverdict
  · exact .inl hverdict
  · exact .inr hverdict
  · exact absurd ‹_› hx

/-- The lines looked at are in the order of the file. A line for which a child has been started
matches, and every other matching line between it and the one before had no device or a locked
one when it was looked at. -/
def WalksOnce (files : Files) (c : Client) (log : List Exam) : Prop :=
  (log.map Exam.line).Pairwise (· < ·) ∧
  ∀ a x b, log = a ++ x :: b → x.verdict = .started →
    Matches files c x.line ∧
    ∀ o, Matches files c o → o < x.line → (∀ y ∈ a, y.verdict = .started → y.line < o) →
      ∃ y ∈ a, y.line = o ∧ Passed files y

/-- In every run and for every client, since its offset was last set to 0. -/
theorem retries_walk_once (files : Files) (hshort : Short files) (s₀ s : State)
    (h₀ : ∀ i, (s₀.client i).log = none) (hrun : Run (next files) anyStep s₀ s) (i : ℕ)
    (log : List Exam) (hlog : (s.client i).log = some log) :
    WalksOnce files (s.client i) log := by
  have hok : LogsOK files s := by
    refine hrun.invariant (I := LogsOK files) ?_ fun t a u ht _ hnext => ht.next hshort hnext
    intro j log' hlog'
    rw [h₀ j] at hlog'
    cases hlog'
  have hkept := hok i log hlog
  refine ⟨hkept.pairwise, ?_⟩
  rintro a x b rfl hstarted
  have hx : x ∈ a ++ x :: b := by simp
  constructor
  · obtain ⟨line, sys, hsound⟩ := hkept.sound hx
    exact ⟨line, sys, hsound.place, hsound.entry, wanted_iff.mp hsound.wants⟩
  · rintro o ⟨line, sys, hplace, hentry, hwanted⟩ hlt hprev
    obtain ⟨y, hy, hyo⟩ := hkept.complete hx hplace
      ((matchesLine_entry hentry _ _).trans (wanted_iff.mpr hwanted)) hlt
    -- the log is in order, so that the line was looked at before
    have hya : y ∈ a := by
      have horder := List.pairwise_map.mp hkept.pairwise
      rcases List.mem_append.mp hy with hy | hy
      · exact hy
      · rcases List.mem_cons.mp hy with rfl | hy
        · omega
        · have hxy := (List.pairwise_cons.mp (List.pairwise_append.mp horder).2.1).1 y hy
          omega
    obtain ⟨yline, ysys, hsound⟩ := hkept.sound hy
    refine ⟨y, hya, hyo, hsound.passed fun hverdict => ?_⟩
    have hlt' := hprev y hya hverdict
    omega

def sampleFiles : Files where
  systems := ascii "# two numbers\nhost Any ACU 1200 5551 login\nhost Any ACU 2400 5552 login\n"
  devices := ascii "ACU cua0 - 1200 hayes\nACU cua1 - 2400 hayes\n"

def sampleStart : State := ⟨none, 0, fun _ => ⟨[], [], none, 0, 0, none⟩, [], none⟩

def sampleActions : List Action :=
  [.arrive 0 (ascii "host") [], .request 0 (some 7), .request 0 (some 8)]

theorem retries_walk_once_host : ∃ s : State,
    (s.client 0).log = some [⟨14, [], .started⟩, ⟨43, [⟨ascii "cua0", 7⟩], .started⟩] ∧
      WalksOnce sampleFiles (s.client 0) [⟨14, [], .started⟩, ⟨43, [⟨ascii "cua0", 7⟩], .started⟩] := by
  have hsome : (follow (next sampleFiles) sampleStart sampleActions).isSome = true := by
    decide +kernel
  obtain ⟨s, hs⟩ := Option.isSome_iff_exists.mp hsome
  have hlog : (s.client 0).log = some [⟨14, [], .started⟩, ⟨43, [⟨ascii "cua0", 7⟩], .started⟩] := by
    have h : (follow (next sampleFiles) sampleStart sampleActions).map (fun s => (s.client 0).log) =
        some (some [⟨14, [], .started⟩, ⟨43, [⟨ascii "cua0", 7⟩], .started⟩]) := by
      decide +kernel
    rw [hs] at h
    exact Option.some.inj h
  have hshort : Short sampleFiles := ⟨by decide +kernel, by decide +kernel⟩
  exact ⟨s, hlog, retries_walk_once sampleFiles hshort sampleStart s (fun _ => rfl)
    (follow_run sampleActions hs) 0 _ hlog⟩

end CalldSystems
