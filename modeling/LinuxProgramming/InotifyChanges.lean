import LinuxProgramming.InotifyRenames

/-! # Changes of the file system while the monitor runs

The states of a run in which directories are renamed only when the monitor has caught up and
none is removed during a walk. While the events of a rename wait to be handled, the invariant
holds of the view as it will be after them. -/
namespace InotifyChanges

open CStrings Pathnames DirectoryTrees Loc InotifyDtree InotifyInvariant InotifyRenames

/-! ## States of a run -/

def jobsOf : Pc → List Job
  | .walk jobs => jobs
  | _ => []

def view (s : State) : View :=
  ⟨s.dirs, s.watches, s.nextWd, s.cache, s.buf ++ s.queue, jobsOf s.pc⟩

def Reading (s : State) : Prop := s.pc = .read ∧ s.buf = [] ∨ s.pc = .next ∧ s.buf ≠ []

def Hanging (s : State) : Prop := s.pc = .reread ∧ s.buf.length = 1

/-- The two events of a rename within the trees come first. -/
structure PairFirst (names : List Path) (s : State) (ev ev' : Event) (rest : List Event)
    (jo jn : ℕ) (po pn : Path) : Prop where
  events : s.buf ++ s.queue = ev :: ev' :: rest
  moved : ev.kind = .movedFrom ∧ ev.isDir = true ∧ ev'.kind = .movedTo ∧ ev'.cookie = ev.cookie
  old : (ev.wd.bind fun wd => findWatch s.cache wd) = some jo ∧
    (s.cache.getD jo emptySlot).path = po
  new : (ev'.wd.bind fun wd => findWatch s.cache wd) = some jn ∧
    (s.cache.getD jn emptySlot).path = pn
  inv : Inv names
    ⟨s.dirs, s.watches, s.nextWd, rewriteCachedPaths s.cache po ev.name pn ev'.name, rest, []⟩
  pc : Reading s ∨ Hanging s
  retried : s.pc = .next → s.firstTry = false → 2 ≤ s.buf.length

/-- The event of a rename out of the trees comes first. -/
structure OutFirst (names : List Path) (s : State) (ev : Event) (rest : List Event) (jo : ℕ)
    (full : Path) (watches' : List (ℕ × ℕ)) : Prop where
  events : s.buf ++ s.queue = ev :: rest
  moved : ev.kind = .movedFrom ∧ ev.isDir = true
  unmatched : ∀ ev' ∈ rest, ev'.kind ≠ .movedTo
  old : (ev.wd.bind fun wd => findWatch s.cache wd) = some jo ∧
    snprintf (pathMax + nameMax) ((s.cache.getD jo emptySlot).path ++ slash :: ev.name) = full
  inv : Inv names ⟨s.dirs, watches', s.nextWd, s.cache.map (clearSlot full), rest, []⟩
  left : ∀ wd i, (wd, i) ∈ watches' ↔ (wd, i) ∈ s.watches ∧ ¬ InZap full s.cache wd
  zapped : ∀ wd, InZap full s.cache wd → ∃ i, (wd, i) ∈ s.watches
  slots : ∀ (j k : ℕ) (x y : Watch) (wd : ℕ), s.cache[j]? = some x → s.cache[k]? = some y →
    x.wd = some wd → y.wd = some wd → j = k
  wds : ∀ wd i i', (wd, i) ∈ s.watches → (wd, i') ∈ s.watches → i = i'
  one : ∀ wd wd' i, (wd, i) ∈ s.watches → (wd', i) ∈ s.watches → wd = wd'
  inside : ∀ wd i, (wd, i) ∈ s.watches → ∃ l, (i, l) ∈ s.dirs ∧
    (monitored names l = true → ¬ InZap full s.cache wd)
  pc : Reading s ∨ Hanging s

inductive Phase (names : List Path) (s : State) : Prop
  | plain (hinv : Inv names (view s)) (hpc : Reading s ∨ ∃ jobs, s.pc = .walk jobs)
  | pair (ev ev' : Event) (rest : List Event) (jo jn : ℕ) (po pn : Path)
      (h : PairFirst names s ev ev' rest jo jn po pn)
  | out (ev : Event) (rest : List Event) (jo : ℕ) (full : Path) (watches' : List (ℕ × ℕ))
      (h : OutFirst names s ev rest jo full watches')

structure Good (names : List Path) (s : State) : Prop where
  roots : s.rootDirPaths = names.map some
  phase : Phase names s

/-! ## Which changes are made -/

def fits (names : List Path) (dirs : Dirs ℕ Path) : Bool :=
  dirs.all fun d => !monitored names d.2 || (pathOf names d.2).length < pathMax

def caughtUp (s : State) : Bool := s.queue = [] && s.buf = [] && s.pc = .read

def walking (s : State) : Bool :=
  match s.pc with
  | .walk _ => true
  | _ => false

def staysShort (names : List Path) (s : State) (a : Action) : Bool :=
  match next names s a with
  | some t => fits names t.dirs
  | none => true

def careful (names : List Path) (s : State) (a : Action) : Bool :=
  staysShort names s a && match a with
    | .mkdir l _ _ => monitored names l || caughtUp s
    | .rmdir l => monitored names l && !walking s || caughtUp s
    | .rename src dst =>
      caughtUp s && (monitored names src || !monitored names dst || !present s.dirs dst)
    | _ => true

section Basics

variable {names : List Path} {s t : State}

theorem caughtUp_iff : caughtUp s = true ↔ s.queue = [] ∧ s.buf = [] ∧ s.pc = .read := by
  simp [caughtUp, and_assoc]

theorem fits_iff {dirs : Dirs ℕ Path} : fits names dirs = true ↔
    ∀ i l, (i, l) ∈ dirs → monitored names l = true → (pathOf names l).length < pathMax := by
  simp only [fits, List.all_eq_true, Bool.or_eq_true, Bool.not_eq_true', decide_eq_true_eq,
    Prod.forall]
  refine forall₃_congr fun i l _ => ?_
  cases monitored names l <;> simp

theorem Phase.settled (h : Phase names s) (hc : caughtUp s = true) : Settled names (view s) := by
  obtain ⟨hq, hb, hpc⟩ := caughtUp_iff.mp hc
  have hev : s.buf ++ s.queue = [] := by rw [hq, hb, List.append_nil]
  cases h with
  | plain hinv => exact ⟨hinv, hev, by simp [view, hpc, jobsOf]⟩
  | pair ev ev' rest jo jn po pn h =>
    have := h.events
    rw [hev] at this
    cases this
  | out ev rest jo full watches' h =>
    have := h.events
    rw [hev] at this
    cases this

theorem Phase.trees (h : Phase names s) : TreesOK names s.dirs := by
  cases h with
  | plain hinv => exact hinv.trees
  | pair _ _ _ _ _ _ _ h => exact h.inv.trees
  | out _ _ _ _ _ h => exact h.inv.trees

theorem Phase.wds (h : Phase names s) :
    ∀ wd i i', (wd, i) ∈ s.watches → (wd, i') ∈ s.watches → i = i' := by
  cases h with
  | plain hinv => exact hinv.wds
  | pair _ _ _ _ _ _ _ h => exact h.inv.wds
  | out _ _ _ _ _ h => exact h.wds

theorem Phase.one (h : Phase names s) :
    ∀ wd wd' i, (wd, i) ∈ s.watches → (wd', i) ∈ s.watches → wd = wd' := by
  cases h with
  | plain hinv => exact hinv.one
  | pair _ _ _ _ _ _ _ h => exact h.inv.one
  | out _ _ _ _ _ h => exact h.one

theorem Phase.pc_cases (h : Phase names s) :
    s.pc = .read ∧ s.buf = [] ∨ s.pc = .next ∧ s.buf ≠ [] ∨ s.pc = .reread ∧ s.buf.length = 1 ∨
      ∃ jobs, s.pc = .walk jobs := by
  cases h with
  | plain _ hpc => exact hpc.elim (fun h => h.elim .inl fun h => .inr (.inl h)) fun h => .inr (.inr (.inr h))
  | pair _ _ _ _ _ _ _ h =>
    exact h.pc.elim (fun h => h.elim .inl fun h => .inr (.inl h)) fun h => .inr (.inr (.inl h))
  | out _ _ _ _ _ h =>
    exact h.pc.elim (fun h => h.elim .inl fun h => .inr (.inl h)) fun h => .inr (.inr (.inl h))

theorem Reading.jobs (h : Reading s) : jobsOf s.pc = [] := by
  rcases h with ⟨hp, -⟩ | ⟨hp, -⟩ <;> rw [hp] <;> rfl

theorem notify_cases (s : State) (i : ℕ) (kind : Kind) (cookie : ℕ) (name : Path) :
    (∃ wd, (wd, i) ∈ s.watches ∧
      notify s (some i) kind cookie name = [dirEvent wd kind cookie name]) ∨
    (∀ wd, (wd, i) ∉ s.watches) ∧ notify s (some i) kind cookie name = [] := by
  unfold notify
  simp only [Option.bind_some]
  cases hw : wdOf s.watches i with
  | some wd => exact .inl ⟨wd, wdOf_eq_some hw, rfl⟩
  | none => exact .inr ⟨wdOf_eq_none hw, rfl⟩

/-- The directory `i` ceases to exist. -/
theorem vanish_cases (s : State) (i : ℕ)
    (hwds : ∀ wd i i', (wd, i) ∈ s.watches → (wd, i') ∈ s.watches → i = i')
    (hone : ∀ wd wd' i, (wd, i) ∈ s.watches → (wd', i) ∈ s.watches → wd = wd') :
    ∃ watches' gone, vanish s (some i) = { s with watches := watches', queue := s.queue ++ gone } ∧
      Vanishes s.watches i watches' gone := by
  unfold vanish
  simp only [Option.bind_some]
  cases hw : wdOf s.watches i with
  | some wd =>
    have hm := wdOf_eq_some hw
    refine ⟨_, _, rfl, fun wd' j => ?_, .inl ⟨wd, hm, rfl⟩⟩
    simp only [List.mem_filter, decide_eq_true_eq]
    exact and_congr_right fun hj => ⟨fun hne he => hne (hone wd' wd i (he ▸ hj) hm),
      fun hne he => hne (hwds wd j i (he ▸ hj) hm)⟩
  | none =>
    have hnone := wdOf_eq_none hw
    refine ⟨s.watches, [], by simp, fun wd' j => ?_, .inr ⟨hnone, rfl⟩⟩
    exact ⟨fun hj => ⟨hj, fun he => hnone wd' (he ▸ hj)⟩, And.left⟩

theorem vanish_unwatched {i : Option ℕ} (h : ∀ j, i = some j → ∀ wd, (wd, j) ∉ s.watches) :
    vanish s i = s := by
  cases i with
  | none => rfl
  | some j =>
    unfold vanish
    simp only [Option.bind_some]
    cases hw : wdOf s.watches j with
    | some wd => exact absurd (wdOf_eq_some hw) (h j rfl wd)
    | none => rfl

end Basics

/-! ## Changes -/

section Changes

variable {names : List Path} {s t : State} {dirs' : Dirs ℕ Path}

theorem Phase.mkdir (h : Phase names s) (hapart : RootsApart names) {i p : ℕ} {l : Loc Path}
    {n : Path} {created : List Event} (hmk : mkdir s.dirs i l n = some dirs')
    (hp : (p, l) ∈ s.dirs) (htrees : TreesOK names dirs')
    (hin : monitored names l = true ∨ caughtUp s = true)
    (hevents : (∃ wd, (wd, p) ∈ s.watches ∧ created = [dirEvent wd .create 0 n]) ∨
      (∀ wd, (wd, p) ∉ s.watches) ∧ created = []) :
    Phase names { s with dirs := dirs', queue := s.queue ++ created } := by
  cases h with
  | plain hinv hpc =>
    refine .plain ?_ hpc
    have := hinv.mkdir hmk hp htrees hapart hevents
    simpa only [view, List.append_assoc] using this
  | pair ev ev' rest jo jn po pn h =>
    refine .pair ev ev' (rest ++ created) jo jn po pn
      ⟨?_, h.moved, h.old, h.new, h.inv.mkdir hmk hp htrees hapart hevents, h.pc, h.retried⟩
    rw [← List.append_assoc, h.events]
    rfl
  | out ev rest jo full watches' h =>
    obtain ⟨-, -, hfresh, hdirs⟩ := mkdir_cases hmk
    have hmon : monitored names l = true := hin.resolve_right fun hc => by
      obtain ⟨hq, hb, -⟩ := caughtUp_iff.mp hc
      have := h.events
      rw [hq, hb] at this
      cases this
    -- the watch on the parent is not among those that will be removed
    have hkept {wd : ℕ} (hw : (wd, p) ∈ s.watches) : (wd, p) ∈ watches' := by
      obtain ⟨l', hl', hz⟩ := h.inside wd p hw
      obtain rfl := h.inv.trees.wf.places p l l' hp hl'
      exact (h.left wd p).mpr ⟨hw, hz hmon⟩
    have hevents' : (∃ wd, (wd, p) ∈ watches' ∧ created = [dirEvent wd .create 0 n]) ∨
        (∀ wd, (wd, p) ∉ watches') ∧ created = [] := by
      rcases hevents with ⟨wd, hw, he⟩ | ⟨hnone, he⟩
      · exact .inl ⟨wd, hkept hw, he⟩
      · exact .inr ⟨fun wd hw => hnone wd ((h.left wd p).mp hw).1, he⟩
    refine .out ev (rest ++ created) jo full watches'
      ⟨?_, h.moved, fun ev' hev' => ?_, h.old, h.inv.mkdir hmk hp htrees hapart hevents', h.left,
        h.zapped, h.slots, h.wds, h.one, fun wd j hw => ?_, h.pc⟩
    · rw [← List.append_assoc, h.events]
      rfl
    · rcases List.mem_append.mp hev' with hev' | hev'
      · exact h.unmatched ev' hev'
      · rcases hevents with ⟨wd, -, rfl⟩ | ⟨-, rfl⟩
        · rw [List.mem_singleton.mp hev']
          exact nofun
        · cases hev'
    · obtain ⟨l', hl', hz⟩ := h.inside wd j hw
      exact ⟨l', hdirs ▸ List.mem_append_left _ hl', hz⟩

theorem Phase.rmdir (h : Phase names s) (hapart : RootsApart names) {i : ℕ} {l : Loc Path}
    {watches' : List (ℕ × ℕ)} {gone : List Event} (hrm : rmdir s.dirs l = some dirs')
    (hi : (i, l) ∈ s.dirs)
    (hin : monitored names l = true ∧ walking s = false ∨ caughtUp s = true)
    (hvan : Vanishes s.watches i watches' gone) :
    Phase names { s with dirs := dirs', watches := watches', queue := s.queue ++ gone } := by
  cases h with
  | plain hinv hpc =>
    have hjobs : jobsOf s.pc = [] := by
      rcases hpc with hr | ⟨jobs, hw⟩
      · exact hr.jobs
      · rcases hin with ⟨-, hnw⟩ | hc
        · simp [walking, hw] at hnw
        · rw [(caughtUp_iff.mp hc).2.2] at hw
          cases hw
    refine .plain ?_ hpc
    have := hinv.rmdir hapart hjobs hrm hi hvan
    simpa only [view, List.append_assoc] using this
  | pair ev ev' rest jo jn po pn h =>
    refine .pair ev ev' (rest ++ gone) jo jn po pn
      ⟨?_, h.moved, h.old, h.new, h.inv.rmdir hapart rfl hrm hi hvan, h.pc, h.retried⟩
    rw [← List.append_assoc, h.events]
    rfl
  | out ev rest jo full watches₀ h =>
    obtain ⟨-, -, -, hmem⟩ := rmdir_cases hrm
    have hmon : monitored names l = true := by
      refine (hin.resolve_right fun hc => ?_).1
      obtain ⟨hq, hb, -⟩ := caughtUp_iff.mp hc
      have := h.events
      rw [hq, hb] at this
      cases this
    have hplace {j : ℕ} {m : Loc Path} (hm : (j, m) ∈ s.dirs) (hj : j ≠ i) : (j, m) ∈ dirs' :=
      (hmem j m).mpr ⟨hm, fun he => hj (h.inv.trees.wf.ids j i l (he ▸ hm) hi)⟩
    have hkept {wd : ℕ} (hw : (wd, i) ∈ s.watches) : ¬ InZap full s.cache wd := by
      obtain ⟨l', hl', hz⟩ := h.inside wd i hw
      obtain rfl := h.inv.trees.wf.places i l l' hi hl'
      exact hz hmon
    have hvan' : Vanishes watches₀ i (watches₀.filter fun w => w.2 ≠ i) gone := by
      refine ⟨fun wd j => by simp, ?_⟩
      rcases hvan.told with ⟨wd, hw, he⟩ | ⟨hnone, he⟩
      · exact .inl ⟨wd, (h.left wd i).mpr ⟨hw, hkept hw⟩, he⟩
      · exact .inr ⟨fun wd hw => hnone wd ((h.left wd i).mp hw).1, he⟩
    refine .out ev (rest ++ gone) jo full (watches₀.filter fun w => w.2 ≠ i)
      ⟨?_, h.moved, fun ev' hev' => ?_, h.old, h.inv.rmdir hapart rfl hrm hi hvan', ?_, ?_, h.slots,
        ?_, ?_, fun wd j hw => ?_, h.pc⟩
    · rw [← List.append_assoc, h.events]
      rfl
    · rcases List.mem_append.mp hev' with hev' | hev'
      · exact h.unmatched ev' hev'
      · rcases hvan.told with ⟨wd, -, rfl⟩ | ⟨-, rfl⟩
        · simp only [List.mem_cons, List.not_mem_nil, or_false] at hev'
          rcases hev' with rfl | rfl <;> exact nofun
        · cases hev'
    · intro wd j
      rw [hvan'.left, hvan.left, h.left]
      tauto
    · intro wd hz
      obtain ⟨j, hw⟩ := h.zapped wd hz
      exact ⟨j, (hvan.left wd j).mpr ⟨hw, fun he => hkept (he ▸ hw) hz⟩⟩
    · exact fun wd j j' hw hw' => h.wds wd j j' ((hvan.left wd j).mp hw).1 ((hvan.left wd j').mp hw').1
    · exact fun wd wd' j hw hw' =>
        h.one wd wd' j ((hvan.left wd j).mp hw).1 ((hvan.left wd' j).mp hw').1
    · obtain ⟨hw, hne⟩ := (hvan.left wd j).mp hw
      obtain ⟨m, hm, hz⟩ := h.inside wd j hw
      exact ⟨m, hplace hm hne, hz⟩

theorem Phase.rebuffer (h : Phase names s) {buf queue : List Event} {firstTry : Bool}
    (hev : buf ++ queue = s.buf ++ s.queue) (hne : buf ≠ []) (hjobs : jobsOf s.pc = [])
    (hretry : firstTry = false → s.buf.length = 1 ∧ (s.queue ≠ [] → 2 ≤ buf.length)) :
    Phase names { s with buf := buf, queue := queue, firstTry := firstTry, pc := .next } := by
  cases h with
  | plain hinv =>
    refine .plain ?_ (.inl (.inr ⟨rfl, hne⟩))
    simp only [view, hjobs] at hinv
    simpa only [view, hev, jobsOf] using hinv
  | pair ev ev' rest jo jn po pn h =>
    refine .pair ev ev' rest jo jn po pn ⟨hev.trans h.events, h.moved, h.old, h.new, h.inv,
      .inl (.inr ⟨rfl, hne⟩), fun _ hf => ?_⟩
    obtain ⟨hlen, hmore⟩ := hretry hf
    refine hmore fun hq => ?_
    have := congrArg List.length h.events
    simp [hq, hlen] at this
  | out ev rest jo full watches' h =>
    exact .out ev rest jo full watches' ⟨hev.trans h.events, h.moved, h.unmatched, h.old, h.inv,
      h.left, h.zapped, h.slots, h.wds, h.one, h.inside, .inl (.inr ⟨rfl, hne⟩)⟩

end Changes

/-! ### Renames -/

section Renames

variable {names : List Path} {s t : State} {dirs' : Dirs ℕ Path} {src dst : Loc Path}

theorem notify_inside (h : Settled names (view s)) {i : ℕ} {l : Loc Path} (hl : (i, l) ∈ s.dirs)
    (hm : monitored names l = true) (kind : Kind) (cookie : ℕ) (name : Path) :
    ∃ wd, (wd, i) ∈ s.watches ∧
      notify s (idAt s.dirs l) kind cookie name = [dirEvent wd kind cookie name] := by
  have hid : idAt s.dirs l = some i := h.inv.trees.idAt hl
  rw [hid]
  refine (notify_cases s i kind cookie name).resolve_right fun hn => ?_
  obtain ⟨wd, hw⟩ := h.watched hl hm
  exact hn.1 wd hw

theorem notify_outside (h : Settled names (view s)) {i : ℕ} {l : Loc Path} (hl : (i, l) ∈ s.dirs)
    (hm : monitored names l = false) (kind : Kind) (cookie : ℕ) (name : Path) :
    notify s (idAt s.dirs l) kind cookie name = [] := by
  have hid : idAt s.dirs l = some i := h.inv.trees.idAt hl
  rw [hid]
  refine ((notify_cases s i kind cookie name).resolve_left fun ⟨wd, hw, _⟩ => ?_).2
  exact InotifyRenames.Inv.not_watched h.inv hl hm hw

theorem slot_found {v : View} (h : Inv names v) {wd i : ℕ} {l : Loc Path} (hw : (wd, i) ∈ v.watches)
    (hl : (i, l) ∈ v.dirs) :
    ∃ j, findWatch v.cache wd = some j ∧ (v.cache.getD j emptySlot).path = pathOf names l := by
  obtain ⟨x, hx, hxwd, hp⟩ := h.cached wd i l hw hl
  obtain ⟨j, hj⟩ := findWatch_isSome hx hxwd
  refine ⟨j, hj, ?_⟩
  rw [List.getD_eq_getElem?_getD, h.slot_of hx hxwd hj]
  exact hp

theorem child_nameOf {l : Loc Path} (h : l.comps ≠ []) : l.parent.child (nameOf l) = l := by
  obtain ⟨c, hc⟩ := exists_child h
  have : nameOf l = c := by rw [hc]; simp [nameOf, child]
  rw [this, ← hc]

theorem pathOf_parent {l : Loc Path} (h : l.comps ≠ []) :
    pathOf names l.parent ++ slash :: nameOf l = pathOf names l := by
  rw [← pathOf_child, child_nameOf h]

theorem rename_parents (h : TreesOK names s.dirs) (hmv : rename s.dirs src dst = some dirs') :
    (∃ i, (i, src.parent) ∈ s.dirs) ∧ ∃ i, (i, dst.parent) ∈ s.dirs := by
  obtain ⟨⟨⟨i, hi⟩, hsc⟩, ⟨-, hp, -⟩, -⟩ := rename_cases hmv
  refine ⟨h.wf.parents i src.parent (nameOf src) ?_, hp⟩
  rwa [child_nameOf hsc]

theorem rename_within (h : Settled names (view s)) (hc : caughtUp s = true)
    (hapart : RootsApart names) (hmv : rename s.dirs src dst = some dirs')
    (htrees : TreesOK names dirs') (hs : monitored names src = true)
    (hd : monitored names dst = true) {wd wd' p p' : ℕ} (hp : (p, src.parent) ∈ s.dirs)
    (hp' : (p', dst.parent) ∈ s.dirs) (hw : (wd, p) ∈ s.watches) (hw' : (wd', p') ∈ s.watches)
    {watches' : List (ℕ × ℕ)} {gone : List Event}
    (hvan : (∃ r, (r, dst) ∈ s.dirs ∧ Vanishes s.watches r watches' gone) ∨
      (∀ r, (r, dst) ∉ s.dirs) ∧ watches' = s.watches ∧ gone = []) :
    Phase names { s with
      dirs := dirs'
      cookie := s.cookie + 1
      watches := watches'
      queue := s.queue ++ [dirEvent wd .movedFrom s.cookie (nameOf src)] ++
        [dirEvent wd' .movedTo s.cookie (nameOf dst)] ++ gone } := by
  obtain ⟨hq, hb, hpc⟩ := caughtUp_iff.mp hc
  obtain ⟨⟨⟨i, hi⟩, hsc⟩, ⟨hdc, -, hnot, -⟩, hmem⟩ := rename_cases hmv
  obtain ⟨j, hj, hjp⟩ := slot_found h.inv hw hp
  obtain ⟨j', hj', hjp'⟩ := slot_found h.inv hw' hp'
  have hdst : (i, dst) ∈ dirs' :=
    (hmem i dst).mpr ⟨src, hi, fun he => hnot (he ▸ above_refl src), move_self src dst⟩
  refine .pair (dirEvent wd .movedFrom s.cookie (nameOf src))
    (dirEvent wd' .movedTo s.cookie (nameOf dst)) gone j j' _ _ ⟨?_, ⟨rfl, rfl, rfl, rfl⟩, ⟨hj, hjp⟩, ⟨hj', hjp'⟩, ?_,
    .inl (.inl ⟨hpc, hb⟩), fun hnext => ?_⟩
  · rw [hb, hq]
    rfl
  · have he : rewriteCachedPaths s.cache (pathOf names src.parent) (nameOf src)
        (pathOf names dst.parent) (nameOf dst) =
        s.cache.map (rewriteSlot (pathOf names src) (pathOf names dst)) :=
      rewriteCachedPaths_eq (pathOf_parent hsc) (pathOf_parent hdc)
        (h.inv.trees.short i src hi hs) (htrees.short i dst hdst hd)
    have hinv : Inv names ⟨dirs', watches', s.nextWd,
        s.cache.map (rewriteSlot (pathOf names src) (pathOf names dst)), gone, []⟩ :=
      h.within hapart hmv htrees hs hd hvan
    rwa [← he] at hinv
  · rw [hpc] at hnext
    cases hnext

theorem rename_out (h : Settled names (view s)) (hc : caughtUp s = true)
    (hapart : RootsApart names) (hmv : rename s.dirs src dst = some dirs')
    (htrees : TreesOK names dirs') (hs : monitored names src = true)
    (hd : monitored names dst = false) {wd p : ℕ} (hp : (p, src.parent) ∈ s.dirs)
    (hw : (wd, p) ∈ s.watches) :
    Phase names { s with
      dirs := dirs'
      cookie := s.cookie + 1
      queue := s.queue ++ [dirEvent wd .movedFrom s.cookie (nameOf src)] } := by
  obtain ⟨hq, hb, hpc⟩ := caughtUp_iff.mp hc
  obtain ⟨⟨⟨i, hi⟩, hsc⟩, -, hmem⟩ := rename_cases hmv
  obtain ⟨j, hj, hjp⟩ := slot_found h.inv hw hp
  have hzapped (wd : ℕ) (hz : InZap (pathOf names src) s.cache wd) : ∃ i, (wd, i) ∈ s.watches := by
    obtain ⟨x, hx, hxwd, -⟩ := hz
    obtain ⟨k, -, hk, -⟩ := h.slot hx hxwd
    exact ⟨k, hk⟩
  have hzap := zapSubtree_ok (pathOf names src) s.cache s.watches h.inv.slots hzapped
  have hshort : (pathOf names src).length < pathMax + nameMax :=
    Nat.lt_of_lt_of_le (h.inv.trees.short i src hi hs) (Nat.le_add_right _ _)
  have hfull : snprintf (pathMax + nameMax) ((s.cache.getD j emptySlot).path ++ slash :: nameOf src) =
      pathOf names src := by
    have hjp : (s.cache.getD j emptySlot).path = pathOf names src.parent := hjp
    rw [hjp, pathOf_parent hsc, snprintf_eq hshort]
  refine .out (dirEvent wd .movedFrom s.cookie (nameOf src)) [] j (pathOf names src) _ ⟨?_, ⟨rfl, rfl⟩, nofun, ⟨hj, hfull⟩,
    h.out hapart hmv htrees hs hd hzap.left, hzap.left, hzapped, h.inv.slots, h.inv.wds, h.inv.one,
    fun wd k hk => ?_, .inl (.inl ⟨hpc, hb⟩)⟩
  · rw [hb, hq]
    rfl
  · obtain ⟨-, l, hl, hm⟩ := h.inv.inside wd k hk
    have hne : l ≠ dst := by
      rintro rfl
      rw [hd] at hm
      cases hm
    refine ⟨move src dst l, (hmem k _).mpr ⟨l, hl, hne, rfl⟩, fun hm' hz => ?_⟩
    have ha := (h.inZap_iff hapart hi hs hk hl).mp hz
    rw [← monitored_of_above (above_move ha), hd] at hm'
    cases hm'

/-- A view with the given events when the monitor is waiting for them. -/
theorem phase_waiting {v : View} (h : Inv names v) (hdirs : v.dirs = s.dirs)
    (hwatches : v.watches = s.watches) (hwd : v.nextWd = s.nextWd) (hcache : v.cache = s.cache)
    (hevents : v.events = s.queue) (hjobs : v.jobs = []) (hpc : s.pc = .read) (hb : s.buf = []) :
    Phase names s := by
  refine .plain ?_ (.inl (.inl ⟨hpc, hb⟩))
  have : view s = v := by
    cases v
    simp_all [view, jobsOf]
  rwa [this]

theorem Phase.rename (h : Settled names (view s)) (hc : caughtUp s = true)
    (hapart : RootsApart names) (ht : renameStep s src dst = some t)
    (hfits : fits names t.dirs = true)
    (hin : monitored names src = true ∨ monitored names dst = false ∨ ∀ r, (r, dst) ∉ s.dirs) :
    Phase names t := by
  obtain ⟨hq, hb, hpc⟩ := caughtUp_iff.mp hc
  unfold renameStep at ht
  split at ht
  case isFalse => cases ht
  rename_i hname
  obtain ⟨dirs', hmv, rfl⟩ := Option.map_eq_some_iff.mp ht
  have hslash : slash ∉ nameOf dst := by
    simp only [validName, Bool.and_eq_true, Bool.not_eq_true'] at hname
    simpa using hname.1.1.1.1.2
  set s₁ : State := { s with
    dirs := dirs'
    cookie := s.cookie + 1
    queue := s.queue ++ notify s (idAt s.dirs src.parent) .movedFrom s.cookie (nameOf src) ++
      notify s (idAt s.dirs dst.parent) .movedTo s.cookie (nameOf dst) } with hs₁
  have hdirs (i : Option ℕ) : (vanish s₁ i).dirs = dirs' := by
    unfold vanish
    split <;> rfl
  have htrees : TreesOK names dirs' := by
    refine InotifyRenames.TreesOK.rename h.inv.trees hmv hslash ?_
    rw [← hdirs]
    exact fits_iff.mp hfits
  obtain ⟨⟨p, hp⟩, ⟨p', hp'⟩⟩ := rename_parents h.inv.trees hmv
  -- a directory at `dst` that is outside the trees is not watched
  have hunwatched (hd : monitored names dst = false) : vanish s₁ (idAt s.dirs dst) = s₁ :=
    vanish_unwatched fun r hr wd => InotifyRenames.Inv.not_watched h.inv (idAt_eq_some hr) hd
  cases hs : monitored names src with
  | true =>
    obtain ⟨wd, hw, hfrom⟩ := notify_inside h hp hs .movedFrom s.cookie (nameOf src)
    cases hd : monitored names dst with
    | true =>
      obtain ⟨wd', hw', hto⟩ := notify_inside h hp' hd .movedTo s.cookie (nameOf dst)
      have hqueue : s₁.queue = s.queue ++ [dirEvent wd .movedFrom s.cookie (nameOf src)] ++
          [dirEvent wd' .movedTo s.cookie (nameOf dst)] := by
        rw [← hfrom, ← hto]
      cases hr : idAt s.dirs dst with
      | none =>
        have hnone (r : ℕ) (hm : (r, dst) ∈ s.dirs) : False := by
          have hid : idAt s.dirs dst = some r := h.inv.trees.idAt hm
          rw [hid] at hr
          cases hr
        have hphase := rename_within h hc hapart hmv htrees hs hd hp hp' hw hw'
          (.inr ⟨hnone, rfl, rfl⟩)
        rw [List.append_nil, ← hqueue] at hphase
        exact hphase
      | some r =>
        obtain ⟨watches', gone, he, hvan⟩ := vanish_cases s₁ r h.inv.wds h.inv.one
        rw [he, hqueue]
        exact rename_within h hc hapart hmv htrees hs hd hp hp' hw hw'
          (.inl ⟨r, idAt_eq_some hr, hvan⟩)
    | false =>
      rw [hunwatched hd, hs₁, hfrom, notify_outside h hp' hd, List.append_nil]
      exact rename_out h hc hapart hmv htrees hs hd hp hw
  | false =>
    have hfrom := notify_outside h hp hs .movedFrom s.cookie (nameOf src)
    cases hd : monitored names dst with
    | true =>
      obtain ⟨wd', hw', hto⟩ := notify_inside h hp' hd .movedTo s.cookie (nameOf dst)
      have hnone : ∀ r, (r, dst) ∉ s.dirs := by simpa [hs, hd] using hin
      have hstays : vanish s₁ (idAt s.dirs dst) = s₁ :=
        vanish_unwatched fun r hr => absurd (idAt_eq_some hr) (hnone r)
      have hinv : Inv names { view s with
          dirs := dirs', events := [dirEvent wd' .movedTo s.cookie (nameOf dst)] } :=
        h.into hapart hmv htrees hs hd hnone hp' hw'
      rw [hstays]
      refine phase_waiting hinv rfl rfl rfl rfl ?_ h.jobs hpc hb
      rw [hs₁, hfrom, hto, hq]
      rfl
    | false =>
      rw [hunwatched hd]
      refine phase_waiting (h.elsewhere hmv htrees hs hd) rfl rfl rfl rfl ?_ h.jobs hpc hb
      rw [hs₁, hfrom, notify_outside h hp' hd, hq]
      exact h.events

end Renames

end InotifyChanges
