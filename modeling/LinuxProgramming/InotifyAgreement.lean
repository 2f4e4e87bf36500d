import LinuxProgramming.InotifyRuns

/-! # When the cache agrees with the directories

In lock step the cache agrees with the trees unless a directory from outside replaces one in a
tree. When changes run ahead of the monitor, a rename that overtakes the event for the new
directory is enough to lose it. -/
namespace InotifyAgreement

open Interleaving DirectoryTrees InotifyDtree InotifyInvariant InotifyChanges InotifyRuns

variable {names : List Path} {dirs : Dirs ℕ Path} {s : State}

def treesOK (names : List Path) (dirs : Dirs ℕ Path) : Bool :=
  (dirs.all fun d => dirs.all fun e => (d.1 = e.1) = (d.2 = e.2)) &&
  (dirs.all fun d => d.2.comps = [] || present dirs d.2.parent) &&
  (dirs.all fun d => d.2.comps.all fun c => !c.contains slash) &&
  ((List.range names.length).all fun t => present dirs ⟨t, []⟩) && fits names dirs

theorem TreesOK.of_check (h : treesOK names dirs = true) : TreesOK names dirs := by
  simp only [treesOK, Bool.and_eq_true, List.all_eq_true, Bool.or_eq_true, decide_eq_true_eq,
    Prod.forall, present_iff, fits_iff, List.mem_range] at h
  obtain ⟨⟨⟨⟨hsame, hparent⟩, hfree⟩, hroots⟩, hshort⟩ := h
  refine ⟨⟨?_, ?_, ?_⟩, ?_, hroots, hshort⟩
  · intro i l l' hl hl'
    exact (hsame i l hl i l' hl').mp rfl
  · intro i i' l hl hl'
    exact (hsame i l hl i' l hl').mpr rfl
  · intro i l n hl
    have := (hparent i _ hl).resolve_left (by simp [Loc.child])
    rwa [Loc.parent_child] at this
  · intro i l hl c hc
    simpa using hfree i l hl c hc

/-! ## In lock step -/

/-- The next change is made when the monitor has handled all events. -/
def lockStep (s : State) (a : Action) : Bool := ofMonitor a || caughtUp s

/-- No directory from outside takes the place of one in a tree, and pathnames stay short. -/
def sparing (names : List Path) (s : State) (a : Action) : Bool :=
  staysShort names s a && match a with
    | .rename src dst => monitored names src || !monitored names dst || !present s.dirs dst
    | _ => true

theorem careful_of_lockStep {a : Action} (h : (lockStep s a && sparing names s a) = true) :
    careful names s a = true := by
  cases a <;> simp_all [lockStep, sparing, careful, ofMonitor]

theorem lockstep_agreement (hapart : RootsApart names) (hdirs : TreesOK names dirs)
    (h : Run (next names) (fun s a => (lockStep s a && sparing names s a) = true)
      (start names dirs) s) :
    (caughtUp s = true → Agrees names s.dirs s.watches s.cache) ∧
    Finishes (next names) (fun _ a => ofMonitor a = true)
      (fun t => caughtUp t = true ∧ Agrees names t.dirs t.watches t.cache) s := by
  have hgood : Good names s := good_run hapart hdirs (h.mono fun _ _ => careful_of_lockStep)
  exact ⟨good_agrees hgood, good_finishes hgood hapart⟩

theorem rootsApart_single (root : Path) : RootsApart [root] := by
  intro i j hi hj hne
  simp only [List.length_singleton] at hi hj
  omega

/-- The tree `/r` with the directory `a`, and elsewhere a directory `b`. -/
def home : Path := [47, 114]
def homeDirs : Dirs ℕ Path := [(0, ⟨0, []⟩), (1, ⟨0, [[97]]⟩), (2, ⟨1, []⟩), (3, ⟨1, [[98]]⟩)]

/-- `a` leaves and `b` comes in under its name. -/
theorem lockstep_agreement_exchange :
    RootsApart [home] ∧ TreesOK [home] homeDirs ∧
    ∃ s, caughtUp s = true ∧ (3, ⟨0, [[97]]⟩) ∈ s.dirs ∧
      Agrees [home] s.dirs s.watches s.cache := by
  have hdirs : TreesOK [home] homeDirs := TreesOK.of_check (by decide +kernel)
  obtain ⟨s, hrun, hs⟩ := followAllowed_reaches
    (fun s a => lockStep s a && sparing [home] s a) (next [home]) (start [home] homeDirs)
    (List.replicate 7 .step ++ [.rename ⟨0, [[97]]⟩ ⟨1, [[97]]⟩, .read 1, .step, .reread 0, .step,
      .read 1, .step, .rename ⟨1, [[98]]⟩ ⟨0, [[97]]⟩, .read 1] ++ List.replicate 5 .step)
    (fun s => caughtUp s && s.dirs.contains (3, ⟨0, [[97]]⟩)) (by decide +kernel)
  simp only [Bool.and_eq_true, List.contains_iff_mem] at hs
  exact ⟨rootsApart_single home, hdirs, s, hs.1, hs.2, (lockstep_agreement (rootsApart_single home) hdirs hrun).1 hs.1⟩

/-- A directory from outside takes the place of `a`: the event for its arrival finds the
pathname in the cache, then the slot is cleared with the old directory. -/
theorem replacement_lost :
    RootsApart [home] ∧ TreesOK [home] homeDirs ∧
    ∃ s, Run (next [home]) (fun s a => (lockStep s a && staysShort [home] s a) = true)
        (start [home] homeDirs) s ∧ caughtUp s = true ∧ (3, ⟨0, [[97]]⟩) ∈ s.dirs ∧
      (∀ x ∈ s.cache, x.path ≠ pathOf [home] ⟨0, [[97]]⟩) ∧
      ¬ Agrees [home] s.dirs s.watches s.cache := by
  obtain ⟨s, hrun, hs⟩ := followAllowed_reaches
    (fun s a => lockStep s a && staysShort [home] s a) (next [home]) (start [home] homeDirs)
    (List.replicate 7 .step ++ [.rename ⟨1, [[98]]⟩ ⟨0, [[97]]⟩, .read 3, .step, .step, .step])
    (fun s => caughtUp s && s.dirs.contains (3, ⟨0, [[97]]⟩) &&
      s.cache.all fun x => x.path ≠ pathOf [home] ⟨0, [[97]]⟩) (by decide +kernel)
  simp only [Bool.and_eq_true, List.contains_iff_mem, List.all_eq_true, decide_eq_true_eq] at hs
  obtain ⟨⟨hc, hmem⟩, hnone⟩ := hs
  refine ⟨rootsApart_single home, TreesOK.of_check (by decide +kernel), s, hrun, hc, hmem, hnone, fun hag => ?_⟩
  obtain ⟨x, hx, -, -, -, hp⟩ := hag.complete 3 _ hmem rfl
  exact hnone x hx hp

/-! ## While the monitor lags behind -/

def livePaths (cache : List Watch) : List Path := (cache.filter fun x => x.wd ≠ none).map Watch.path

/-- One process changes directories inside the tree; it renames only to unused names. -/
def insideTree (names : List Path) (s : State) : Action → Bool
  | .mkdir l _ _ | .rmdir l => monitored names l
  | .rename src dst => monitored names src && monitored names dst && !present s.dirs dst
  | _ => true

/-- Renames wait until the monitor has caught up, removals until it does not walk a subtree,
and pathnames stay short. -/
def patient (names : List Path) (s : State) (a : Action) : Bool :=
  staysShort names s a && match a with
    | .rename _ _ => caughtUp s
    | .rmdir _ => !walking s
    | _ => true

theorem careful_of_patient {a : Action} (h : (insideTree names s a && patient names s a) = true) :
    careful names s a = true := by
  cases a <;> simp_all [insideTree, patient, careful]

theorem mem_livePaths (h : Agrees names s.dirs s.watches s.cache) (path : Path) :
    path ∈ livePaths s.cache ↔
      ∃ i l, (i, l) ∈ s.dirs ∧ monitored names l = true ∧ path = pathOf names l := by
  simp only [livePaths, List.mem_map, List.mem_filter, decide_eq_true_eq]
  constructor
  · rintro ⟨x, ⟨hx, hne⟩, rfl⟩
    obtain ⟨wd, hwd⟩ := Option.ne_none_iff_exists'.mp hne
    obtain ⟨i, l, -, hl, hm, hp⟩ := h.slots x hx wd hwd
    exact ⟨i, l, hl, hm, hp⟩
  · rintro ⟨i, l, hl, hm, rfl⟩
    obtain ⟨x, hx, wd, hwd, -, hp⟩ := h.complete i l hl hm
    exact ⟨x, ⟨hx, by simp [hwd]⟩, hp⟩

theorem lagging_consistency {root : Path} (hdirs : TreesOK [root] dirs)
    (h : Run (next [root]) (fun s a => (insideTree [root] s a && patient [root] s a) = true)
      (start [root] dirs) s) :
    (caughtUp s = true → ∀ path, path ∈ livePaths s.cache ↔
      ∃ i l, (i, l) ∈ s.dirs ∧ monitored [root] l = true ∧ path = pathOf [root] l) ∧
    Finishes (next [root]) (fun _ a => ofMonitor a = true)
      (fun t => caughtUp t = true ∧ ∀ path, path ∈ livePaths t.cache ↔
        ∃ i l, (i, l) ∈ t.dirs ∧ monitored [root] l = true ∧ path = pathOf [root] l) s := by
  have hapart := rootsApart_single root
  have hgood : Good [root] s := good_run hapart hdirs (h.mono fun _ _ => careful_of_patient)
  refine ⟨fun hc => mem_livePaths (good_agrees hgood hc), ?_⟩
  exact (good_finishes hgood hapart).mono fun t ht => ⟨ht.1, mem_livePaths ht.2⟩

/-- Two directories are made, one in the other, before the first event is read; the outer one
is renamed when both are known. -/
theorem lagging_consistency_nested :
    TreesOK [home] [(0, ⟨0, []⟩)] ∧
    ∃ s, caughtUp s = true ∧ (2, ⟨0, [[98], [97]]⟩) ∈ s.dirs ∧
      ∀ path, path ∈ livePaths s.cache ↔
        ∃ i l, (i, l) ∈ s.dirs ∧ monitored [home] l = true ∧ path = pathOf [home] l := by
  have hdirs : TreesOK [home] [(0, ⟨0, []⟩)] := TreesOK.of_check (by decide +kernel)
  obtain ⟨s, hrun, hs⟩ := followAllowed_reaches
    (fun s a => insideTree [home] s a && patient [home] s a) (next [home])
    (start [home] [(0, ⟨0, []⟩)])
    (List.replicate 4 .step ++ [.mkdir ⟨0, []⟩ [97] 1, .mkdir ⟨0, [[97]]⟩ [97] 2, .read 1] ++
      List.replicate 8 .step ++ [.rename ⟨0, [[97]]⟩ ⟨0, [[98]]⟩, .read 1, .step, .reread 1, .step])
    (fun s => caughtUp s && s.dirs.contains (2, ⟨0, [[98], [97]]⟩)) (by decide +kernel)
  simp only [Bool.and_eq_true, List.contains_iff_mem] at hs
  exact ⟨hdirs, s, hs.1, hs.2, (lagging_consistency hdirs hrun).1 hs.1⟩

/-- A directory is renamed before the event for its creation is handled: the walk does not find
the old name, and the rename finds no slot to rewrite. -/
theorem overtaken_rename_lost :
    TreesOK [home] [(0, ⟨0, []⟩)] ∧
    ∃ s, Run (next [home]) (fun s a => (insideTree [home] s a && staysShort [home] s a) = true)
        (start [home] [(0, ⟨0, []⟩)]) s ∧ caughtUp s = true ∧ (1, ⟨0, [[98]]⟩) ∈ s.dirs ∧
      pathOf [home] ⟨0, [[98]]⟩ ∉ livePaths s.cache := by
  obtain ⟨s, hrun, hs⟩ := followAllowed_reaches
    (fun s a => insideTree [home] s a && staysShort [home] s a) (next [home])
    (start [home] [(0, ⟨0, []⟩)])
    (List.replicate 4 .step ++ [.mkdir ⟨0, []⟩ [97] 1, .rename ⟨0, [[97]]⟩ ⟨0, [[98]]⟩, .read 3] ++
      List.replicate 4 .step)
    (fun s => caughtUp s && s.dirs.contains (1, ⟨0, [[98]]⟩) &&
      (livePaths s.cache).all fun path => path ≠ pathOf [home] ⟨0, [[98]]⟩) (by decide +kernel)
  simp only [Bool.and_eq_true, List.contains_iff_mem, List.all_eq_true, decide_eq_true_eq] at hs
  exact ⟨TreesOK.of_check (by decide +kernel), s, hrun, hs.1.1, hs.1.2, fun hm => hs.2 _ hm rfl⟩

end InotifyAgreement
