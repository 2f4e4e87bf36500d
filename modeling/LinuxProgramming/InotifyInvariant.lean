import LinuxProgramming.InotifyDtree

/-! # What the cache, the watches and the events say together

The invariant holds between any two steps. Every watch has its slot, every slot has its watch
or its end is announced, and every directory without a watch will be found: by an event that
is still to come, or by what is left of the walk. -/
namespace InotifyInvariant

open CStrings Pathnames DirectoryTrees Loc InotifyDtree

/-! ## Pathnames of directories -/

/-- No root is named by a continuation of the name of another one. -/
def RootsApart (names : List Path) : Prop :=
  ∀ i j, i < names.length → j < names.length → i ≠ j →
    Apart slash (names.getD i []) (names.getD j [])

structure TreesOK (names : List Path) (dirs : Dirs ℕ Path) : Prop where
  wf : WF dirs
  free : ∀ i l, (i, l) ∈ dirs → Free slash l.comps
  roots : ∀ t, t < names.length → ∃ i, (i, ⟨t, []⟩) ∈ dirs
  short : ∀ i l, (i, l) ∈ dirs → monitored names l = true → (pathOf names l).length < pathMax

section Paths

variable {names : List Path} {dirs : Dirs ℕ Path}

theorem pathOf_child (names : List Path) (l : Loc Path) (n : Path) :
    pathOf names (l.child n) = pathOf names l ++ slash :: n :=
  joined_concat _ _ _

theorem monitored_of_above {a l : Loc Path} (h : Above a l) :
    monitored names a = monitored names l := by
  rw [monitored, h.1, monitored]

theorem inSubtree_pathOf (hapart : RootsApart names) {a l : Loc Path} (ha : Free slash a.comps)
    (hl : Free slash l.comps) (hma : monitored names a = true) (hml : monitored names l = true) :
    inSubtree slash (pathOf names a) (pathOf names l) = true ↔ Above a l := by
  by_cases ht : a.tree = l.tree
  · rw [pathOf, pathOf, ht, inSubtree_joined ha hl]
    exact ⟨fun h => ⟨ht, h⟩, fun h => h.2⟩
  · have hne := hapart a.tree l.tree (of_decide_eq_true hma) (of_decide_eq_true hml) ht
    rw [pathOf, pathOf, inSubtree_apart hne]
    exact ⟨fun h => (Bool.false_ne_true h).elim, fun h => absurd h.1 ht⟩

theorem pathOf_injective (hapart : RootsApart names) {a l : Loc Path} (ha : Free slash a.comps)
    (hl : Free slash l.comps) (hma : monitored names a = true) (hml : monitored names l = true)
    (h : pathOf names a = pathOf names l) : a = l := by
  have hself : inSubtree slash (pathOf names a) (pathOf names l) = true :=
    inSubtree_iff.mpr (.inl h.symm)
  have hself' : inSubtree slash (pathOf names l) (pathOf names a) = true :=
    inSubtree_iff.mpr (.inl h)
  exact ((inSubtree_pathOf hapart ha hl hma hml).mp hself).antisymm
    ((inSubtree_pathOf hapart hl ha hml hma).mp hself')

theorem pathOf_move {src dst l : Loc Path} (h : Above src l) :
    pathOf names (move src dst l) =
      pathOf names dst ++ (pathOf names l).drop (pathOf names src).length := by
  obtain ⟨ht, r, hr⟩ := h
  have hl : pathOf names l = pathOf names src ++ joined slash [] r := by
    rw [pathOf, ← hr, joined_append, joined_eq_append, pathOf, ht]
  rw [move_of_above ⟨ht, r, hr⟩, hl, List.drop_left, pathOf, ← hr, List.drop_left, joined_append,
    joined_eq_append, pathOf]

theorem Free.child {cs : List Path} {n : Path} (h : Free slash cs) (hn : slash ∉ n) :
    Free slash (cs ++ [n]) := by
  intro c hc
  rcases List.mem_append.mp hc with hc | hc
  · exact h c hc
  · rw [List.mem_singleton.mp hc]
    exact hn

theorem TreesOK.injective (h : TreesOK names dirs) (hapart : RootsApart names) {i j : ℕ}
    {a l : Loc Path} (ha : (i, a) ∈ dirs) (hl : (j, l) ∈ dirs) (hma : monitored names a = true)
    (hml : monitored names l = true) (he : pathOf names a = pathOf names l) : a = l :=
  pathOf_injective hapart (h.free i a ha) (h.free j l hl) hma hml he

theorem TreesOK.ancestor (h : TreesOK names dirs) {i : ℕ} {a l : Loc Path} (hl : (i, l) ∈ dirs)
    (ha : Above a l) : ∃ j, (j, a) ∈ dirs :=
  h.wf.ancestor hl ha

theorem lookup_eq_some {path : Path} {i : ℕ} (h : lookup names dirs path = some i) :
    ∃ l, (i, l) ∈ dirs ∧ monitored names l = true ∧ path = pathOf names l := by
  obtain ⟨⟨i', l⟩, hfind, rfl⟩ := Option.map_eq_some_iff.mp h
  have hp := List.find?_some hfind
  simp only [Bool.and_eq_true, decide_eq_true_eq] at hp
  exact ⟨l, List.mem_of_find?_eq_some hfind, hp.1, hp.2.symm⟩

theorem TreesOK.lookup (h : TreesOK names dirs) (hapart : RootsApart names) {i : ℕ} {l : Loc Path}
    (hl : (i, l) ∈ dirs) (hm : monitored names l = true) :
    lookup names dirs (pathOf names l) = some i := by
  cases hfind : InotifyDtree.lookup names dirs (pathOf names l) with
  | none =>
    have := List.find?_eq_none.mp (Option.map_eq_none_iff.mp hfind) (i, l) hl
    simp [hm] at this
  | some j =>
    obtain ⟨l', hl', hm', he⟩ := lookup_eq_some hfind
    obtain rfl := h.injective hapart hl hl' hm hm' he
    rw [h.wf.ids i j l hl hl']

theorem idAt_eq_some {l : Loc Path} {i : ℕ} (h : idAt dirs l = some i) : (i, l) ∈ dirs := by
  obtain ⟨⟨i', l'⟩, hfind, rfl⟩ := Option.map_eq_some_iff.mp h
  have hp := List.find?_some hfind
  have hp : l' = l := of_decide_eq_true hp
  exact hp ▸ List.mem_of_find?_eq_some hfind

theorem TreesOK.idAt (h : TreesOK names dirs) {i : ℕ} {l : Loc Path} (hl : (i, l) ∈ dirs) :
    idAt dirs l = some i := by
  cases hfind : InotifyDtree.idAt dirs l with
  | none =>
    have := List.find?_eq_none.mp (Option.map_eq_none_iff.mp hfind) (i, l) hl
    simp at this
  | some j => rw [h.wf.ids i j l hl (idAt_eq_some hfind)]

theorem wdOf_eq_some {watches : List (ℕ × ℕ)} {i wd : ℕ} (h : wdOf watches i = some wd) :
    (wd, i) ∈ watches := by
  obtain ⟨⟨wd', i'⟩, hfind, rfl⟩ := Option.map_eq_some_iff.mp h
  have hp := List.find?_some hfind
  have hp : i' = i := of_decide_eq_true hp
  exact hp ▸ List.mem_of_find?_eq_some hfind

theorem wdOf_eq_none {watches : List (ℕ × ℕ)} {i : ℕ} (h : wdOf watches i = none) (wd : ℕ) :
    (wd, i) ∉ watches := by
  intro hm
  have := List.find?_eq_none.mp (Option.map_eq_none_iff.mp h) (wd, i) hm
  simp at this

theorem mem_entries {i : ℕ} {l : Loc Path} (h : WF dirs) (hl : (i, l) ∈ dirs) {n : Path} :
    n ∈ entries dirs i ↔ ∃ j, (j, l.child n) ∈ dirs := by
  simp only [entries, List.mem_filterMap, Prod.exists]
  constructor
  · rintro ⟨j, l', hm, he⟩
    split at he
    · rename_i hany
      simp only [List.any_eq_true, Bool.and_eq_true, decide_eq_true_eq, Prod.exists] at hany
      obtain ⟨i', p, hp, ⟨rfl, hne⟩, rfl⟩ := hany
      obtain rfl := h.places i' l l'.parent hl hp
      refine ⟨j, ?_⟩
      have : l'.parent.child n = l' := by
        obtain ⟨c, hc⟩ := exists_child hne
        have hn : l'.comps.getLast? = some c := by rw [hc]; simp [child]
        rw [hn, Option.some.injEq] at he
        rw [← he, ← hc]
      rwa [this]
    · cases he
  · rintro ⟨j, hj⟩
    refine ⟨j, l.child n, hj, ?_⟩
    rw [if_pos]
    · simp [child]
    · refine List.any_eq_true.mpr ⟨(i, l), hl, ?_⟩
      rw [parent_child]
      simp [child]

end Paths

/-! ## The invariant -/

/-- The monitor's knowledge and what is still to come. -/
structure View where
  dirs : Dirs ℕ Path
  watches : List (ℕ × ℕ)
  nextWd : ℕ
  cache : List Watch
  events : List Event
  jobs : List Job

def Dying (events : List Event) (wd : ℕ) : Prop :=
  ∃ ev ∈ events, ev.kind = .deleteSelf ∧ ev.wd = some wd

def Arrival (ev : Event) : Prop := ev.kind = .create ∨ ev.kind = .movedTo

/-- The event makes the monitor look at the directory: when its turn comes, no slot with that
pathname is left. -/
structure Leads (names : List Path) (v : View) (before : List Event) (ev : Event) (e : Loc Path) :
    Prop where
  arrival : Arrival ev
  parent : ∃ p i wd, e = p.child ev.name ∧ (i, p) ∈ v.dirs ∧ (wd, i) ∈ v.watches ∧ ev.wd = some wd
  clear : ∀ x ∈ v.cache, ∀ wd, x.wd = some wd → x.path = pathOf names e → Dying before wd

def JobLeads (names : List Path) (jobs : List Job) (e : Loc Path) : Prop :=
  .subtree (pathOf names e) ∈ jobs ∨ .visit (pathOf names e) ∈ jobs ∨
  (∃ i, .watch (pathOf names e) i ∈ jobs) ∨
  ∃ p n i, e = child p n ∧ .list (pathOf names p) i ∈ jobs

inductive Due (names : List Path) (v : View) (e : Loc Path) : Prop
  | event (before : List Event) (ev : Event) (after : List Event)
      (h : v.events = before ++ ev :: after) (hleads : Leads names v before ev e)
  | job (h : JobLeads names v.jobs e)

/-- An event for a slot of the cache, none after the one that ends its watch. -/
structure Proper (v : View) (before : List Event) (ev : Event) (wd : ℕ) : Prop where
  target : ev.wd = some wd
  isDir : ev.isDir = true
  kind : Arrival ev ∨ ev.kind = .deleteSelf
  slot : ∃ x ∈ v.cache, x.wd = some wd
  alive : ¬ Dying before wd

def JobOK (names : List Path) (dirs : Dirs ℕ Path) : Job → Prop
  | .subtree _ => True
  | .visit path => ∃ i l, (i, l) ∈ dirs ∧ monitored names l = true ∧ path = pathOf names l
  | .watch path i | .list path i =>
    ∃ l, (i, l) ∈ dirs ∧ monitored names l = true ∧ path = pathOf names l

structure Inv (names : List Path) (v : View) : Prop where
  trees : TreesOK names v.dirs
  wds : ∀ wd i i', (wd, i) ∈ v.watches → (wd, i') ∈ v.watches → i = i'
  one : ∀ wd wd' i, (wd, i) ∈ v.watches → (wd', i) ∈ v.watches → wd = wd'
  inside : ∀ wd i, (wd, i) ∈ v.watches →
    wd < v.nextWd ∧ ∃ l, (i, l) ∈ v.dirs ∧ monitored names l = true
  slots : ∀ (j k : ℕ) (x y : Watch) (wd : ℕ), v.cache[j]? = some x → v.cache[k]? = some y →
    x.wd = some wd → y.wd = some wd → j = k
  used : ∀ x ∈ v.cache, ∀ wd, x.wd = some wd → wd < v.nextWd
  vacant : ∀ x ∈ v.cache, x.wd = none → x.path = []
  cached : ∀ wd i l, (wd, i) ∈ v.watches → (i, l) ∈ v.dirs →
    ∃ x ∈ v.cache, x.wd = some wd ∧ x.path = pathOf names l
  live : ∀ x ∈ v.cache, ∀ wd, x.wd = some wd →
    (∃ i l, (wd, i) ∈ v.watches ∧ (i, l) ∈ v.dirs ∧ x.path = pathOf names l) ∨
    Dying v.events wd ∧ x.path ∉ names
  dying : ∀ wd, Dying v.events wd → ∀ i, (wd, i) ∉ v.watches
  proper : ∀ before ev after, v.events = before ++ ev :: after →
    ev.kind = .ignored ∨ ∃ wd, Proper v before ev wd
  cover : ∀ i l, (i, l) ∈ v.dirs → monitored names l = true →
    (∃ wd, (wd, i) ∈ v.watches) ∨ ∃ e, Above e l ∧ Due names v e
  jobs : ∀ j ∈ v.jobs, JobOK names v.dirs j

/-- What is claimed of the cache: its pathnames are those of the directories, each with the
watch on the directory. -/
structure Agrees (names : List Path) (dirs : Dirs ℕ Path) (watches : List (ℕ × ℕ))
    (cache : List Watch) : Prop where
  slots : ∀ x ∈ cache, ∀ wd, x.wd = some wd →
    ∃ i l, (wd, i) ∈ watches ∧ (i, l) ∈ dirs ∧ monitored names l = true ∧ x.path = pathOf names l
  complete : ∀ i l, (i, l) ∈ dirs → monitored names l = true →
    ∃ x ∈ cache, ∃ wd, x.wd = some wd ∧ (wd, i) ∈ watches ∧ x.path = pathOf names l

section Events

variable {names : List Path} {v : View} {events rest : List Event} {ev : Event} {wd : ℕ}

theorem not_dying_nil : ¬ Dying [] wd := by
  rintro ⟨ev, hev, -⟩
  cases hev

theorem Dying.append_left (h : Dying events wd) : Dying (events ++ rest) wd := by
  obtain ⟨ev, hev, hk⟩ := h
  exact ⟨ev, List.mem_append_left _ hev, hk⟩

theorem Dying.cons (h : Dying events wd) : Dying (ev :: events) wd := by
  obtain ⟨ev', hev, hk⟩ := h
  exact ⟨ev', List.mem_cons_of_mem _ hev, hk⟩

theorem Dying.of_cons (h : Dying (ev :: events) wd) :
    ev.kind = .deleteSelf ∧ ev.wd = some wd ∨ Dying events wd := by
  obtain ⟨ev', hev, hk⟩ := h
  rcases List.mem_cons.mp hev with rfl | hev
  · exact .inl hk
  · exact .inr ⟨ev', hev, hk⟩

theorem Dying.of_append (h : Dying (events ++ rest) wd) : Dying events wd ∨ Dying rest wd := by
  obtain ⟨ev', hev, hk⟩ := h
  rcases List.mem_append.mp hev with hev | hev
  · exact .inl ⟨ev', hev, hk⟩
  · exact .inr ⟨ev', hev, hk⟩

theorem Dying.of_right (h : Dying rest wd) : Dying (events ++ rest) wd := by
  obtain ⟨ev, hev, hk⟩ := h
  exact ⟨ev, List.mem_append_right _ hev, hk⟩

/-- An event of a list that was extended is an old one or a new one. -/
theorem split_append {before after : List Event} (h : events ++ rest = before ++ ev :: after) :
    (∃ after', events = before ++ ev :: after') ∨
    ∃ before', before = events ++ before' ∧ rest = before' ++ ev :: after := by
  rcases List.append_eq_append_iff.mp h with ⟨z, hz, hrest⟩ | ⟨z, hz, hrest⟩
  · exact .inr ⟨z, hz, hrest⟩
  · cases z with
    | nil => exact .inr ⟨[], by simpa using hz.symm, by simpa using hrest.symm⟩
    | cons c z =>
      obtain ⟨rfl, rfl⟩ := List.cons.inj hrest
      exact .inl ⟨z, hz⟩

/-- When nothing is to come, the cache agrees with the directories. -/
theorem Inv.agrees (h : Inv names v) (hevents : v.events = []) (hjobs : v.jobs = []) :
    Agrees names v.dirs v.watches v.cache := by
  have hwatched {i : ℕ} {l : Loc Path} (hl : (i, l) ∈ v.dirs) (hm : monitored names l = true) :
      ∃ wd, (wd, i) ∈ v.watches := by
    rcases h.cover i l hl hm with hw | ⟨e, -, hdue⟩
    · exact hw
    · cases hdue with
      | event before ev after he =>
        rw [hevents] at he
        simp at he
      | job hjob => simp [JobLeads, hjobs] at hjob
  refine ⟨fun x hx wd hwd => ?_, fun i l hl hm => ?_⟩
  · rcases h.live x hx wd hwd with ⟨i, l, hw, hl, hp⟩ | ⟨hd, -⟩
    · obtain ⟨-, l', hl', hm⟩ := h.inside wd i hw
      obtain rfl := h.trees.wf.places i l l' hl hl'
      exact ⟨i, l, hw, hl, hm, hp⟩
    · rw [hevents] at hd
      exact absurd hd not_dying_nil
  · obtain ⟨wd, hw⟩ := hwatched hl hm
    obtain ⟨x, hx, hwd, hp⟩ := h.cached wd i l hw hl
    exact ⟨x, hx, wd, hwd, hw, hp⟩

end Events

/-! ## Taking an event -/

section Take

variable {names : List Path} {v : View} {events : List Event} {ev : Event} {wd : ℕ}

/-- The first event is gone. It was not one that ends a watch, and what it led to is now due
to the walk. -/
theorem Inv.pop (h : Inv names { v with events := ev :: events }) (hkind : ev.kind ≠ .deleteSelf)
    {jobs : List Job} (hsub : ∀ j ∈ v.jobs, j ∈ jobs) (hjobs : ∀ j ∈ jobs, JobOK names v.dirs j)
    (hleads : ∀ k e, (k, e) ∈ v.dirs → monitored names e = true →
      Leads names { v with events := ev :: events } [] ev e → JobLeads names jobs e) :
    Inv names { v with events := events, jobs := jobs } := by
  have hdying {es : List Event} {wd : ℕ} (hd : Dying (ev :: es) wd) : Dying es wd :=
    hd.of_cons.resolve_left fun hk => hkind hk.1
  exact
    { trees := h.trees
      wds := h.wds
      one := h.one
      inside := h.inside
      slots := h.slots
      used := h.used
      vacant := h.vacant
      cached := h.cached
      live := fun x hx wd hwd => (h.live x hx wd hwd).imp_right fun hd => ⟨hdying hd.1, hd.2⟩
      dying := fun wd hd => h.dying wd hd.cons
      proper := by
        intro before ev' after (he : events = before ++ ev' :: after)
        have he' : ev :: events = (ev :: before) ++ ev' :: after := by rw [he, List.cons_append]
        refine (h.proper (ev :: before) ev' after he').imp_right fun ⟨wd, hp⟩ => ?_
        exact ⟨wd, hp.target, hp.isDir, hp.kind, hp.slot, fun hd => hp.alive hd.cons⟩
      cover := by
        intro i l hl hm
        refine (h.cover i l hl hm).imp_right fun ⟨e, hel, hdue⟩ => ⟨e, hel, ?_⟩
        cases hdue with
        | event before ev' after he hlead =>
          cases before with
          | nil =>
            obtain ⟨rfl, rfl⟩ := List.cons.inj he
            obtain ⟨k, hk⟩ := h.trees.ancestor hl hel
            exact .job (hleads k e hk ((monitored_of_above hel).trans hm) hlead)
          | cons ev0 before =>
            obtain ⟨rfl, he'⟩ := List.cons.inj he
            exact .event before ev' after he' ⟨hlead.arrival, hlead.parent,
              fun x hx wd hwd hp => hdying (hlead.clear x hx wd hwd hp)⟩
        | job hjob =>
          refine .job ?_
          rcases hjob with hj | hj | ⟨k, hj⟩ | ⟨p, n, k, he, hj⟩
          · exact .inl (hsub _ hj)
          · exact .inr (.inl (hsub _ hj))
          · exact .inr (.inr (.inl ⟨k, hsub _ hj⟩))
          · exact .inr (.inr (.inr ⟨p, n, k, he, hsub _ hj⟩))
      jobs := hjobs }

theorem Inv.pop_ignored (h : Inv names { v with events := ev :: events })
    (hkind : ev.kind = .ignored) : Inv names { v with events := events } := by
  refine h.pop (by simp [hkind]) (fun _ hj => hj) h.jobs fun k e _ _ hlead => ?_
  rcases hlead.arrival with hk | hk <;> rw [hkind] at hk <;> cases hk

theorem Inv.append_ignored (h : Inv names v) {ignored : List Event}
    (hkind : ∀ ev ∈ ignored, ev.kind = .ignored) :
    Inv names { v with events := v.events ++ ignored } where
  trees := h.trees
  wds := h.wds
  one := h.one
  inside := h.inside
  slots := h.slots
  used := h.used
  vacant := h.vacant
  cached := h.cached
  live := fun x hx wd hwd => (h.live x hx wd hwd).imp_right fun hd => ⟨hd.1.append_left, hd.2⟩
  dying := by
    intro wd hd
    rcases hd.of_append with hd | ⟨ev, hev, hk, -⟩
    · exact h.dying wd hd
    · rw [hkind ev hev] at hk
      cases hk
  proper := by
    intro before ev after he
    rcases split_append he with ⟨after', hold⟩ | ⟨before', -, hnew⟩
    · exact (h.proper before ev after' hold).imp_right fun ⟨wd, hp⟩ =>
        ⟨wd, hp.target, hp.isDir, hp.kind, hp.slot, hp.alive⟩
    · exact .inl (hkind ev (by simp [hnew]))
  cover := by
    intro i l hl hm
    refine (h.cover i l hl hm).imp_right fun ⟨e, hel, hdue⟩ => ⟨e, hel, ?_⟩
    cases hdue with
    | event before ev after he hlead =>
      exact .event before ev (after ++ ignored) (by rw [he, List.append_assoc, List.cons_append])
        ⟨hlead.arrival, hlead.parent, hlead.clear⟩
    | job hjob => exact .job hjob
  jobs := h.jobs

theorem Inv.reorder (h : Inv names v) {watches' : List (ℕ × ℕ)}
    (hw : ∀ wd i, (wd, i) ∈ watches' ↔ (wd, i) ∈ v.watches) :
    Inv names { v with watches := watches' } where
  trees := h.trees
  wds := by simpa only [hw] using h.wds
  one := by simpa only [hw] using h.one
  inside := by simpa only [hw] using h.inside
  slots := h.slots
  used := h.used
  vacant := h.vacant
  cached := by simpa only [hw] using h.cached
  live := by simpa only [hw] using h.live
  dying := by simpa only [hw] using h.dying
  proper := fun before ev after he => (h.proper before ev after he).imp_right fun ⟨wd, hp⟩ =>
    ⟨wd, hp.target, hp.isDir, hp.kind, hp.slot, hp.alive⟩
  cover := by
    intro i l hl hm
    rcases h.cover i l hl hm with ⟨wd, hwd⟩ | ⟨e, he, hdue⟩
    · exact .inl ⟨wd, (hw wd i).mpr hwd⟩
    · refine .inr ⟨e, he, ?_⟩
      cases hdue with
      | event before ev after hev hlead =>
        obtain ⟨p, k, wd, heq, hp, hk, hwd⟩ := hlead.parent
        exact .event before ev after hev
          ⟨hlead.arrival, ⟨p, k, wd, heq, hp, (hw wd k).mpr hk, hwd⟩, hlead.clear⟩
      | job hjob => exact .job hjob
  jobs := h.jobs

theorem findWatch_eq_some {cache : List Watch} {j : ℕ} (h : findWatch cache wd = some j) :
    ∃ x, cache[j]? = some x ∧ x.wd = some wd := by
  obtain ⟨hlt, he, -⟩ := List.findIdx?_eq_some_iff_getElem.mp h
  exact ⟨cache[j], List.getElem?_eq_getElem hlt, of_decide_eq_true he⟩

theorem findWatch_isSome {cache : List Watch} {x : Watch} (hx : x ∈ cache) (hwd : x.wd = some wd) :
    ∃ j, findWatch cache wd = some j := by
  refine Option.isSome_iff_exists.mp ?_
  rw [findWatch, List.findIdx?_isSome, List.any_eq_true]
  exact ⟨x, hx, by simp [hwd]⟩

theorem Inv.slot_of (h : Inv names v) {x : Watch} (hx : x ∈ v.cache) (hwd : x.wd = some wd) {j : ℕ}
    (hj : findWatch v.cache wd = some j) : v.cache[j]? = some x := by
  obtain ⟨y, hy, hywd⟩ := findWatch_eq_some hj
  obtain ⟨k, hk⟩ := List.mem_iff_getElem?.mp hx
  obtain rfl := h.slots j k y x wd hy hk hywd hwd
  exact hk

theorem Inv.bury (h : Inv names { v with events := ev :: events }) (hkind : ev.kind = .deleteSelf)
    (hwd : ev.wd = some wd) {j : ℕ} (hj : findWatch v.cache wd = some j) :
    Inv names { v with events := events, cache := markCacheSlotEmpty v.cache j } := by
  obtain ⟨z, hz, hzwd⟩ := findWatch_eq_some hj
  have hdead : ∀ i, (wd, i) ∉ v.watches :=
    h.dying wd ⟨ev, List.mem_cons_self, hkind, hwd⟩
  have hget {k : ℕ} {x : Watch} {wd' : ℕ} (hk : (v.cache.set j emptySlot)[k]? = some x)
      (hx : x.wd = some wd') : v.cache[k]? = some x ∧ wd' ≠ wd := by
    rw [List.getElem?_set] at hk
    split at hk
    · split at hk
      · cases hk
        cases hx
      · cases hk
    · rename_i hjk
      refine ⟨hk, ?_⟩
      rintro rfl
      exact hjk (h.slots j k z x wd' hz hk hzwd hx)
  have hmem {x : Watch} {wd' : ℕ} (hx : x ∈ v.cache.set j emptySlot) (hxwd : x.wd = some wd') :
      x ∈ v.cache ∧ wd' ≠ wd := by
    obtain ⟨k, hk⟩ := List.mem_iff_getElem?.mp hx
    obtain ⟨hk, hne⟩ := hget hk hxwd
    exact ⟨List.mem_of_getElem? hk, hne⟩
  have hkeep {x : Watch} {wd' : ℕ} (hx : x ∈ v.cache) (hxwd : x.wd = some wd') (hne : wd' ≠ wd) :
      x ∈ v.cache.set j emptySlot := by
    obtain ⟨k, hk⟩ := List.mem_iff_getElem?.mp hx
    refine List.mem_of_getElem? (i := k) ?_
    rw [List.getElem?_set_ne, hk]
    rintro rfl
    rw [hz, Option.some.injEq] at hk
    rw [← hk, hzwd, Option.some.injEq] at hxwd
    exact hne hxwd.symm
  have hdying {es : List Event} {wd' : ℕ} (hd : Dying (ev :: es) wd') (hne : wd' ≠ wd) :
      Dying es wd' := by
    refine hd.of_cons.resolve_left fun hk => hne ?_
    rw [hwd, Option.some.injEq] at hk
    exact hk.2.symm
  exact
    { trees := h.trees
      wds := h.wds
      one := h.one
      inside := h.inside
      slots := fun k k' x y wd' hx hy hxwd hywd =>
        h.slots k k' x y wd' (hget hx hxwd).1 (hget hy hywd).1 hxwd hywd
      used := fun x hx wd' hxwd => h.used x (hmem hx hxwd).1 wd' hxwd
      vacant := by
        intro x hx hxwd
        rcases List.mem_or_eq_of_mem_set hx with hx | rfl
        · exact h.vacant x hx hxwd
        · rfl
      cached := by
        intro wd' i l hw hl
        obtain ⟨x, hx, hxwd, hp⟩ := h.cached wd' i l hw hl
        exact ⟨x, hkeep hx hxwd (fun he => hdead i (he ▸ hw)), hxwd, hp⟩
      live := by
        intro x hx wd' hxwd
        obtain ⟨hx, hne⟩ := hmem hx hxwd
        exact (h.live x hx wd' hxwd).imp_right fun hd => ⟨hdying hd.1 hne, hd.2⟩
      dying := fun wd' hd => h.dying wd' hd.cons
      proper := by
        intro before ev' after (he : events = before ++ ev' :: after)
        have he' : ev :: events = (ev :: before) ++ ev' :: after := by rw [he, List.cons_append]
        refine (h.proper (ev :: before) ev' after he').imp_right fun ⟨wd', hp⟩ => ?_
        have hne : wd' ≠ wd := by
          rintro rfl
          exact hp.alive ⟨ev, List.mem_cons_self, hkind, hwd⟩
        obtain ⟨x, hx, hxwd⟩ := hp.slot
        exact ⟨wd', hp.target, hp.isDir, hp.kind, ⟨x, hkeep hx hxwd hne, hxwd⟩,
          fun hd => hp.alive hd.cons⟩
      cover := by
        intro i l hl hm
        refine (h.cover i l hl hm).imp_right fun ⟨e, hel, hdue⟩ => ⟨e, hel, ?_⟩
        cases hdue with
        | event before ev' after he hlead =>
          cases before with
          | nil =>
            obtain ⟨rfl, rfl⟩ := List.cons.inj he
            rcases hlead.arrival with hk | hk <;> rw [hkind] at hk <;> cases hk
          | cons ev0 before =>
            obtain ⟨rfl, he'⟩ := List.cons.inj he
            refine .event before ev' after he' ⟨hlead.arrival, hlead.parent, ?_⟩
            intro x hx wd' hxwd hp
            obtain ⟨hx, hne⟩ := hmem hx hxwd
            exact hdying (hlead.clear x hx wd' hxwd hp) hne
        | job hjob => exact .job hjob
      jobs := h.jobs }

end Take

/-! ## Changes in the trees -/

section Change

variable {names : List Path} {v : View} {dirs' : Dirs ℕ Path}

theorem TreesOK.mkdir {dirs : Dirs ℕ Path} (h : TreesOK names dirs) {i : ℕ} {l : Loc Path} {n : Path}
    (hmk : mkdir dirs i l n = some dirs') (hn : slash ∉ n)
    (hshort : ∀ i l, (i, l) ∈ dirs' → monitored names l = true →
      (pathOf names l).length < pathMax) : TreesOK names dirs' := by
  obtain ⟨⟨p, hp⟩, -, -, rfl⟩ := mkdir_cases hmk
  refine ⟨h.wf.mkdir hmk, fun j m hm => ?_, fun t ht => ?_, hshort⟩
  · rcases List.mem_append.mp hm with hm | hm
    · exact h.free j m hm
    · cases List.mem_singleton.mp hm
      exact Free.child (h.free p l hp) hn
  · obtain ⟨r, hr⟩ := h.roots t ht
    exact ⟨r, List.mem_append_left _ hr⟩

/-- A directory is made in the directory `p`. -/
theorem Inv.mkdir (h : Inv names v) {i p : ℕ} {l : Loc Path} {n : Path} {created : List Event}
    (hmk : mkdir v.dirs i l n = some dirs') (hp : (p, l) ∈ v.dirs) (htrees : TreesOK names dirs')
    (hapart : RootsApart names)
    (hevents : (∃ wd, (wd, p) ∈ v.watches ∧ created = [dirEvent wd .create 0 n]) ∨
      (∀ wd, (wd, p) ∉ v.watches) ∧ created = []) :
    Inv names { v with dirs := dirs', events := v.events ++ created } := by
  obtain ⟨-, hnew, hfresh, hdirs⟩ := mkdir_cases hmk
  have hold {j : ℕ} {m : Loc Path} (hm : (j, m) ∈ v.dirs) : (j, m) ∈ dirs' := by
    rw [hdirs]
    exact List.mem_append_left _ hm
  have hmem {j : ℕ} {m : Loc Path} (hm : (j, m) ∈ dirs') : (j, m) ∈ v.dirs ∨ j = i ∧ m = l.child n := by
    rw [hdirs] at hm
    simpa using hm
  have hwatched {wd j : ℕ} {m : Loc Path} (hw : (wd, j) ∈ v.watches) (hm : (j, m) ∈ dirs') :
      (j, m) ∈ v.dirs := by
    refine (hmem hm).resolve_right fun hj => ?_
    obtain ⟨-, m', hm', -⟩ := h.inside wd j hw
    exact hfresh m' (hj.1 ▸ hm')
  have hdue {e : Loc Path} (hd : Due names v e) :
      Due names { v with dirs := dirs', events := v.events ++ created } e := by
    cases hd with
    | event before ev after he hlead =>
      obtain ⟨q, j, wd, heq, hq, hw, hwd⟩ := hlead.parent
      exact .event before ev (after ++ created) (by rw [he, List.append_assoc, List.cons_append])
        ⟨hlead.arrival, ⟨q, j, wd, heq, hold hq, hw, hwd⟩, hlead.clear⟩
    | job hjob => exact .job hjob
  have hdying {wd : ℕ} (hd : Dying (v.events ++ created) wd) : Dying v.events wd := by
    refine hd.of_append.resolve_right fun ⟨ev, hev, hk, _⟩ => ?_
    rcases hevents with ⟨wd', -, rfl⟩ | ⟨-, rfl⟩
    · rw [List.mem_singleton.mp hev] at hk
      cases hk
    · cases hev
  exact
    { trees := htrees
      wds := h.wds
      one := h.one
      inside := by
        intro wd j hw
        obtain ⟨hlt, m, hm, hmon⟩ := h.inside wd j hw
        exact ⟨hlt, m, hold hm, hmon⟩
      slots := h.slots
      used := h.used
      vacant := h.vacant
      cached := fun wd j m hw hm => h.cached wd j m hw (hwatched hw hm)
      live := by
        intro x hx wd hwd
        rcases h.live x hx wd hwd with ⟨j, m, hw, hm, hpath⟩ | ⟨hd, hroot⟩
        · exact .inl ⟨j, m, hw, hold hm, hpath⟩
        · exact .inr ⟨hd.append_left, hroot⟩
      dying := fun wd hd => h.dying wd (hdying hd)
      proper := by
        intro before ev after he
        rcases split_append he with ⟨after', hsplit⟩ | ⟨before', rfl, hsplit⟩
        · exact (h.proper before ev after' hsplit).imp_right fun ⟨wd, hp⟩ =>
            ⟨wd, hp.target, hp.isDir, hp.kind, hp.slot, hp.alive⟩
        · rcases hevents with ⟨wd, hw, rfl⟩ | ⟨-, rfl⟩
          · obtain ⟨rfl, rfl, -⟩ : before' = [] ∧ ev = dirEvent wd .create 0 n ∧ after = [] := by
              cases before' <;> simp_all
            obtain ⟨x, hx, hxwd, -⟩ := h.cached wd p l hw hp
            refine .inr ⟨wd, rfl, rfl, .inl (.inl rfl), ⟨x, hx, hxwd⟩, fun hd => ?_⟩
            rw [List.append_nil] at hd
            exact h.dying wd hd p hw
          · simp at hsplit
      cover := by
        intro j m hm hmon
        rcases hmem hm with hm | ⟨rfl, rfl⟩
        · exact (h.cover j m hm hmon).imp_right fun ⟨e, he, hd⟩ => ⟨e, he, hdue hd⟩
        · right
          have hmonl : monitored names l = true :=
            (monitored_of_above (above_child l n)).trans hmon
          rcases hevents with ⟨wd, hw, rfl⟩ | ⟨hnone, rfl⟩
          · refine ⟨l.child n, above_refl _, .event v.events _ [] rfl ⟨.inl rfl, ?_, ?_⟩⟩
            · exact ⟨l, p, wd, rfl, hold hp, hw, rfl⟩
            -- a slot with the new pathname is one of a directory that is gone
            · intro x hx wd' hxwd hpath
              rcases h.live x hx wd' hxwd with ⟨k, m, hw', hm', hpath'⟩ | ⟨hd, -⟩
              · obtain ⟨-, m', hm'', hmon'⟩ := h.inside wd' k hw'
                obtain rfl := h.trees.wf.places k m m' hm' hm''
                have := htrees.injective hapart hm (hold hm') hmon hmon' (hpath.symm.trans hpath')
                exact absurd (this ▸ hm') (hnew k)
              · exact hd
          · rcases h.cover p l hp hmonl with ⟨wd, hw⟩ | ⟨e, he, hd⟩
            · exact absurd hw (hnone wd)
            · exact ⟨e, he.trans (above_child l n), hdue hd⟩
      jobs := by
        intro j hj
        have hjob := h.jobs j hj
        cases j with
        | subtree path => trivial
        | visit path =>
          obtain ⟨k, m, hm, hrest⟩ := hjob
          exact ⟨k, m, hold hm, hrest⟩
        | watch path k =>
          obtain ⟨m, hm, hrest⟩ := hjob
          exact ⟨m, hold hm, hrest⟩
        | list path k =>
          obtain ⟨m, hm, hrest⟩ := hjob
          exact ⟨m, hold hm, hrest⟩ }

/-- The watch on the directory `i` ends, if there is one. -/
structure Vanishes (watches : List (ℕ × ℕ)) (i : ℕ) (watches' : List (ℕ × ℕ)) (gone : List Event) :
    Prop where
  left : ∀ wd j, (wd, j) ∈ watches' ↔ (wd, j) ∈ watches ∧ j ≠ i
  told : (∃ wd, (wd, i) ∈ watches ∧ gone = [dirEvent wd .deleteSelf 0 [], ignoredEvent wd]) ∨
    (∀ wd, (wd, i) ∉ watches) ∧ gone = []

section Vanish

variable {watches watches' : List (ℕ × ℕ)} {gone : List Event} {i wd : ℕ}

theorem Vanishes.dying_iff (h : Vanishes watches i watches' gone)
    (hone : ∀ wd wd' i, (wd, i) ∈ watches → (wd', i) ∈ watches → wd = wd') :
    Dying gone wd ↔ (wd, i) ∈ watches := by
  rcases h.told with ⟨wd', hw, rfl⟩ | ⟨hnone, rfl⟩
  · constructor
    · rintro ⟨ev, hev, hk, hwd⟩
      simp only [List.mem_cons, List.not_mem_nil, or_false] at hev
      rcases hev with rfl | rfl
      · cases hwd
        exact hw
      · cases hk
    · intro hw'
      exact ⟨_, List.mem_cons_self, rfl, by rw [hone wd wd' i hw' hw]; rfl⟩
  · exact ⟨fun hd => absurd hd not_dying_nil, fun hw => absurd hw (hnone wd)⟩

theorem Vanishes.proper (h : Vanishes watches i watches' gone) {v : View}
    {before after : List Event} {ev : Event} (he : gone = before ++ ev :: after)
    (hslot : ∀ wd, (wd, i) ∈ watches → ∃ x ∈ v.cache, x.wd = some wd)
    (halive : ∀ wd, (wd, i) ∈ watches → ¬ Dying v.events wd) :
    ev.kind = .ignored ∨ ∃ wd, Proper v (v.events ++ before) ev wd := by
  rcases h.told with ⟨wd, hw, hgone⟩ | ⟨-, hgone⟩
  · rw [hgone] at he
    cases before with
    | nil =>
      obtain ⟨rfl, -⟩ := List.cons.inj he
      rw [List.append_nil]
      exact .inr ⟨wd, rfl, rfl, .inr rfl, hslot wd hw, halive wd hw⟩
    | cons c before =>
      obtain ⟨-, he⟩ := List.cons.inj he
      cases before with
      | nil =>
        obtain ⟨rfl, -⟩ := List.cons.inj he
        exact .inl rfl
      | cons d before => simp at he
  · rw [hgone] at he
    simp at he

end Vanish

theorem TreesOK.rmdir {dirs : Dirs ℕ Path} (h : TreesOK names dirs) {l : Loc Path}
    (hrm : rmdir dirs l = some dirs') : TreesOK names dirs' := by
  obtain ⟨-, hc, -, hmem⟩ := rmdir_cases hrm
  refine ⟨h.wf.rmdir hrm, fun j m hm => h.free j m ((hmem j m).mp hm).1, fun t ht => ?_,
    fun j m hm => h.short j m ((hmem j m).mp hm).1⟩
  obtain ⟨r, hr⟩ := h.roots t ht
  refine ⟨r, (hmem r _).mpr ⟨hr, ?_⟩⟩
  rintro rfl
  exact hc rfl

theorem TreesOK.not_root {dirs : Dirs ℕ Path} (h : TreesOK names dirs) (hapart : RootsApart names)
    {i : ℕ} {l : Loc Path} (hl : (i, l) ∈ dirs) (hm : monitored names l = true)
    (hc : l.comps ≠ []) : pathOf names l ∉ names := by
  intro hmem
  obtain ⟨t, ht, he⟩ := List.getElem_of_mem hmem
  obtain ⟨r, hr⟩ := h.roots t ht
  have hroot : pathOf names ⟨t, []⟩ = pathOf names l := by
    rw [← he]
    simp [pathOf, List.getD_eq_getElem?_getD, ht]
  have := h.injective hapart hr hl (decide_eq_true ht) hm hroot
  exact hc (by rw [← this])

theorem Inv.rmdir (h : Inv names v) (hapart : RootsApart names) (hjobs : v.jobs = [])
    {l : Loc Path} {i : ℕ} {watches' : List (ℕ × ℕ)} {gone : List Event}
    (hrm : rmdir v.dirs l = some dirs') (hi : (i, l) ∈ v.dirs)
    (hvan : Vanishes v.watches i watches' gone) :
    Inv names { v with dirs := dirs', watches := watches', events := v.events ++ gone } := by
  obtain ⟨-, hc, hbare, hmem⟩ := rmdir_cases hrm
  have hplace {j : ℕ} {m : Loc Path} (hm : (j, m) ∈ v.dirs) : j ≠ i ↔ m ≠ l :=
    ⟨fun hne he => hne (h.trees.wf.ids j i l (he ▸ hm) hi),
      fun hne he => hne (h.trees.wf.places i m l (he ▸ hm) hi)⟩
  have hdying {wd : ℕ} : Dying gone wd ↔ (wd, i) ∈ v.watches := hvan.dying_iff h.one
  exact
    { trees := h.trees.rmdir hrm
      wds := fun wd j j' hw hw' =>
        h.wds wd j j' ((hvan.left wd j).mp hw).1 ((hvan.left wd j').mp hw').1
      one := fun wd wd' j hw hw' =>
        h.one wd wd' j ((hvan.left wd j).mp hw).1 ((hvan.left wd' j).mp hw').1
      inside := by
        intro wd j hw
        obtain ⟨hw, hne⟩ := (hvan.left wd j).mp hw
        obtain ⟨hlt, m, hm, hmon⟩ := h.inside wd j hw
        exact ⟨hlt, m, (hmem j m).mpr ⟨hm, (hplace hm).mp hne⟩, hmon⟩
      slots := h.slots
      used := h.used
      vacant := h.vacant
      cached := fun wd j m hw hm => h.cached wd j m ((hvan.left wd j).mp hw).1 ((hmem j m).mp hm).1
      live := by
        intro x hx wd hwd
        rcases h.live x hx wd hwd with ⟨j, m, hw, hm, hpath⟩ | ⟨hd, hroot⟩
        · by_cases hj : j = i
          · subst hj
            obtain ⟨-, m', hm', hmon⟩ := h.inside wd j hw
            obtain rfl := h.trees.wf.places j m m' hm hm'
            obtain rfl := h.trees.wf.places j m l hm hi
            exact .inr ⟨Dying.of_right (hdying.mpr hw), hpath ▸ h.trees.not_root hapart hm hmon hc⟩
          · exact .inl ⟨j, m, (hvan.left wd j).mpr ⟨hw, hj⟩, (hmem j m).mpr ⟨hm, (hplace hm).mp hj⟩,
              hpath⟩
        · exact .inr ⟨hd.append_left, hroot⟩
      dying := by
        intro wd hd j hw
        obtain ⟨hw, hne⟩ := (hvan.left wd j).mp hw
        rcases hd.of_append with hd | hd
        · exact h.dying wd hd j hw
        · exact hne (h.wds wd j i hw (hdying.mp hd))
      proper := by
        intro before ev after he
        rcases split_append he with ⟨after', hsplit⟩ | ⟨before', rfl, hsplit⟩
        · exact (h.proper before ev after' hsplit).imp_right fun ⟨wd, hp⟩ =>
            ⟨wd, hp.target, hp.isDir, hp.kind, hp.slot, hp.alive⟩
        · refine (hvan.proper (v := v) hsplit (fun wd hw => ?_) fun wd hw hd => ?_).imp_right
            fun ⟨wd, hp⟩ => ⟨wd, hp.target, hp.isDir, hp.kind, hp.slot, hp.alive⟩
          · obtain ⟨x, hx, hxwd, -⟩ := h.cached wd i l hw hi
            exact ⟨x, hx, hxwd⟩
          · exact h.dying wd hd i hw
      cover := by
        intro j m hm hmon
        obtain ⟨hm, hne⟩ := (hmem j m).mp hm
        rcases h.cover j m hm hmon with ⟨wd, hw⟩ | ⟨e, he, hdue⟩
        · exact .inl ⟨wd, (hvan.left wd j).mpr ⟨hw, (hplace hm).mpr hne⟩⟩
        · refine .inr ⟨e, he, ?_⟩
          cases hdue with
          | event before ev after hev hlead =>
            obtain ⟨q, k, wd, rfl, hq, hw, hwd⟩ := hlead.parent
            -- the parent has something below it and stays
            have hql : q ≠ l := by
              rintro rfl
              exact hne (hbare j m hm ((above_child q ev.name).trans he))
            refine .event before ev (after ++ gone) (by rw [hev, List.append_assoc, List.cons_append])
              ⟨hlead.arrival, ⟨q, k, wd, rfl, (hmem k q).mpr ⟨hq, hql⟩, ?_, hwd⟩, hlead.clear⟩
            exact (hvan.left wd k).mpr ⟨hw, (hplace hq).mpr hql⟩
          | job hjob => simp [JobLeads, hjobs] at hjob
      jobs := fun j hj => by rw [hjobs] at hj; cases hj }

end Change

end InotifyInvariant
