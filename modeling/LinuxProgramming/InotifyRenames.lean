import LinuxProgramming.InotifyInvariant

/-! # Renames and subtrees that leave

A rename is made when the monitor has caught up. Each kind of rename is followed by its own
events; the invariant holds of the view as it will be when these have been handled. -/
namespace InotifyRenames

open CStrings Pathnames DirectoryTrees Loc InotifyDtree InotifyInvariant

/-! ## Renames, when nothing is left to do -/

section Rename

variable {names : List Path} {v : View} {dirs' : Dirs ℕ Path} {src dst : Loc Path}

theorem TreesOK.rename {dirs : Dirs ℕ Path} (h : TreesOK names dirs)
    (hmv : rename dirs src dst = some dirs') (hn : slash ∉ nameOf dst)
    (hshort : ∀ i l, (i, l) ∈ dirs' → monitored names l = true →
      (pathOf names l).length < pathMax) : TreesOK names dirs' := by
  obtain ⟨⟨-, hsc⟩, ⟨hdc, ⟨p, hp⟩, hnot, -⟩, hmem⟩ := rename_cases hmv
  have hdst : Free slash dst.comps := by
    obtain ⟨c, hc⟩ := exists_child hdc
    have hname : nameOf dst = c := by rw [hc]; simp [nameOf, child]
    rw [hc]
    exact Free.child (h.free p _ hp) (hname ▸ hn)
  refine ⟨h.wf.rename hmv, fun j m hm => ?_, fun t ht => ?_, hshort⟩
  · obtain ⟨x, hx, -, rfl⟩ := (hmem j m).mp hm
    by_cases ha : Above src x
    · rw [move_of_above ha]
      intro c hc
      rcases List.mem_append.mp hc with hc | hc
      · exact hdst c hc
      · exact h.free j x hx c (List.mem_of_mem_drop hc)
    · rw [move_of_not_above ha]
      exact h.free j x hx
  · obtain ⟨r, hr⟩ := h.roots t ht
    refine ⟨r, (hmem r _).mpr ⟨⟨t, []⟩, hr, ?_, move_of_not_above fun ha => ?_⟩⟩
    · rintro rfl
      exact hdc rfl
    · exact hsc (List.prefix_nil.mp ha.2)

/-- The view when the monitor has caught up. -/
structure Settled (names : List Path) (v : View) : Prop where
  inv : Inv names v
  events : v.events = []
  jobs : v.jobs = []

theorem Settled.watched (h : Settled names v) {i : ℕ} {l : Loc Path} (hl : (i, l) ∈ v.dirs)
    (hm : monitored names l = true) : ∃ wd, (wd, i) ∈ v.watches := by
  obtain ⟨x, -, wd, -, hw, -⟩ := (h.inv.agrees h.events h.jobs).complete i l hl hm
  exact ⟨wd, hw⟩

theorem Settled.slot (h : Settled names v) {x : Watch} (hx : x ∈ v.cache) {wd : ℕ}
    (hwd : x.wd = some wd) :
    ∃ i l, (wd, i) ∈ v.watches ∧ (i, l) ∈ v.dirs ∧ monitored names l = true ∧
      x.path = pathOf names l :=
  (h.inv.agrees h.events h.jobs).slots x hx wd hwd

theorem Inv.not_watched (h : Inv names v) {wd i : ℕ} {l : Loc Path} (hl : (i, l) ∈ v.dirs)
    (hm : monitored names l = false) : (wd, i) ∉ v.watches := by
  intro hw
  obtain ⟨-, l', hl', hm'⟩ := h.inside wd i hw
  obtain rfl := h.trees.wf.places i l l' hl hl'
  rw [hm] at hm'
  cases hm'

/-- A settled view changes: the directories move, some watches end, and every slot of the cache is
handled by `f`. The slot of a watch that is left has to follow its directory. -/
structure Follows (names : List Path) (v : View) (dirs' : Dirs ℕ Path) (watches' : List (ℕ × ℕ))
    (f : Watch → Watch) : Prop where
  trees : TreesOK names dirs'
  fewer : ∀ wd i, (wd, i) ∈ watches' → (wd, i) ∈ v.watches
  wd : ∀ x wd, (f x).wd = some wd → x.wd = some wd
  vacant : ∀ x ∈ v.cache, (f x).wd = none → (f x).path = []
  slot : ∀ x ∈ v.cache, ∀ wd i l, x.wd = some wd → (wd, i) ∈ watches' → (i, l) ∈ v.dirs →
    monitored names l = true → x.path = pathOf names l →
    (f x).wd = some wd ∧ ∃ l', (i, l') ∈ dirs' ∧ monitored names l' = true ∧
      (f x).path = pathOf names l'

theorem Settled.follows_slot (h : Settled names v) {watches' : List (ℕ × ℕ)} {f : Watch → Watch}
    (hf : Follows names v dirs' watches' f) {wd i : ℕ} (hw : (wd, i) ∈ watches') :
    ∃ x ∈ v.cache, (f x).wd = some wd ∧ ∃ l', (i, l') ∈ dirs' ∧ monitored names l' = true ∧
      (f x).path = pathOf names l' := by
  obtain ⟨-, l, hl, hm⟩ := h.inv.inside wd i (hf.fewer wd i hw)
  obtain ⟨x, hx, hxwd, hp⟩ := h.inv.cached wd i l (hf.fewer wd i hw) hl
  exact ⟨x, hx, hf.slot x hx wd i l hxwd hw hl hm hp⟩

/-- The watches that end have to be announced, and what is not watched has to be due. -/
theorem Settled.follows (h : Settled names v) {watches' : List (ℕ × ℕ)} {f : Watch → Watch}
    (hf : Follows names v dirs' watches' f) {events : List Event}
    (hended : ∀ x ∈ v.cache, ∀ wd i l, (f x).wd = some wd → (wd, i) ∈ v.watches →
      (wd, i) ∉ watches' → (i, l) ∈ v.dirs → monitored names l = true → x.path = pathOf names l →
      Dying events wd ∧ (f x).path ∉ names)
    (hdying : ∀ wd, Dying events wd → ∀ i, (wd, i) ∉ watches')
    (hproper : ∀ before ev after, events = before ++ ev :: after → ev.kind = .ignored ∨
      ∃ wd, Proper ⟨dirs', watches', v.nextWd, v.cache.map f, events, []⟩ before ev wd)
    (hcover : ∀ i l, (i, l) ∈ dirs' → monitored names l = true → (∃ wd, (wd, i) ∈ watches') ∨
      ∃ e, Above e l ∧ Due names ⟨dirs', watches', v.nextWd, v.cache.map f, events, []⟩ e) :
    Inv names ⟨dirs', watches', v.nextWd, v.cache.map f, events, []⟩ where
  trees := hf.trees
  wds wd i i' hw hw' := h.inv.wds wd i i' (hf.fewer wd i hw) (hf.fewer wd i' hw')
  one wd wd' i hw hw' := h.inv.one wd wd' i (hf.fewer wd i hw) (hf.fewer wd' i hw')
  inside := by
    intro wd i hw
    obtain ⟨-, -, -, l', hl', hm', -⟩ := h.follows_slot hf hw
    exact ⟨(h.inv.inside wd i (hf.fewer wd i hw)).1, l', hl', hm'⟩
  slots := by
    intro j k x y wd hx hy hxwd hywd
    rw [List.getElem?_map] at hx hy
    obtain ⟨x', hx', rfl⟩ := Option.map_eq_some_iff.mp hx
    obtain ⟨y', hy', rfl⟩ := Option.map_eq_some_iff.mp hy
    exact h.inv.slots j k x' y' wd hx' hy' (hf.wd x' wd hxwd) (hf.wd y' wd hywd)
  used := by
    intro y hy wd hwd
    obtain ⟨x, hx, rfl⟩ := List.mem_map.mp hy
    exact h.inv.used x hx wd (hf.wd x wd hwd)
  vacant := by
    intro y hy hwd
    obtain ⟨x, hx, rfl⟩ := List.mem_map.mp hy
    exact hf.vacant x hx hwd
  cached := by
    intro wd i l hw hl
    obtain ⟨x, hx, hxwd, l', hl', -, hp⟩ := h.follows_slot hf hw
    obtain rfl := hf.trees.wf.places i l l' hl hl'
    exact ⟨f x, List.mem_map_of_mem hx, hxwd, hp⟩
  live := by
    intro y hy wd hwd
    obtain ⟨x, hx, rfl⟩ := List.mem_map.mp hy
    obtain ⟨i, l, hw, hl, hm, hp⟩ := h.slot hx (hf.wd x wd hwd)
    by_cases hw' : (wd, i) ∈ watches'
    · obtain ⟨-, l', hl', -, hp'⟩ := hf.slot x hx wd i l (hf.wd x wd hwd) hw' hl hm hp
      exact .inl ⟨i, l', hw', hl', hp'⟩
    · exact .inr (hended x hx wd i l hwd hw hw' hl hm hp)
  dying := hdying
  proper := hproper
  cover := hcover
  jobs := fun j hj => by cases hj

theorem Settled.follows_id (h : Settled names v) (htrees : TreesOK names dirs')
    (hstays : ∀ i l, (i, l) ∈ v.dirs → monitored names l = true → (i, l) ∈ dirs')
    {events : List Event} (halive : ∀ wd, ¬ Dying events wd)
    (hproper : ∀ before ev after, events = before ++ ev :: after → ev.kind = .ignored ∨
      ∃ wd, Proper { v with dirs := dirs', events := events } before ev wd)
    (hcover : ∀ i l, (i, l) ∈ dirs' → monitored names l = true → (∃ wd, (wd, i) ∈ v.watches) ∨
      ∃ e, Above e l ∧ Due names { v with dirs := dirs', events := events } e) :
    Inv names { v with dirs := dirs', events := events } := by
  have hview : ({ v with dirs := dirs', events := events } : View) =
      ⟨dirs', v.watches, v.nextWd, v.cache.map id, events, []⟩ := by
    rw [List.map_id, h.jobs]
  rw [hview] at hproper hcover ⊢
  exact h.follows
    { trees := htrees
      fewer := fun _ _ hw => hw
      wd := fun _ _ hwd => hwd
      vacant := h.inv.vacant
      slot := fun x _ wd i l hxwd _ hl hm hp => ⟨hxwd, l, hstays i l hl hm, hm, hp⟩ }
    (fun _ _ wd i _ _ hw hw' => absurd hw hw') (fun wd hd => absurd hd (halive wd)) hproper hcover

/-- What happens to a slot when `src` becomes `dst`. -/
def rewriteSlot (full new : Path) (w : Watch) : Watch :=
  if inSubtree slash full w.path then
    { w with path := snprintf pathMax (new ++ w.path.drop full.length) }
  else w

theorem rewriteSlot_wd (full new : Path) (w : Watch) : (rewriteSlot full new w).wd = w.wd := by
  unfold rewriteSlot
  split <;> rfl

theorem snprintf_eq {size : ℕ} {s : Path} (h : s.length < size) : snprintf size s = s :=
  List.take_of_length_le (by omega)

theorem rewriteCachedPaths_eq {cache : List Watch} {po sn pn dn full new : Path}
    (hfull : po ++ slash :: sn = full) (hnew : pn ++ slash :: dn = new)
    (hlf : full.length < pathMax) (hln : new.length < pathMax) :
    rewriteCachedPaths cache po sn pn dn = cache.map (rewriteSlot full new) := by
  simp only [rewriteCachedPaths, hfull, hnew, snprintf_eq hlf, snprintf_eq hln]
  rfl

/-- The pathname of a directory that moved, or stayed where it was, is rewritten to its new one. -/
theorem rewriteSlot_path (h : TreesOK names v.dirs) (h' : TreesOK names dirs')
    (hapart : RootsApart names) (hmv : rename v.dirs src dst = some dirs')
    (hs : monitored names src = true) (hd : monitored names dst = true) {x : Watch} {i : ℕ}
    {l : Loc Path} (hl : (i, l) ∈ v.dirs) (hm : monitored names l = true)
    (hx : x.path = pathOf names l) :
    (rewriteSlot (pathOf names src) (pathOf names dst) x).path = pathOf names (move src dst l) := by
  obtain ⟨⟨⟨s, hsrc⟩, -⟩, ⟨-, -, hnot, -⟩, hmem⟩ := rename_cases hmv
  have hin := inSubtree_pathOf hapart (h.free s src hsrc) (h.free i l hl) hs hm
  unfold rewriteSlot
  rw [hx]
  by_cases ha : Above src l
  · rw [if_pos (hin.mpr ha)]
    dsimp only
    rw [← pathOf_move ha]
    have hne : l ≠ dst := fun he => hnot (he ▸ ha)
    have hm' : monitored names (move src dst l) = true :=
      (monitored_of_above (above_move ha)).symm.trans hd
    exact snprintf_eq (h'.short i _ ((hmem i _).mpr ⟨l, hl, hne, rfl⟩) hm')
  · rw [if_neg fun h => ha (hin.mp h), hx, move_of_not_above ha]

/-- A vacant slot has the empty pathname, which is not below `src`. -/
theorem rewriteSlot_vacant (hc : src.comps ≠ []) {x : Watch} {new : Path} (hx : x.path = []) :
    (rewriteSlot (pathOf names src) new x).path = [] := by
  have hout : inSubtree slash (pathOf names src) x.path = false := by
    obtain ⟨c, hsrc⟩ := exists_child hc
    rw [hx, hsrc, pathOf_child]
    refine Bool.eq_false_iff.mpr fun hin => ?_
    rcases inSubtree_iff.mp hin with he | ⟨z, he⟩ <;> simp at he
  rw [rewriteSlot, hout]
  exact hx

/-- A directory moves within the trees. The view is the one after its two events have been
handled. -/
theorem Settled.within (h : Settled names v) (hapart : RootsApart names)
    (hmv : rename v.dirs src dst = some dirs') (htrees : TreesOK names dirs')
    (hs : monitored names src = true) (hd : monitored names dst = true)
    {watches' : List (ℕ × ℕ)} {gone : List Event}
    (hvan : (∃ r, (r, dst) ∈ v.dirs ∧ Vanishes v.watches r watches' gone) ∨
      (∀ r, (r, dst) ∉ v.dirs) ∧ watches' = v.watches ∧ gone = []) :
    Inv names
      ⟨dirs', watches', v.nextWd, v.cache.map (rewriteSlot (pathOf names src) (pathOf names dst)),
        gone, []⟩ := by
  obtain ⟨⟨-, hsc⟩, ⟨hdc, -, hnot, -⟩, hmem⟩ := rename_cases hmv
  have hi := h.inv
  -- a watch is left unless it is on the directory at `dst`
  have hleft (wd j : ℕ) : (wd, j) ∈ watches' ↔ (wd, j) ∈ v.watches ∧ (j, dst) ∉ v.dirs := by
    rcases hvan with ⟨r, hr, hvan⟩ | ⟨hnone, rfl, -⟩
    · rw [hvan.left]
      exact and_congr_right fun _ => ⟨fun hne hj => hne (hi.trees.wf.ids j r dst hj hr),
        fun hj he => hj (he ▸ hr)⟩
    · exact ⟨fun hw => ⟨hw, hnone j⟩, And.left⟩
  have hdying {wd : ℕ} : Dying gone wd ↔ ∃ j, (wd, j) ∈ v.watches ∧ (j, dst) ∈ v.dirs := by
    rcases hvan with ⟨r, hr, hvan⟩ | ⟨hnone, -, rfl⟩
    · rw [hvan.dying_iff hi.one]
      exact ⟨fun hw => ⟨r, hw, hr⟩, fun ⟨j, hw, hj⟩ => hi.trees.wf.ids j r dst hj hr ▸ hw⟩
    · exact ⟨fun hd => absurd hd not_dying_nil, fun ⟨j, _, hj⟩ => absurd hj (hnone j)⟩
  have hmon {l : Loc Path} (hm : monitored names (move src dst l) = true) :
      monitored names l = true := by
    by_cases ha : Above src l
    · exact (monitored_of_above ha).symm.trans hs
    · rwa [move_of_not_above ha] at hm
  have hmoved {l : Loc Path} (hm : monitored names l = true) :
      monitored names (move src dst l) = true := by
    by_cases ha : Above src l
    · exact (monitored_of_above (above_move ha)).symm.trans hd
    · rwa [move_of_not_above ha]
  have hpath {x : Watch} {i : ℕ} {l : Loc Path} (hl : (i, l) ∈ v.dirs)
      (hm : monitored names l = true) (hx : x.path = pathOf names l) :=
    rewriteSlot_path hi.trees htrees hapart hmv hs hd hl hm hx
  refine h.follows
    { trees := htrees
      fewer := fun wd j hw => ((hleft wd j).mp hw).1
      wd := fun x wd hwd => (rewriteSlot_wd ..).symm.trans hwd
      vacant := fun x hx hwd =>
        rewriteSlot_vacant hsc (hi.vacant x hx ((rewriteSlot_wd ..).symm.trans hwd))
      slot := ?_ } ?_ ?_ ?_ ?_
  · intro x hx wd j l hxwd hw hl hm hp
    refine ⟨(rewriteSlot_wd ..).trans hxwd, move src dst l, (hmem j _).mpr ⟨l, hl, ?_, rfl⟩,
      hmoved hm, hpath hl hm hp⟩
    rintro rfl
    exact ((hleft wd j).mp hw).2 hl
  · intro x hx wd j l hxwd hw hw' hl hm hp
    -- the watch that ended was on the directory at `dst`
    have hjd : (j, dst) ∈ v.dirs := by
      by_contra hjd
      exact hw' ((hleft wd j).mpr ⟨hw, hjd⟩)
    obtain rfl := hi.trees.wf.places j l dst hl hjd
    refine ⟨hdying.mpr ⟨j, hw, hl⟩, ?_⟩
    rw [hpath hl hm hp, move_of_not_above hnot]
    exact hi.trees.not_root hapart hl hm hdc
  · intro wd hd j hw
    obtain ⟨hw, hne⟩ := (hleft wd j).mp hw
    obtain ⟨k, hk, hkd⟩ := hdying.mp hd
    exact hne (hi.wds wd j k hw hk ▸ hkd)
  · intro before ev after he
    rcases hvan with ⟨r, hr, hvan⟩ | ⟨-, -, rfl⟩
    · refine (hvan.proper (v := ⟨dirs', watches', v.nextWd,
        v.cache.map (rewriteSlot (pathOf names src) (pathOf names dst)), [], []⟩) he
        (fun wd hw => ?_) fun wd _ => not_dying_nil).imp_right
        fun ⟨wd, hp⟩ => ⟨wd, hp.target, hp.isDir, hp.kind, hp.slot, hp.alive⟩
      obtain ⟨x, hx, hxwd, -⟩ := hi.cached wd r dst hw hr
      exact ⟨_, List.mem_map_of_mem hx, (rewriteSlot_wd ..).trans hxwd⟩
    · simp at he
  · intro i l' hl' hm'
    obtain ⟨l, hl, hne, rfl⟩ := (hmem i l').mp hl'
    obtain ⟨wd, hw⟩ := h.watched hl (hmon hm')
    exact .inl ⟨wd, (hleft wd i).mpr ⟨hw, fun hj => hne (hi.trees.wf.places i l dst hl hj)⟩⟩

/-! ### Out of the trees and into them -/

def clearSlot (path : Path) (w : Watch) : Watch :=
  if w.wd ≠ none ∧ inSubtree slash path w.path = true then emptySlot else w

theorem clearSlot_live {path : Path} {w : Watch} {wd : ℕ} (h : (clearSlot path w).wd = some wd) :
    clearSlot path w = w ∧ inSubtree slash path w.path = false := by
  unfold clearSlot at h ⊢
  split at h
  · cases h
  · rename_i hnot
    refine ⟨if_neg hnot, Bool.eq_false_iff.mpr fun hin => hnot ⟨by simp [h], hin⟩⟩

theorem clearSlot_vacant {path : Path} {w : Watch} (h : w.wd = none → w.path = [])
    (hwd : (clearSlot path w).wd = none) : (clearSlot path w).path = [] := by
  unfold clearSlot at hwd ⊢
  split
  · rfl
  · rename_i hnot
    rw [if_neg hnot] at hwd
    exact h hwd

def InZap (path : Path) (cache : List Watch) (wd : ℕ) : Prop :=
  ∃ x ∈ cache, x.wd = some wd ∧ inSubtree slash path x.path = true

/-- The watches in the subtree of `src` are those on directories below it. -/
theorem Settled.inZap_iff (h : Settled names v) (hapart : RootsApart names) {s i wd : ℕ}
    {l : Loc Path} (hsrc : (s, src) ∈ v.dirs) (hs : monitored names src = true)
    (hw : (wd, i) ∈ v.watches) (hl : (i, l) ∈ v.dirs) :
    InZap (pathOf names src) v.cache wd ↔ Above src l := by
  obtain ⟨-, m, hm, hmon⟩ := h.inv.inside wd i hw
  obtain rfl := h.inv.trees.wf.places i l m hl hm
  have hin := inSubtree_pathOf hapart (h.inv.trees.free s src hsrc) (h.inv.trees.free i l hl) hs hmon
  constructor
  · rintro ⟨x, hx, hxwd, hsub⟩
    obtain ⟨i', l', hw', hl', -, hp⟩ := h.slot hx hxwd
    obtain rfl := h.inv.wds wd i i' hw hw'
    obtain rfl := h.inv.trees.wf.places i l l' hl hl'
    exact hin.mp (hp ▸ hsub)
  · intro ha
    obtain ⟨x, hx, hxwd, hp⟩ := h.inv.cached wd i l hw hl
    exact ⟨x, hx, hxwd, hp ▸ hin.mpr ha⟩

/-- A directory leaves the trees. The view is the one after its subtree has been zapped. -/
theorem Settled.out (h : Settled names v) (hapart : RootsApart names)
    (hmv : rename v.dirs src dst = some dirs') (htrees : TreesOK names dirs')
    (hs : monitored names src = true) (hd : monitored names dst = false)
    {watches' : List (ℕ × ℕ)}
    (hleft : ∀ wd i, (wd, i) ∈ watches' ↔
      (wd, i) ∈ v.watches ∧ ¬ InZap (pathOf names src) v.cache wd) :
    Inv names
      ⟨dirs', watches', v.nextWd, v.cache.map (clearSlot (pathOf names src)), [], []⟩ := by
  obtain ⟨⟨⟨s, hsrc⟩, -⟩, -, hmem⟩ := rename_cases hmv
  have hi := h.inv
  have hstays {i : ℕ} {l : Loc Path} (hl : (i, l) ∈ v.dirs) (hm : monitored names l = true)
      (ha : ¬ Above src l) : (i, l) ∈ dirs' := by
    refine (hmem i l).mpr ⟨l, hl, ?_, move_of_not_above ha⟩
    rintro rfl
    rw [hd] at hm
    cases hm
  have hwas {i : ℕ} {l : Loc Path} (hl : (i, l) ∈ dirs') (hm : monitored names l = true) :
      (i, l) ∈ v.dirs ∧ ¬ Above src l := by
    obtain ⟨l0, hl0, -, rfl⟩ := (hmem i l).mp hl
    by_cases ha : Above src l0
    · rw [← monitored_of_above (above_move ha), hd] at hm
      cases hm
    · rw [move_of_not_above ha]
      exact ⟨hl0, ha⟩
  have hzap {wd i : ℕ} {l : Loc Path} (hw : (wd, i) ∈ v.watches) (hl : (i, l) ∈ v.dirs) :=
    h.inZap_iff hapart hsrc hs hw hl
  refine h.follows
    { trees := htrees
      fewer := fun wd j hw => ((hleft wd j).mp hw).1
      wd := fun x wd hwd => (congrArg Watch.wd (clearSlot_live hwd).1).symm.trans hwd
      vacant := fun x hx => clearSlot_vacant (hi.vacant x hx)
      slot := ?_ } ?_ (fun wd hd => absurd hd not_dying_nil) (fun before ev after he => by simp at he) ?_
  · intro x hx wd j l hxwd hw hl hm hp
    obtain ⟨hw, hnz⟩ := (hleft wd j).mp hw
    have hkeep : clearSlot (pathOf names src) x = x :=
      if_neg fun hz => hnz ⟨x, hx, hxwd, hz.2⟩
    rw [hkeep]
    exact ⟨hxwd, l, hstays hl hm fun ha => hnz ((hzap hw hl).mpr ha), hm, hp⟩
  · intro x hx wd j l hxwd hw hw' hl hm hp
    -- a slot that is left is outside the subtree, and so is its directory
    have hin := inSubtree_pathOf hapart (hi.trees.free s src hsrc) (hi.trees.free j l hl) hs hm
    have hna : ¬ Above src l := by
      rw [← hin, ← hp, (clearSlot_live hxwd).2]
      exact Bool.false_ne_true
    exact absurd ((hleft wd j).mpr ⟨hw, fun hz => hna ((hzap hw hl).mp hz)⟩) hw'
  · intro i l hl hm
    obtain ⟨hl, hna⟩ := hwas hl hm
    obtain ⟨wd, hw⟩ := h.watched hl hm
    exact .inl ⟨wd, (hleft wd i).mpr ⟨hw, fun hz => hna ((hzap hw hl).mp hz)⟩⟩

/-- What lies in the trees stays where it was when `src` is outside and `dst` is not taken. -/
theorem stays_in_trees {dirs : Dirs ℕ Path} (hmv : rename dirs src dst = some dirs')
    (hs : monitored names src = false) {i : ℕ} {l : Loc Path} (hl : (i, l) ∈ dirs)
    (hm : monitored names l = true) (hne : l ≠ dst) : (i, l) ∈ dirs' := by
  refine ((rename_cases hmv).2.2 i l).mpr ⟨l, hl, hne, move_of_not_above fun ha => ?_⟩
  rw [← monitored_of_above ha, hs] at hm
  cases hm

/-- A directory comes into the trees, at a name that was not in use. -/
theorem Settled.into (h : Settled names v) (hapart : RootsApart names)
    (hmv : rename v.dirs src dst = some dirs') (htrees : TreesOK names dirs')
    (hs : monitored names src = false) (hd : monitored names dst = true)
    (hnone : ∀ j, (j, dst) ∉ v.dirs) {p wd cookie : ℕ} (hp : (p, dst.parent) ∈ v.dirs)
    (hwd : (wd, p) ∈ v.watches) :
    Inv names { v with dirs := dirs', events := [dirEvent wd .movedTo cookie (nameOf dst)] } := by
  obtain ⟨⟨⟨s, hsrc⟩, -⟩, ⟨hdc, -, hnot, -⟩, hmem⟩ := rename_cases hmv
  have hstays {i : ℕ} {l : Loc Path} (hl : (i, l) ∈ v.dirs) (hm : monitored names l = true) :
      (i, l) ∈ dirs' :=
    stays_in_trees hmv hs hl hm fun he => hnone i (he ▸ hl)
  have hchild : dst = dst.parent.child (nameOf dst) := by
    obtain ⟨c, hc⟩ := exists_child hdc
    have : nameOf dst = c := by rw [hc]; simp [nameOf, child]
    rw [this]
    exact hc
  have hparent : monitored names dst.parent = true := by
    rw [monitored_of_above (above_child dst.parent (nameOf dst)), ← hchild]
    exact hd
  have hnew : (s, dst) ∈ dirs' :=
    (hmem s dst).mpr ⟨src, hsrc, fun he => hnot (he ▸ above_refl src), move_self src dst⟩
  refine h.follows_id htrees (fun i l hl hm => hstays hl hm) ?_ ?_ ?_
  · rintro wd' ⟨ev, hev, hk, -⟩
    rw [List.mem_singleton.mp hev] at hk
    cases hk
  · intro before ev after he
    obtain ⟨rfl, rfl⟩ : before = [] ∧ dirEvent wd .movedTo cookie (nameOf dst) = ev := by
      cases before with
      | nil => exact ⟨rfl, (List.cons.inj he).1⟩
      | cons c before => simp at he
    obtain ⟨x, hx, hxwd, -⟩ := h.inv.cached wd p _ hwd hp
    exact .inr ⟨wd, rfl, rfl, .inl (.inr rfl), ⟨x, hx, hxwd⟩, not_dying_nil⟩
  · intro i l hl hm
    obtain ⟨l0, hl0, hne, rfl⟩ := (hmem i l).mp hl
    by_cases ha : Above src l0
    · refine .inr ⟨dst, above_move ha, .event [] _ [] rfl ⟨.inr rfl, ?_, ?_⟩⟩
      · exact ⟨dst.parent, p, wd, hchild, hstays hp hparent, hwd, rfl⟩
      · intro x hx wd' hxwd hpath
        obtain ⟨j, m, -, hm', hmon', hpath'⟩ := h.slot hx hxwd
        have := htrees.injective hapart hnew (hstays hm' hmon') hd hmon' (hpath.symm.trans hpath')
        exact absurd (this ▸ hm') (hnone j)
    · rw [move_of_not_above ha] at hm
      exact .inl (h.watched hl0 hm)

theorem Settled.elsewhere (h : Settled names v) (hmv : rename v.dirs src dst = some dirs')
    (htrees : TreesOK names dirs') (hs : monitored names src = false)
    (hd : monitored names dst = false) : Inv names { v with dirs := dirs' } := by
  obtain ⟨-, -, hmem⟩ := rename_cases hmv
  have hstays {i : ℕ} {l : Loc Path} (hl : (i, l) ∈ v.dirs) (hm : monitored names l = true) :
      (i, l) ∈ dirs' := by
    refine stays_in_trees hmv hs hl hm ?_
    rintro rfl
    rw [hd] at hm
    cases hm
  have hwas {i : ℕ} {l : Loc Path} (hl : (i, l) ∈ dirs') (hm : monitored names l = true) :
      (i, l) ∈ v.dirs := by
    obtain ⟨l0, hl0, -, rfl⟩ := (hmem i l).mp hl
    by_cases ha : Above src l0
    · rw [← monitored_of_above (above_move ha), hd] at hm
      cases hm
    · rwa [move_of_not_above ha]
  have hview : ({ v with dirs := dirs' } : View) = { v with dirs := dirs', events := [] } := by
    rw [h.events]
  rw [hview]
  exact h.follows_id htrees (fun i l hl hm => hstays hl hm) (fun wd => not_dying_nil)
    (fun before ev after he => by simp at he)
    (fun i l hl hm => .inl (h.watched (hwas hl hm) hm))

end Rename

/-! ## Zapping a subtree -/

structure ZapOK (path : Path) (cache : List Watch) (watches : List (ℕ × ℕ)) (z : Zapped) : Prop where
  ok : z.ok = true
  cleared : z.cache = cache.map (clearSlot path)
  left : ∀ wd i, (wd, i) ∈ z.watches ↔ (wd, i) ∈ watches ∧ ¬ InZap path cache wd
  told : ∀ ev ∈ z.events, ev.kind = .ignored

/-- Every slot has a watch of its own, so every watch can be removed. -/
theorem zapSubtree_ok (path : Path) (cache : List Watch) (watches : List (ℕ × ℕ))
    (hslots : ∀ (j k : ℕ) (x y : Watch) (wd : ℕ), cache[j]? = some x → cache[k]? = some y →
      x.wd = some wd → y.wd = some wd → j = k)
    (hwatch : ∀ wd, InZap path cache wd → ∃ i, (wd, i) ∈ watches) :
    ZapOK path cache watches (zapSubtree path cache watches) := by
  induction cache generalizing watches with
  | nil => exact ⟨rfl, rfl, fun wd i => by simp [InZap, zapSubtree], fun ev hev => by cases hev⟩
  | cons w cache ih =>
    have hslots' : ∀ (j k : ℕ) (x y : Watch) (wd : ℕ), cache[j]? = some x → cache[k]? = some y →
        x.wd = some wd → y.wd = some wd → j = k := by
      intro j k x y wd hx hy hxwd hywd
      have := hslots (j + 1) (k + 1) x y wd hx hy hxwd hywd
      omega
    have htail {wd : ℕ} (hz : InZap path cache wd) : InZap path (w :: cache) wd := by
      obtain ⟨x, hx, hrest⟩ := hz
      exact ⟨x, List.mem_cons_of_mem _ hx, hrest⟩
    -- the slots after this one when nothing is done for it
    have hskip (hno : ¬ (w.wd ≠ none ∧ inSubtree slash path w.path = true))
        {wd : ℕ} : InZap path (w :: cache) wd ↔ InZap path cache wd := by
      refine ⟨?_, htail⟩
      rintro ⟨x, hx, hxwd, hin⟩
      rcases List.mem_cons.mp hx with rfl | hx
      · exact absurd ⟨by simp [hxwd], hin⟩ hno
      · exact ⟨x, hx, hxwd, hin⟩
    have hkept (hno : ¬ (w.wd ≠ none ∧ inSubtree slash path w.path = true)) :
        ZapOK path (w :: cache) watches
          { zapSubtree path cache watches with cache := w :: (zapSubtree path cache watches).cache } := by
      have hz := ih watches hslots' fun wd hz => hwatch wd (htail hz)
      refine ⟨hz.ok, ?_, fun wd i => ?_, hz.told⟩
      · rw [List.map_cons, clearSlot, if_neg hno, hz.cleared]
      · rw [hskip hno]
        exact hz.left wd i
    cases hwd : w.wd with
    | none =>
      simp only [zapSubtree, hwd]
      exact hkept (by simp [hwd])
    | some wd =>
      by_cases hin : inSubtree slash path w.path = true
      · have hw : InZap path (w :: cache) wd := ⟨w, List.mem_cons_self, hwd, hin⟩
        obtain ⟨i, hi⟩ := hwatch wd hw
        have hany : watches.any (fun x => x.1 = wd) = true :=
          List.any_eq_true.mpr ⟨(wd, i), hi, by simp⟩
        have hfirst {wd' : ℕ} (hz : InZap path cache wd') : wd' ≠ wd := by
          rintro rfl
          obtain ⟨x, hx, hxwd, -⟩ := hz
          obtain ⟨k, hk⟩ := List.mem_iff_getElem?.mp hx
          have := hslots 0 (k + 1) w x wd' rfl hk hwd hxwd
          omega
        have hz := ih (watches.filter fun x => x.1 ≠ wd) hslots' fun wd' hz => by
          obtain ⟨i', hi'⟩ := hwatch wd' (htail hz)
          exact ⟨i', List.mem_filter.mpr ⟨hi', by simpa using hfirst hz⟩⟩
        simp only [zapSubtree, hwd, hin, hany, if_true]
        refine ⟨hz.ok, ?_, fun wd' i' => ?_, fun ev hev => ?_⟩
        · rw [List.map_cons, clearSlot, if_pos ⟨by simp [hwd], hin⟩, hz.cleared]
        · rw [hz.left]
          simp only [List.mem_filter, decide_eq_true_eq]
          constructor
          · rintro ⟨⟨hm, hne⟩, hnz⟩
            refine ⟨hm, ?_⟩
            rintro ⟨x, hx, hxwd, hxin⟩
            rcases List.mem_cons.mp hx with rfl | hx
            · rw [hwd, Option.some.injEq] at hxwd
              exact hne hxwd.symm
            · exact hnz ⟨x, hx, hxwd, hxin⟩
          · rintro ⟨hm, hnz⟩
            refine ⟨⟨hm, ?_⟩, fun hz => hnz (htail hz)⟩
            rintro rfl
            exact hnz hw
        · rcases List.mem_cons.mp hev with rfl | hev
          · rfl
          · exact hz.told ev hev
      · have hno : ¬ (w.wd ≠ none ∧ inSubtree slash path w.path = true) := fun h => hin h.2
        simp only [zapSubtree, hwd, hin]
        exact hkept hno

end InotifyRenames
