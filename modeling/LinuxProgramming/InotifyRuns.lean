import Mathlib.Algebra.Order.BigOperators.Group.List
import Mathlib.Algebra.Order.Ring.Nat
import Mathlib.Data.Prod.Lex
import LinuxProgramming.InotifyChanges
import LinuxProgramming.InotifyWalk

/-! # The monitor at work

Each step of the monitor keeps the invariant and brings the end nearer: there are fewer events
that ask for something, or less is left of the walk, or else fewer events at all. -/
namespace InotifyRuns

open CStrings Pathnames DirectoryTrees Loc Interleaving InotifyDtree InotifyInvariant InotifyRenames
  InotifyWalk InotifyChanges

/-! ## What is left to do -/

/-- How much there is in a directory whose pathname has room for `k` more characters, when
there are `n` directories. -/
def below (n : ℕ) : ℕ → ℕ
  | 0 => 1
  | k + 1 => n * (below n k + 2) + 1

def weight (n : ℕ) : Job → ℕ
  | .subtree path | .visit path => below n (pathMax - path.length) + 2
  | .watch path _ => below n (pathMax - path.length) + 1
  | .list path _ => below n (pathMax - path.length)

def asks (ev : Event) : Bool := ev.kind ≠ .ignored

def turn (s : State) : ℕ :=
  match s.pc with
  | .walk _ => 5
  | .read => 4
  | .next => if s.firstTry then 3 else 1
  | .reread => 2
  | .exited => 0

def work (s : State) : ℕ ×ₗ ℕ ×ₗ ℕ :=
  toLex ((s.buf ++ s.queue).countP asks, toLex (((jobsOf s.pc).map (weight s.dirs.length)).sum,
    6 * (s.buf ++ s.queue).length + turn s))

section Work

variable {s t : State}

theorem work_lt_of_asks (h : (t.buf ++ t.queue).countP asks < (s.buf ++ s.queue).countP asks) :
    work t < work s :=
  Prod.Lex.toLex_lt_toLex.mpr (.inl h)

theorem work_lt_of_jobs (he : t.buf ++ t.queue = s.buf ++ s.queue)
    (h : ((jobsOf t.pc).map (weight t.dirs.length)).sum <
      ((jobsOf s.pc).map (weight s.dirs.length)).sum) : work t < work s := by
  refine Prod.Lex.toLex_lt_toLex.mpr (.inr ⟨?_, Prod.Lex.toLex_lt_toLex.mpr (.inl h)⟩)
  dsimp only
  rw [he]

theorem work_lt_of_turn (hasks : (t.buf ++ t.queue).countP asks = (s.buf ++ s.queue).countP asks)
    (hs : jobsOf s.pc = []) (ht : jobsOf t.pc = [])
    (h : 6 * (t.buf ++ t.queue).length + turn t < 6 * (s.buf ++ s.queue).length + turn s) :
    work t < work s := by
  refine Prod.Lex.toLex_lt_toLex.mpr (.inr ⟨hasks, Prod.Lex.toLex_lt_toLex.mpr (.inr ⟨?_, h⟩)⟩)
  dsimp only
  rw [hs, ht]
  rfl

theorem below_mono {n k k' : ℕ} (h : k ≤ k') : below n k ≤ below n k' := by
  have hstep (k : ℕ) : below n k ≤ below n (k + 1) := by
    induction k with
    | zero => simp [below]
    | succ k ih =>
      have := Nat.mul_le_mul_left n (Nat.add_le_add_right ih 2)
      simp only [below] at this ⊢
      omega
  exact monotone_nat_of_le_succ hstep h

theorem length_entries_le (dirs : Dirs ℕ Path) (i : ℕ) : (entries dirs i).length ≤ dirs.length :=
  List.length_filterMap_le _ _

theorem sum_entries_lt {dirs : Dirs ℕ Path} {path : Path} (i : ℕ) (hshort : path.length < pathMax) :
    (((entries dirs i).map fun n => Job.visit (path ++ slash :: n)).map (weight dirs.length)).sum <
      weight dirs.length (.list path i) := by
  obtain ⟨k, hk⟩ : ∃ k, pathMax - path.length = k + 1 := ⟨pathMax - path.length - 1, by omega⟩
  have hone : ∀ w ∈ ((entries dirs i).map fun n => Job.visit (path ++ slash :: n)).map
      (weight dirs.length), w ≤ below dirs.length k + 2 := by
    intro w hw
    simp only [List.map_map, List.mem_map, Function.comp_apply] at hw
    obtain ⟨n, -, rfl⟩ := hw
    refine Nat.add_le_add_right (below_mono ?_) 2
    simp only [List.length_append, List.length_cons]
    omega
  calc _ ≤ (entries dirs i).length * (below dirs.length k + 2) := by
        simpa using List.sum_le_card_nsmul _ _ hone
    _ ≤ dirs.length * (below dirs.length k + 2) :=
        Nat.mul_le_mul_right _ (length_entries_le dirs i)
    _ < weight dirs.length (.list path i) := by
        rw [weight, hk, below]
        exact Nat.lt_succ_self _

end Work

/-! ## One step of the monitor -/

structure Advances (names : List Path) (s t : State) : Prop where
  phase : Phase names t
  roots : t.rootDirPaths = s.rootDirPaths
  less : work t < work s

section Steps

variable {names : List Path} {s t : State} {ev : Event} {rest : List Event}

theorem reading_consume (s : State) (rest : List Event) : Reading (s.consume rest) := by
  cases rest with
  | nil => exact .inl ⟨rfl, rfl⟩
  | cons ev rest => exact .inr ⟨rfl, List.cons_ne_nil _ _⟩

theorem view_consume (s : State) (rest : List Event) :
    view (s.consume rest) = ⟨s.dirs, s.watches, s.nextWd, s.cache, rest ++ s.queue, []⟩ := by
  cases rest <;> rfl

theorem advances_consume (hb : s.buf ++ s.queue = ev :: (rest ++ s.queue)) (hk : asks ev = true)
    {u : State} (hq : u.queue = s.queue) (hroots : u.rootDirPaths = s.rootDirPaths)
    (hinv : Inv names ⟨u.dirs, u.watches, u.nextWd, u.cache, rest ++ s.queue, []⟩) :
    Advances names s (u.consume rest) := by
  refine ⟨.plain ?_ (.inl (reading_consume u rest)), hroots, work_lt_of_asks ?_⟩
  · rw [view_consume, hq]
    exact hinv
  · change (rest ++ u.queue).countP asks < _
    rw [hb, hq, List.countP_cons_of_pos hk]
    exact Nat.lt_succ_self _

theorem advances_read (h : Phase names s) {k : ℕ} (ht : next names s (.read k) = some t) :
    Advances names s t := by
  simp only [next] at ht
  split at ht
  case isFalse => cases ht
  rename_i hg
  obtain ⟨hpc, h0, hk⟩ := hg
  obtain rfl := Option.some.inj ht
  have hb : s.buf = [] := by simpa [hpc] using h.pc_cases
  have hev : s.queue.take k ++ s.queue.drop k = s.buf ++ s.queue := by
    rw [List.take_append_drop, hb, List.nil_append]
  refine ⟨h.rebuffer hev ?_ (by rw [hpc]; rfl) nofun, rfl, work_lt_of_turn ?_ (by rw [hpc]; rfl) rfl ?_⟩
  · rw [← List.length_pos_iff, List.length_take]
    omega
  · dsimp only
    rw [hev]
  · dsimp only
    rw [hev]
    simp [turn, hpc]

theorem advances_reread (h : Phase names s) {k : ℕ} (ht : next names s (.reread k) = some t) :
    Advances names s t := by
  simp only [next] at ht
  split at ht
  case isFalse => cases ht
  rename_i hg
  obtain ⟨hpc, hk, hsome⟩ := hg
  obtain rfl := Option.some.inj ht
  have hlen : s.buf.length = 1 := by simpa [hpc] using h.pc_cases
  have hev : (s.buf ++ s.queue.take k) ++ s.queue.drop k = s.buf ++ s.queue := by
    rw [List.append_assoc, List.take_append_drop]
  refine ⟨h.rebuffer hev ?_ (by rw [hpc]; rfl) fun _ => ⟨hlen, fun hq => ?_⟩, rfl,
    work_lt_of_turn ?_ (by rw [hpc]; rfl) rfl ?_⟩
  · intro hnil
    have := congrArg List.length hnil
    simp [hlen] at this
  · have := hsome.resolve_right hq
    rw [List.length_append, List.length_take, hlen]
    omega
  · dsimp only
    rw [hev]
  · dsimp only
    rw [hev]
    simp [turn, hpc]

theorem turn_consume_le (s : State) (rest : List Event) : turn (s.consume rest) ≤ 4 := by
  cases rest <;> simp [turn, State.consume, State.resume]

/-- A directory was made or came in: its subtree is walked unless it is known already. -/
theorem advances_arrival (hb : s.buf = ev :: rest) {wd j : ℕ} {x : Watch}
    (hinv : Inv names ⟨s.dirs, s.watches, s.nextWd, s.cache, ev :: (rest ++ s.queue), []⟩)
    (hwd : ev.wd = some wd) (harr : Arrival ev) (hdir : ev.isDir = true)
    (hslot : s.cache[j]? = some x) (hxwd : x.wd = some wd) :
    Advances names s (handleEvent s ev rest j x.path) := by
  have hev : s.buf ++ s.queue = ev :: (rest ++ s.queue) := by rw [hb, List.cons_append]
  have hasks : asks ev = true := by rcases harr with hk | hk <;> simp [asks, hk]
  have hself : ev.kind ≠ .deleteSelf := by rcases harr with hk | hk <;> simp [hk]
  set full := snprintf (pathMax + nameMax) (x.path ++ slash :: ev.name) with hfull
  have hstep : handleEvent s ev rest j x.path =
      if pathnameInCache s.cache full then s.consume rest else watchSubtree (s.consume rest) full := by
    rcases harr with hk | hk <;> simp only [handleEvent, hk, hdir, if_true, hfull]
  -- the directory that the event leads to has the pathname that is put together here
  have hpath {k : ℕ} {e : Loc Path} (he : (k, e) ∈ s.dirs) (hm : monitored names e = true)
      (hlead : Leads names ⟨s.dirs, s.watches, s.nextWd, s.cache, ev :: (rest ++ s.queue), []⟩ [] ev e) :
      full = pathOf names e := by
    obtain ⟨p, i, wd', rfl, hp, hw, hwd'⟩ := hlead.parent
    obtain rfl : wd = wd' := by simpa [hwd] using hwd'
    obtain ⟨y, hy, hywd, hyp⟩ := hinv.cached wd i p hw hp
    obtain ⟨k', hk'⟩ := List.mem_iff_getElem?.mp hy
    obtain rfl := hinv.slots j k' x y wd hslot hk' hxwd hywd
    obtain rfl : x = y := Option.some.inj (hslot.symm.trans hk')
    have hshort := hinv.trees.short k _ he hm
    rw [pathOf_child] at hshort ⊢
    rw [hfull, hyp]
    exact snprintf_eq (Nat.lt_of_lt_of_le hshort (Nat.le_add_right _ _))
  rw [hstep]
  split
  · rename_i hcache
    refine advances_consume hev hasks rfl rfl ?_
    refine hinv.pop (v := ⟨s.dirs, s.watches, s.nextWd, s.cache, [], []⟩) hself (fun _ hj => hj) nofun
      fun k e he hm hlead => ?_
    obtain ⟨y, hy, hyp⟩ := List.any_eq_true.mp hcache
    simp only [Bool.and_eq_true, decide_eq_true_eq] at hyp
    obtain ⟨wd', hywd⟩ := Option.ne_none_iff_exists'.mp hyp.1
    exact absurd (hlead.clear y hy wd' hywd (hyp.2.trans (hpath he hm hlead))) not_dying_nil
  · have hinv' : Inv names
        ⟨s.dirs, s.watches, s.nextWd, s.cache, rest ++ s.queue, [.subtree full]⟩ := by
      refine hinv.pop (v := ⟨s.dirs, s.watches, s.nextWd, s.cache, [], []⟩) hself nofun
        (fun j hj => ?_) fun k e he hm hlead => .inl ?_
      · rw [List.mem_singleton.mp hj]
        trivial
      · rw [hpath he hm hlead]
        exact List.mem_singleton_self _
    refine ⟨.plain hinv' (.inr ⟨_, rfl⟩), rfl, work_lt_of_asks ?_⟩
    change (rest ++ s.queue).countP asks < _
    rw [hev, List.countP_cons_of_pos hasks]
    exact Nat.lt_succ_self _

/-- A directory is gone: its slot is cleared. No root is ever removed. -/
theorem advances_deleteSelf (hroots : s.rootDirPaths = names.map some) (hb : s.buf = ev :: rest)
    {wd j : ℕ} {x : Watch}
    (hinv : Inv names ⟨s.dirs, s.watches, s.nextWd, s.cache, ev :: (rest ++ s.queue), []⟩)
    (hwd : ev.wd = some wd) (hk : ev.kind = .deleteSelf) (hj : findWatch s.cache wd = some j)
    (hx : x ∈ s.cache) (hxwd : x.wd = some wd) :
    Advances names s (handleEvent s ev rest j x.path) := by
  have hev : s.buf ++ s.queue = ev :: (rest ++ s.queue) := by rw [hb, List.cons_append]
  have hdying : Dying (ev :: (rest ++ s.queue)) wd := ⟨ev, List.mem_cons_self, hk, hwd⟩
  have hroot : isRootDirPath s.rootDirPaths x.path = false := by
    rcases hinv.live x hx wd hxwd with ⟨i, l, hw, -⟩ | ⟨-, hnot⟩
    · exact absurd hw (hinv.dying wd hdying i)
    · simp only [isRootDirPath, hroots, List.any_map, List.any_eq_false]
      exact fun r hr he => hnot (by simp_all)
  have hstep : handleEvent s ev rest j x.path =
      { s with cache := markCacheSlotEmpty s.cache j }.consume rest := by
    simp only [handleEvent, hk, hroot]
    rfl
  rw [hstep]
  refine advances_consume hev (by simp [asks, hk]) rfl rfl ?_
  exact hinv.bury (v := ⟨s.dirs, s.watches, s.nextWd, s.cache, [], []⟩) hk hwd hj

theorem advances_plain (hroots : s.rootDirPaths = names.map some) (hinv : Inv names (view s))
    (hpc : s.pc = .next) (hb : s.buf = ev :: rest) :
    Advances names s (processNextInotifyEvent s ev rest) := by
  have hev : s.buf ++ s.queue = ev :: (rest ++ s.queue) := by rw [hb, List.cons_append]
  have hinv : Inv names ⟨s.dirs, s.watches, s.nextWd, s.cache, ev :: (rest ++ s.queue), []⟩ := by
    simpa only [view, hev, hpc, jobsOf] using hinv
  rcases hinv.proper [] ev _ rfl with hk | ⟨wd, hp⟩
  · have hstep : processNextInotifyEvent s ev rest = s.consume rest := by
      simp [processNextInotifyEvent, hk]
    rw [hstep]
    refine ⟨.plain ?_ (.inl (reading_consume s rest)), rfl, work_lt_of_turn ?_ (by rw [hpc]; rfl)
      (reading_consume s rest).jobs ?_⟩
    · rw [view_consume]
      exact hinv.pop_ignored (v := ⟨s.dirs, s.watches, s.nextWd, s.cache, [], []⟩) hk
    · change (rest ++ s.queue).countP asks = _
      rw [hev, List.countP_cons_of_neg (by simp [asks, hk])]
    · have hturn := turn_consume_le s rest
      change 6 * (rest ++ s.queue).length + turn (s.consume rest) < _
      rw [hev, List.length_cons]
      omega
  · obtain ⟨x, hx, hxwd⟩ := hp.slot
    obtain ⟨j, hj⟩ := findWatch_isSome hx hxwd
    have hslot : s.cache[j]? = some x := hinv.slot_of hx hxwd hj
    have hfind : (ev.wd.bind fun wd => findWatch s.cache wd) = some j := by
      rw [hp.target]
      exact hj
    have hstep : processNextInotifyEvent s ev rest = handleEvent s ev rest j x.path := by
      have hget : s.cache.getD j emptySlot = x := by
        rw [List.getD_eq_getElem?_getD, hslot, Option.getD_some]
      rcases hp.kind with (hk | hk) | hk <;> simp only [processNextInotifyEvent, hk, hfind, hget]
    rw [hstep]
    rcases hp.kind with harr | hk
    · exact advances_arrival hb hinv hp.target harr hp.isDir hslot hxwd
    · exact advances_deleteSelf hroots hb hinv hp.target hk hj hx hxwd

theorem advances_pair {ev₁ ev₂ : Event} {rest' : List Event} {jo jn : ℕ} {po pn : Path}
    (h : PairFirst names s ev₁ ev₂ rest' jo jn po pn) (hpc : s.pc = .next) (hb : s.buf = ev :: rest) :
    Advances names s (processNextInotifyEvent s ev rest) := by
  have hev : ev :: (rest ++ s.queue) = ev₁ :: ev₂ :: rest' := by
    rw [← h.events, hb, List.cons_append]
  obtain ⟨rfl, htail⟩ := List.cons.inj hev
  obtain ⟨hk, hdir, hk', hcookie⟩ := h.moved
  have hstep : processNextInotifyEvent s ev rest = handleEvent s ev rest jo po := by
    simp only [processNextInotifyEvent, hk, h.old.1, h.old.2]
  rw [hstep]
  cases rest with
  | nil =>
    -- the second event has not been read yet
    have hfirst : s.firstTry = true := by
      refine Bool.of_not_eq_false fun hf => ?_
      have := h.retried hpc hf
      simp [hb] at this
    have hhang : handleEvent s ev [] jo po = { s with pc := .reread } := by
      simp only [handleEvent, hk, hdir, hfirst, if_true]
    rw [hhang]
    refine ⟨.pair ev ev₂ rest' jo jn po pn ⟨h.events, h.moved, h.old, h.new, h.inv,
      .inr ⟨rfl, by simp [hb]⟩, nofun⟩, rfl, work_lt_of_turn rfl (by rw [hpc]; rfl) rfl ?_⟩
    simp [turn, hpc, hfirst]
  | cons ev' rest =>
    obtain ⟨rfl, hrest⟩ : ev' = ev₂ ∧ rest ++ s.queue = rest' := List.cons.inj htail
    have hmove : handleEvent s ev (ev' :: rest) jo po =
        { s with cache := rewriteCachedPaths s.cache po ev.name pn ev'.name }.consume rest := by
      simp only [handleEvent, hk, hdir, if_true, hk', hcookie, and_self, h.new.1, h.new.2]
    rw [hmove]
    refine ⟨.plain ?_ (.inl (reading_consume _ rest)), rfl, work_lt_of_asks ?_⟩
    · rw [view_consume]
      rw [hrest]
      exact h.inv
    · change (rest ++ s.queue).countP asks < _
      rw [h.events, hrest, List.countP_cons_of_pos (by simp [asks, hk]),
        List.countP_cons_of_pos (by simp [asks, hk'])]
      omega

theorem advances_out {ev₁ : Event} {rest' : List Event} {jo : ℕ} {full : Path}
    {watches' : List (ℕ × ℕ)} (h : OutFirst names s ev₁ rest' jo full watches') (hpc : s.pc = .next)
    (hb : s.buf = ev :: rest) : Advances names s (processNextInotifyEvent s ev rest) := by
  have hev : ev :: (rest ++ s.queue) = ev₁ :: rest' := by rw [← h.events, hb, List.cons_append]
  obtain ⟨rfl, htail⟩ := List.cons.inj hev
  obtain ⟨hk, hdir⟩ := h.moved
  have hstep : processNextInotifyEvent s ev rest =
      handleEvent s ev rest jo (s.cache.getD jo emptySlot).path := by
    simp only [processNextInotifyEvent, hk, h.old.1]
  have hzap := zapSubtree_ok full s.cache s.watches h.slots h.zapped
  -- the subtree is zapped, unless the monitor looks for more events first
  have hleaves : Advances names s (zapAndConsume s full rest) := by
    simp only [zapAndConsume, hzap.ok, if_true]
    refine ⟨.plain ?_ (.inl (reading_consume _ rest)), rfl, work_lt_of_asks ?_⟩
    · rw [view_consume, hzap.cleared, ← List.append_assoc, htail]
      refine (h.inv.append_ignored hzap.told).reorder fun wd i => ?_
      rw [hzap.left, h.left]
    · change (rest ++ (s.queue ++ _)).countP asks < _
      have hquiet : (zapSubtree full s.cache s.watches).events.countP asks = 0 :=
        List.countP_eq_zero.mpr fun ev hev => by simp [asks, hzap.told ev hev]
      rw [h.events, ← List.append_assoc, htail, List.countP_append, hquiet,
        List.countP_cons_of_pos (by simp [asks, hk])]
      omega
  rw [hstep]
  cases rest with
  | nil =>
    cases hf : s.firstTry with
    | true =>
      have hhang : handleEvent s ev [] jo (s.cache.getD jo emptySlot).path = { s with pc := .reread } := by
        simp only [handleEvent, hk, hdir, hf, if_true]
      rw [hhang]
      refine ⟨.out ev rest' jo full watches' ⟨h.events, h.moved, h.unmatched, h.old, h.inv, h.left,
        h.zapped, h.slots, h.wds, h.one, h.inside, .inr ⟨rfl, by simp [hb]⟩⟩, rfl,
        work_lt_of_turn rfl (by rw [hpc]; rfl) rfl ?_⟩
      simp [turn, hpc, hf]
    | false =>
      have hleave : handleEvent s ev [] jo (s.cache.getD jo emptySlot).path =
          zapAndConsume s full [] := by
        simp only [handleEvent, hk, hdir, hf, if_true, h.old.2]
        rfl
      rw [hleave]
      exact hleaves
  | cons ev' rest =>
    have hother : ev'.kind ≠ .movedTo := h.unmatched ev' (htail ▸ List.mem_cons_self)
    have hleave : handleEvent s ev (ev' :: rest) jo (s.cache.getD jo emptySlot).path =
        zapAndConsume s full (ev' :: rest) := by
      simp only [handleEvent, hk, hdir, if_true, h.old.2, hother, false_and, if_false]
    rw [hleave]
    exact hleaves

theorem advances_job (u : State) (new : List Job) {j : Job} {jobs : List Job} (hpc : s.pc = .walk (j :: jobs))
    (hinv : Inv names ⟨u.dirs, u.watches, u.nextWd, u.cache, s.buf ++ s.queue, new ++ jobs⟩)
    (hsame : u.dirs = s.dirs ∧ u.buf = s.buf ∧ u.queue = s.queue ∧ u.rootDirPaths = s.rootDirPaths)
    (hless : (new.map (weight s.dirs.length)).sum < weight s.dirs.length j) :
    Advances names s { u with pc := .walk (new ++ jobs) } := by
  obtain ⟨hdirs, hb, hq, hroots⟩ := hsame
  refine ⟨.plain ?_ (.inr ⟨_, rfl⟩), hroots, work_lt_of_jobs ?_ ?_⟩
  · simpa only [view, hb, hq, jobsOf] using hinv
  · dsimp only
    rw [hb, hq]
  · rw [hpc]
    simp only [jobsOf, hdirs, List.map_append, List.sum_append, List.map_cons, List.sum_cons]
    omega

/-- A pathname that leads to no directory in the trees is passed over. -/
theorem lookup_long (h : TreesOK names s.dirs) {path : Path} (hlong : pathMax ≤ path.length) :
    lookup names s.dirs path = none := by
  refine Option.eq_none_iff_forall_ne_some.mpr fun i hi => ?_
  obtain ⟨l, hl, hm, rfl⟩ := lookup_eq_some hi
  have := h.short i l hl hm
  omega

theorem advances_open (hapart : RootsApart names) {j : Job} {jobs : List Job} {path : Path}
    (hinv : Inv names (view s)) (hpc : s.pc = .walk (j :: jobs))
    (hj : j = .subtree path ∨ j = .visit path) : Advances names s (walkStep names s (j :: jobs)) := by
  have hjobs : (view s).jobs = j :: jobs := by simp only [view, hpc, jobsOf]
  obtain ⟨hsome, hnone⟩ := inv_open hinv hapart hjobs hj
  have hw : weight s.dirs.length j = below s.dirs.length (pathMax - path.length) + 2 := by
    rcases hj with rfl | rfl <;> rfl
  have hskip (h : lookup names s.dirs path = none) :
      Advances names s { s with pc := .walk ([] ++ jobs) } :=
    advances_job s [] hpc (hnone h) ⟨rfl, rfl, rfl, rfl⟩ (by rw [hw]; simp)
  have hshort (h : j = .visit path) : path.length < pathMax := by
    obtain ⟨i, l, hl, hm, rfl⟩ := hinv.jobs (.visit path) (by simp [hjobs, h])
    exact hinv.trees.short i l hl hm
  cases hl : lookup names s.dirs path with
  | none =>
    have hstep : walkStep names s (j :: jobs) = { s with pc := .walk jobs } := by
      rcases hj with rfl | rfl
      · simp [walkStep, hl]
      · simp only [walkStep, hl]
        exact if_neg (Nat.not_le.mpr (hshort rfl))
    rw [hstep]
    exact hskip hl
  | some i =>
    have hstep : walkStep names s (j :: jobs) = { s with pc := .walk (.watch path i :: jobs) } := by
      rcases hj with rfl | rfl
      · simp only [walkStep, hl]
        refine if_neg fun hlong => ?_
        rw [lookup_long hinv.trees hlong] at hl
        cases hl
      · simp only [walkStep, hl]
        exact if_neg (Nat.not_le.mpr (hshort rfl))
    rw [hstep]
    refine advances_job s [.watch path i] hpc (hsome i hl) ⟨rfl, rfl, rfl, rfl⟩ ?_
    rw [hw]
    simp [weight]

theorem advances_watch (hapart : RootsApart names) {jobs : List Job} {path : Path} {i : ℕ}
    (hinv : Inv names (view s)) (hpc : s.pc = .walk (.watch path i :: jobs)) :
    Advances names s (walkStep names s (.watch path i :: jobs)) := by
  have hjobs : (view s).jobs = .watch path i :: jobs := by simp only [view, hpc, jobsOf]
  obtain ⟨l, hl, hm, hpath⟩ := hinv.jobs (.watch path i) (by simp [hjobs])
  have hshort : path.length < pathMax := hpath ▸ hinv.trees.short i l hl hm
  have hlook : lookup names s.dirs path = some i := hpath ▸ hinv.trees.lookup hapart hl hm
  have hless : ([Job.list path i].map (weight s.dirs.length)).sum <
      weight s.dirs.length (.watch path i) := by simp [weight]
  cases hw : wdOf s.watches i with
  | some wd =>
    have hmem := wdOf_eq_some hw
    obtain ⟨j, hj, -⟩ := slot_found hinv hmem hl
    have hj : findWatch s.cache wd = some j := hj
    have htrav : traverseTree names s path = some s := by
      simp [traverseTree, Nat.not_le.mpr hshort, hlook, hw, hj]
    have hstep : walkStep names s (.watch path i :: jobs) =
        { s with pc := .walk (.list path i :: jobs) } := by
      simp only [walkStep, htrav]
    rw [hstep]
    exact advances_job s [.list path i] hpc (inv_rewatch hinv hapart hjobs hmem)
      ⟨rfl, rfl, rfl, rfl⟩ hless
  | none =>
    have hfree : findWatch s.cache s.nextWd = none := by
      refine Option.eq_none_iff_forall_ne_some.mpr fun j hj => ?_
      obtain ⟨x, hx, hxwd⟩ := findWatch_eq_some hj
      exact absurd (hinv.used x (List.mem_of_getElem? hx) _ hxwd) (Nat.lt_irrefl _)
    have htrav : traverseTree names s path = some { s with
        watches := s.watches ++ [(s.nextWd, i)]
        nextWd := s.nextWd + 1
        cache := addWatchToCache s.cache s.nextWd path } := by
      simp [traverseTree, Nat.not_le.mpr hshort, hlook, hw, hfree]
    have hstep : walkStep names s (.watch path i :: jobs) = { s with
        watches := s.watches ++ [(s.nextWd, i)]
        nextWd := s.nextWd + 1
        cache := addWatchToCache s.cache s.nextWd path
        pc := .walk (.list path i :: jobs) } := by
      simp only [walkStep, htrav]
    have hadds := adds_addWatchToCache s.cache s.nextWd path
    rw [List.take_of_length_le hshort.le] at hadds
    rw [hstep]
    exact advances_job { s with
        watches := s.watches ++ [(s.nextWd, i)]
        nextWd := s.nextWd + 1
        cache := addWatchToCache s.cache s.nextWd path } [.list path i] hpc
      (inv_watch hinv hapart hjobs (wdOf_eq_none hw) hadds) ⟨rfl, rfl, rfl, rfl⟩ hless

theorem advances_list (hapart : RootsApart names) {jobs : List Job} {path : Path} {i : ℕ}
    (hinv : Inv names (view s)) (hpc : s.pc = .walk (.list path i :: jobs)) :
    Advances names s (walkStep names s (.list path i :: jobs)) := by
  have hjobs : (view s).jobs = .list path i :: jobs := by simp only [view, hpc, jobsOf]
  obtain ⟨l, hl, hm, hpath⟩ := hinv.jobs (.list path i) (by simp [hjobs])
  have hshort : path.length < pathMax := hpath ▸ hinv.trees.short i l hl hm
  exact advances_job s _ hpc (inv_list hinv hapart hjobs) ⟨rfl, rfl, rfl, rfl⟩ (sum_entries_lt i hshort)

theorem resume_cases (s : State) :
    s.buf = [] ∧ s.resume = { s with pc := .read } ∨ s.buf ≠ [] ∧ s.resume = { s with pc := .next } := by
  by_cases hb : s.buf = []
  · exact .inl ⟨hb, by simp only [State.resume, hb, if_true]⟩
  · exact .inr ⟨hb, by simp only [State.resume, hb, if_false]⟩

theorem advances_walk (hapart : RootsApart names) {jobs : List Job} (hinv : Inv names (view s))
    (hpc : s.pc = .walk jobs) : Advances names s (walkStep names s jobs) := by
  cases jobs with
  | nil =>
    have hinv : Inv names ⟨s.dirs, s.watches, s.nextWd, s.cache, s.buf ++ s.queue, []⟩ := by
      simpa only [view, hpc, jobsOf] using hinv
    have hjobs : jobsOf s.pc = [] := by rw [hpc]; rfl
    simp only [walkStep]
    rcases resume_cases s with ⟨hb, he⟩ | ⟨hb, he⟩
    · rw [he]
      refine ⟨.plain hinv (.inl (.inl ⟨rfl, hb⟩)), rfl, work_lt_of_turn rfl hjobs rfl ?_⟩
      simp [turn, hpc]
    · rw [he]
      refine ⟨.plain hinv (.inl (.inr ⟨rfl, hb⟩)), rfl, work_lt_of_turn rfl hjobs rfl ?_⟩
      simp only [turn, hpc]
      split <;> omega
  | cons j jobs =>
    cases j with
    | subtree path => exact advances_open hapart hinv hpc (.inl rfl)
    | visit path => exact advances_open hapart hinv hpc (.inr rfl)
    | watch path i => exact advances_watch hapart hinv hpc
    | list path i => exact advances_list hapart hinv hpc

theorem advances_step (hapart : RootsApart names) (h : Good names s)
    (ht : next names s .step = some t) : Advances names s t := by
  simp only [next] at ht
  cases hpc : s.pc with
  | next =>
    rw [hpc] at ht
    cases hb : s.buf with
    | nil => simp [hb] at ht
    | cons ev rest =>
      simp only [hb] at ht
      obtain rfl := Option.some.inj ht
      cases h.phase with
      | plain hinv => exact advances_plain h.roots hinv hpc hb
      | pair _ _ _ _ _ _ _ hp => exact advances_pair hp hpc hb
      | out _ _ _ _ _ ho => exact advances_out ho hpc hb
  | walk jobs =>
    rw [hpc] at ht
    obtain rfl := Option.some.inj ht
    cases h.phase with
    | plain hinv => exact advances_walk hapart hinv hpc
    | pair _ _ _ _ _ _ _ hp =>
      rcases hp.pc with (⟨hp, -⟩ | ⟨hp, -⟩) | ⟨hp, -⟩ <;> rw [hpc] at hp <;> cases hp
    | out _ _ _ _ _ ho =>
      rcases ho.pc with (⟨hp, -⟩ | ⟨hp, -⟩) | ⟨hp, -⟩ <;> rw [hpc] at hp <;> cases hp
  | read => simp [hpc] at ht
  | reread => simp [hpc] at ht
  | exited => simp [hpc] at ht

end Steps

/-! ## Runs -/

def ofMonitor : Action → Bool
  | .read _ | .reread _ | .step => true
  | _ => false

section Runs

variable {names : List Path} {s t : State} {a : Action}

theorem good_advances (h : Good names s) (hapart : RootsApart names) (ha : ofMonitor a = true)
    (ht : next names s a = some t) : Good names t ∧ work t < work s := by
  have hadv : Advances names s t := by
    cases a with
    | read k => exact advances_read h.phase ht
    | reread k => exact advances_reread h.phase ht
    | step => exact advances_step hapart h ht
    | mkdir | rmdir | rename => cases ha
  exact ⟨⟨hadv.roots.trans h.roots, hadv.phase⟩, hadv.less⟩

theorem good_enabled (h : Good names s) :
    caughtUp s = true ∨ ∃ a t, ofMonitor a = true ∧ next names s a = some t := by
  rcases h.phase.pc_cases with ⟨hpc, hb⟩ | ⟨hpc, hb⟩ | ⟨hpc, hb⟩ | ⟨jobs, hpc⟩
  · by_cases hq : s.queue = []
    · exact .inl (caughtUp_iff.mpr ⟨hq, hb, hpc⟩)
    · have hlen := List.length_pos_iff.mpr hq
      exact .inr ⟨.read s.queue.length, _, rfl, if_pos ⟨hpc, hlen, le_rfl⟩⟩
  · obtain ⟨ev, rest, hb⟩ := List.exists_cons_of_ne_nil hb
    exact .inr ⟨.step, _, rfl, by simp only [next, hpc, hb]; rfl⟩
  · have hmore : 0 < s.queue.length ∨ s.queue = [] := by
      rw [List.length_pos_iff]
      exact (em _).symm
    exact .inr ⟨.reread s.queue.length, _, rfl, if_pos ⟨hpc, le_rfl, hmore⟩⟩
  · exact .inr ⟨.step, _, rfl, by simp only [next, hpc]; rfl⟩

theorem good_agrees (h : Good names s) (hc : caughtUp s = true) :
    Agrees names s.dirs s.watches s.cache := by
  have hs := h.phase.settled hc
  exact hs.inv.agrees hs.events hs.jobs

theorem good_finishes (h : Good names s) (hapart : RootsApart names) :
    Finishes (next names) (fun _ a => ofMonitor a = true)
      (fun t => caughtUp t = true ∧ Agrees names t.dirs t.watches t.cache) s := by
  refine finishes_of_work work (fun s hs => ?_) (fun s a t hs ha ht => good_advances hs hapart ha ht) h
  exact (good_enabled hs).imp_left fun hc => ⟨hc, good_agrees hs hc⟩

theorem good_mkdir (h : Good names s) (hapart : RootsApart names) {l : Loc Path} {n : Path} {i : ℕ}
    (hok : careful names s (.mkdir l n i) = true) (ht : next names s (.mkdir l n i) = some t) :
    Good names t := by
  simp only [careful, staysShort, ht, Bool.and_eq_true, Bool.or_eq_true] at hok
  simp only [next, mkdirStep] at ht
  split at ht
  case isFalse => cases ht
  rename_i hname
  obtain ⟨dirs', hmk, rfl⟩ := Option.map_eq_some_iff.mp ht
  obtain ⟨⟨p, hp⟩, -⟩ := mkdir_cases hmk
  have hslash : slash ∉ n := by
    simp only [validName, Bool.and_eq_true, Bool.not_eq_true'] at hname
    simpa using hname.1.1.1.1.2
  have htrees := h.phase.trees.mkdir hmk hslash (fits_iff.mp hok.1)
  refine ⟨h.roots, h.phase.mkdir hapart hmk hp htrees hok.2 ?_⟩
  rw [h.phase.trees.idAt hp]
  exact notify_cases s p .create 0 n

theorem good_rmdir (h : Good names s) (hapart : RootsApart names) {l : Loc Path}
    (hok : careful names s (.rmdir l) = true) (ht : next names s (.rmdir l) = some t) :
    Good names t := by
  simp only [careful, Bool.and_eq_true, Bool.or_eq_true, Bool.not_eq_true'] at hok
  obtain ⟨dirs', hrm, rfl⟩ := Option.map_eq_some_iff.mp ht
  obtain ⟨⟨i, hi⟩, -⟩ := rmdir_cases hrm
  obtain ⟨watches', gone, he, hvan⟩ :=
    vanish_cases { s with dirs := dirs' } i h.phase.wds h.phase.one
  rw [h.phase.trees.idAt hi, he]
  exact ⟨h.roots, h.phase.rmdir hapart hrm hi hok.2 hvan⟩

theorem good_rename (h : Good names s) (hapart : RootsApart names) {src dst : Loc Path}
    (hok : careful names s (.rename src dst) = true) (ht : next names s (.rename src dst) = some t) :
    Good names t := by
  simp only [careful, staysShort, ht, Bool.and_eq_true, Bool.or_eq_true, Bool.not_eq_true'] at hok
  obtain ⟨hfits, hc, hin⟩ := hok
  have hroots : t.rootDirPaths = s.rootDirPaths := by
    simp only [next, renameStep] at ht
    split at ht
    case isFalse => cases ht
    obtain ⟨dirs', -, rfl⟩ := Option.map_eq_some_iff.mp ht
    unfold vanish
    split <;> rfl
  refine ⟨hroots.trans h.roots, Phase.rename (h.phase.settled hc) hc hapart ht hfits ?_⟩
  rcases hin with (hs | hd) | hnone
  · exact .inl hs
  · exact .inr (.inl hd)
  · exact .inr (.inr fun r hr => Bool.eq_false_iff.mp hnone (present_iff.mpr ⟨r, hr⟩))

theorem good_next (h : Good names s) (hapart : RootsApart names) (hok : careful names s a = true)
    (ht : next names s a = some t) : Good names t := by
  cases a with
  | mkdir l n i => exact good_mkdir h hapart hok ht
  | rmdir l => exact good_rmdir h hapart hok ht
  | rename src dst => exact good_rename h hapart hok ht
  | read k => exact (good_advances h hapart rfl ht).1
  | reread k => exact (good_advances h hapart rfl ht).1
  | step => exact (good_advances h hapart rfl ht).1

theorem good_start {dirs : Dirs ℕ Path} (hdirs : TreesOK names dirs) :
    Good names (start names dirs) := by
  refine ⟨rfl, .plain ?_ (.inr ⟨_, rfl⟩)⟩
  exact
    { trees := hdirs
      wds := nofun
      one := nofun
      inside := nofun
      slots := nofun
      used := nofun
      vacant := nofun
      cached := nofun
      live := nofun
      dying := nofun
      proper := fun before ev after he => by simp [view, start] at he
      cover := by
        intro i l hl hm
        have ht : l.tree < names.length := of_decide_eq_true hm
        refine .inr ⟨⟨l.tree, []⟩, ⟨rfl, List.nil_prefix⟩,
          .job (.inl (List.mem_map.mpr ⟨names.getD l.tree [], ?_, ?_⟩))⟩
        · simp [List.getD_eq_getElem?_getD, ht]
        · simp [pathOf]
      jobs := by
        intro j hj
        obtain ⟨name, -, rfl⟩ := List.mem_map.mp hj
        trivial }

theorem good_run {dirs : Dirs ℕ Path} (hapart : RootsApart names) (hdirs : TreesOK names dirs)
    (h : Run (next names) (fun s a => careful names s a = true) (start names dirs) s) :
    Good names s :=
  h.invariant (I := Good names) (good_start hdirs) fun _ _ _ hs hok ht => good_next hs hapart hok ht

end Runs

end InotifyRuns
