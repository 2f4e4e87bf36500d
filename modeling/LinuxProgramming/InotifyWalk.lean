import LinuxProgramming.InotifyInvariant

/-! # Walking a subtree

One step of the walk: an entry is opened, gets its watch, and its entries are read. A directory
that was due to the walk and has its watch now passes what was below it on to its children. -/
namespace InotifyWalk

open CStrings Pathnames DirectoryTrees Loc InotifyDtree InotifyInvariant

section Jobs

variable {names : List Path} {v : View} {jobs : List Job}

theorem jobLeads_of_cons {j : Job} {e : Loc Path} (h : JobLeads names (j :: jobs) e) :
    JobLeads names [j] e ∨ JobLeads names jobs e := by
  simp only [JobLeads, List.mem_cons, List.not_mem_nil, or_false] at h ⊢
  grind

theorem jobLeads_mono {jobs' : List Job} {e : Loc Path} (h : JobLeads names jobs e)
    (hsub : ∀ j ∈ jobs, j ∈ jobs') : JobLeads names jobs' e := by
  rcases h with hj | hj | ⟨i, hj⟩ | ⟨p, n, i, he, hj⟩
  · exact .inl (hsub _ hj)
  · exact .inr (.inl (hsub _ hj))
  · exact .inr (.inr (.inl ⟨i, hsub _ hj⟩))
  · exact .inr (.inr (.inr ⟨p, n, i, he, hsub _ hj⟩))

theorem inv_rejob (h : Inv names v) {jobs' : List Job} (hok : ∀ j ∈ jobs', JobOK names v.dirs j)
    (hleads : ∀ i l e, (i, l) ∈ v.dirs → monitored names l = true → (∀ wd, (wd, i) ∉ v.watches) →
      Above e l → JobLeads names v.jobs e → ∃ e', Above e' l ∧ JobLeads names jobs' e') :
    Inv names { v with jobs := jobs' } :=
  { h with
    proper := fun before ev after he => (h.proper before ev after he).imp_right fun ⟨wd, hp⟩ =>
      ⟨wd, hp.target, hp.isDir, hp.kind, hp.slot, hp.alive⟩
    cover := by
      intro i l hl hm
      by_cases hw : ∃ wd, (wd, i) ∈ v.watches
      · exact .inl hw
      · obtain ⟨e, he, hdue⟩ := (h.cover i l hl hm).resolve_left hw
        cases hdue with
        | event before ev after hev hlead =>
          exact .inr ⟨e, he, .event before ev after hev ⟨hlead.arrival, hlead.parent, hlead.clear⟩⟩
        | job hjob =>
          obtain ⟨e', he', hjob'⟩ := hleads i l e hl hm (fun wd hwd => hw ⟨wd, hwd⟩) he hjob
          exact .inr ⟨e', he', .job hjob'⟩
    jobs := hok }

/-- The pathname of a job that leads to a directory is that of the directory. -/
theorem leads_subtree {path : Path} {e : Loc Path} (h : JobLeads names [.subtree path] e) :
    path = pathOf names e := by
  simpa [JobLeads, eq_comm] using h

theorem leads_visit {path : Path} {e : Loc Path} (h : JobLeads names [.visit path] e) :
    path = pathOf names e := by
  simpa [JobLeads, eq_comm] using h

theorem leads_watch {path : Path} {i : ℕ} {e : Loc Path} (h : JobLeads names [.watch path i] e) :
    path = pathOf names e := by
  simpa [JobLeads, eq_comm] using h

theorem leads_list {path : Path} {i : ℕ} {e : Loc Path} (h : JobLeads names [.list path i] e) :
    ∃ p n, e = child p n ∧ path = pathOf names p := by
  simpa [JobLeads, eq_comm] using h

/-- A pathname is looked up, at the start of the walk or for an entry. -/
theorem inv_open (h : Inv names v) (hapart : RootsApart names) {j : Job} {path : Path}
    (hjobs : v.jobs = j :: jobs) (hj : j = .subtree path ∨ j = .visit path) :
    (∀ i, lookup names v.dirs path = some i →
      Inv names { v with jobs := .watch path i :: jobs }) ∧
    (lookup names v.dirs path = none → Inv names { v with jobs := jobs }) := by
  have hpath {e : Loc Path} (he : JobLeads names [j] e) : path = pathOf names e := by
    rcases hj with rfl | rfl
    · exact leads_subtree he
    · exact leads_visit he
  have htail : ∀ j ∈ jobs, JobOK names v.dirs j := fun j hj => h.jobs j (by simp [hjobs, hj])
  constructor
  · intro i hlook
    obtain ⟨l, hl, hm, hp⟩ := lookup_eq_some hlook
    refine inv_rejob h (fun j' hj' => ?_) fun k m e hk hm' hw he hlead => ⟨e, he, ?_⟩
    · rcases List.mem_cons.mp hj' with rfl | hj'
      · exact ⟨l, hl, hm, hp⟩
      · exact htail j' hj'
    · rw [hjobs] at hlead
      rcases jobLeads_of_cons hlead with hlead | hlead
      · exact .inr (.inr (.inl ⟨i, by rw [hpath hlead]; exact List.mem_cons_self⟩))
      · exact jobLeads_mono hlead fun _ => List.mem_cons_of_mem _
  · intro hlook
    refine inv_rejob h htail fun k m e hk hm' hw he hlead => ⟨e, he, ?_⟩
    rw [hjobs] at hlead
    rcases jobLeads_of_cons hlead with hlead | hlead
    · obtain ⟨i, hi⟩ := h.trees.ancestor hk he
      have := h.trees.lookup hapart hi ((monitored_of_above he).trans hm')
      rw [← hpath hlead, hlook] at this
      cases this
    · exact hlead

/-- What was below a directory that now has its watch is below one of its children. -/
theorem passes_on {l : Loc Path} {i k : ℕ} {m e : Loc Path} (h : Inv names v)
    (hapart : RootsApart names) (hl : (i, l) ∈ v.dirs) (hm : monitored names l = true)
    (hk : (k, m) ∈ v.dirs) (hmm : monitored names m = true) (hne : k ≠ i) (he : Above e m)
    (hlead : JobLeads names (.watch (pathOf names l) i :: jobs) e) :
    ∃ e', Above e' m ∧ JobLeads names (.list (pathOf names l) i :: jobs) e' := by
  rcases jobLeads_of_cons hlead with hlead | hlead
  · obtain ⟨i', he'⟩ := h.trees.ancestor hk he
    have hel : e = l := h.trees.injective hapart he' hl ((monitored_of_above he).trans hmm) hm
      (leads_watch hlead).symm
    subst hel
    have hem : e ≠ m := by
      rintro rfl
      exact hne (h.trees.wf.ids k i e hk hl)
    obtain ⟨n, hn⟩ := he.child_above hem
    exact ⟨e.child n, hn, .inr (.inr (.inr ⟨e, n, i, rfl, List.mem_cons_self⟩))⟩
  · exact ⟨e, he, jobLeads_mono hlead fun _ => List.mem_cons_of_mem _⟩

theorem inv_rewatch (h : Inv names v) (hapart : RootsApart names) {path : Path} {i wd : ℕ}
    (hjobs : v.jobs = .watch path i :: jobs) (hw : (wd, i) ∈ v.watches) :
    Inv names { v with jobs := .list path i :: jobs } := by
  obtain ⟨l, hl, hm, rfl⟩ := h.jobs (.watch path i) (by simp [hjobs])
  refine inv_rejob h (fun j hj => ?_) fun k m e hk hmm hnw he hlead => ?_
  · rcases List.mem_cons.mp hj with rfl | hj
    · exact ⟨l, hl, hm, rfl⟩
    · exact h.jobs j (by simp [hjobs, hj])
  · refine passes_on h hapart hl hm hk hmm ?_ he (hjobs ▸ hlead)
    rintro rfl
    exact hnw wd hw

theorem inv_list (h : Inv names v) (hapart : RootsApart names) {path : Path} {i : ℕ}
    (hjobs : v.jobs = .list path i :: jobs) :
    Inv names { v with
      jobs := (entries v.dirs i).map (fun n => .visit (path ++ slash :: n)) ++ jobs } := by
  obtain ⟨l, hl, hm, rfl⟩ := h.jobs (.list path i) (by simp [hjobs])
  refine inv_rejob h (fun j hj => ?_) fun k m e hk hmm hnw he hlead => ⟨e, he, ?_⟩
  · rcases List.mem_append.mp hj with hj | hj
    · obtain ⟨n, hn, rfl⟩ := List.mem_map.mp hj
      obtain ⟨c, hc⟩ := (mem_entries h.trees.wf hl).mp hn
      exact ⟨c, l.child n, hc, (monitored_of_above (above_child l n)).symm.trans hm,
        (pathOf_child names l n).symm⟩
    · exact h.jobs j (by simp [hjobs, hj])
  · rw [hjobs] at hlead
    rcases jobLeads_of_cons hlead with hlead | hlead
    · obtain ⟨p, n, rfl, hp⟩ := leads_list hlead
      have hpm : Above p m := (above_child p n).trans he
      obtain ⟨i', hi'⟩ := h.trees.ancestor hk hpm
      obtain rfl : p = l :=
        h.trees.injective hapart hi' hl ((monitored_of_above hpm).trans hmm) hm hp.symm
      have hn : n ∈ entries v.dirs i := (mem_entries h.trees.wf hl).mpr (h.trees.ancestor hk he)
      refine .inr (.inl (List.mem_append_left _ (List.mem_map.mpr ⟨n, hn, ?_⟩)))
      rw [pathOf_child]
    · exact jobLeads_mono hlead fun _ => List.mem_append_right _

end Jobs

/-! ## A new watch -/

/-- One slot of the cache is filled, all others in use stay. -/
structure Adds (cache : List Watch) (w : Watch) (cache' : List Watch) : Prop where
  new : w ∈ cache'
  old : ∀ x ∈ cache, x.wd ≠ none → x ∈ cache'
  only : ∀ x ∈ cache', x = w ∨ x ∈ cache ∨ x = emptySlot
  slots : (∀ (j k : ℕ) (x y : Watch) (wd : ℕ), cache[j]? = some x → cache[k]? = some y →
      x.wd = some wd → y.wd = some wd → j = k) → (∀ x ∈ cache, x.wd ≠ w.wd) →
    ∀ (j k : ℕ) (x y : Watch) (wd : ℕ), cache'[j]? = some x → cache'[k]? = some y →
      x.wd = some wd → y.wd = some wd → j = k

/-- A vacant slot is filled, of a cache that may have been enlarged. -/
theorem adds_set {cache base : List Watch} {w : Watch} {j : ℕ} (hj : j < base.length)
    (hfree : ∀ x, base[j]? = some x → x.wd = none)
    (hold : ∀ (k : ℕ) (x : Watch), cache[k]? = some x → base[k]? = some x)
    (honly : ∀ (k : ℕ) (x : Watch), base[k]? = some x → cache[k]? = some x ∨ x = emptySlot) :
    Adds cache w (base.set j w) := by
  have hget {k : ℕ} {x : Watch} (hk : (base.set j w)[k]? = some x) :
      j = k ∧ x = w ∨ j ≠ k ∧ base[k]? = some x := by
    rw [List.getElem?_set] at hk
    split at hk
    · rename_i hjk
      exact .inl ⟨hjk, (Option.some.inj hk).symm⟩
    · exact .inr ⟨‹_›, hk⟩
  refine ⟨?_, fun x hx hwd => ?_, fun x hx => ?_, fun hslots hnew k k' x y wd hx hy hxwd hywd => ?_⟩
  · exact List.mem_of_getElem? (i := j) (by simp [hj])
  · obtain ⟨k, hk⟩ := List.mem_iff_getElem?.mp hx
    have hb := hold k x hk
    refine List.mem_of_getElem? (i := k) ?_
    rw [List.getElem?_set_ne, hb]
    rintro rfl
    exact hwd (hfree x hb)
  · obtain ⟨k, hk⟩ := List.mem_iff_getElem?.mp hx
    rcases hget hk with ⟨-, rfl⟩ | ⟨-, hb⟩
    · exact .inl rfl
    · exact .inr ((honly k x hb).imp_left List.mem_of_getElem?)
  · have hlive {k : ℕ} {x : Watch} (hb : base[k]? = some x) (hxwd : x.wd = some wd) :
        cache[k]? = some x := by
      rcases honly k x hb with hc | rfl
      · exact hc
      · cases hxwd
    rcases hget hx with ⟨rfl, rfl⟩ | ⟨-, hbx⟩ <;> rcases hget hy with ⟨rfl, rfl⟩ | ⟨-, hby⟩
    · rfl
    · exact absurd (hywd.trans hxwd.symm) (hnew y (List.mem_of_getElem? (hlive hby hywd)))
    · exact absurd (hxwd.trans hywd.symm) (hnew x (List.mem_of_getElem? (hlive hbx hxwd)))
    · exact hslots k k' x y wd (hlive hbx hxwd) (hlive hby hywd) hxwd hywd

theorem adds_addWatchToCache (cache : List Watch) (wd : ℕ) (path : Path) :
    Adds cache ⟨some wd, path.take pathMax⟩ (addWatchToCache cache wd path) := by
  unfold addWatchToCache findEmptyCacheSlot
  cases hfind : cache.findIdx? fun w => w.wd = none with
  | some j =>
    obtain ⟨hlt, he, -⟩ := List.findIdx?_eq_some_iff_getElem.mp hfind
    refine adds_set hlt (fun x hx => ?_) (fun _ _ h => h) fun _ _ h => .inl h
    rw [List.getElem?_eq_getElem hlt, Option.some.injEq] at hx
    exact hx ▸ of_decide_eq_true he
  | none =>
    have hempty {k : ℕ} {x : Watch}
        (h : (cache ++ List.replicate allocIncr emptySlot)[k]? = some x) :
        cache[k]? = some x ∨ cache.length ≤ k ∧ x = emptySlot := by
      rw [List.getElem?_append] at h
      split at h
      · exact .inl h
      · exact .inr ⟨by omega, (List.mem_replicate.mp (List.mem_of_getElem? h)).2⟩
    have hroom : cache.length < (cache ++ List.replicate allocIncr emptySlot).length := by
      rw [List.length_append, List.length_replicate, allocIncr]
      omega
    refine adds_set hroom (fun x hx => ?_) (fun k x h => ?_) fun k x h => ?_
    · rcases hempty hx with h | ⟨-, rfl⟩
      · simp at h
      · rfl
    · obtain ⟨hlt, -⟩ := List.getElem?_eq_some_iff.mp h
      rw [List.getElem?_append_left hlt, h]
    · exact (hempty h).imp_right And.right

section Watch

variable {names : List Path} {v : View} {jobs : List Job}

theorem inv_watch (h : Inv names v) (hapart : RootsApart names) {path : Path} {i : ℕ}
    {cache' : List Watch} (hjobs : v.jobs = .watch path i :: jobs)
    (hnone : ∀ wd, (wd, i) ∉ v.watches) (hadds : Adds v.cache ⟨some v.nextWd, path⟩ cache') :
    Inv names { v with
      watches := v.watches ++ [(v.nextWd, i)]
      nextWd := v.nextWd + 1
      cache := cache'
      jobs := .list path i :: jobs } := by
  obtain ⟨l, hl, hm, rfl⟩ := h.jobs (.watch path i) (by simp [hjobs])
  have hmem {wd j : ℕ} (hw : (wd, j) ∈ v.watches ++ [(v.nextWd, i)]) :
      (wd, j) ∈ v.watches ∨ wd = v.nextWd ∧ j = i := by simpa using hw
  have hlt {wd j : ℕ} (hw : (wd, j) ∈ v.watches) : wd < v.nextWd := (h.inside wd j hw).1
  have honly {x : Watch} {wd : ℕ} (hx : x ∈ cache') (hwd : x.wd = some wd) :
      x = ⟨some v.nextWd, pathOf names l⟩ ∨ x ∈ v.cache := by
    rcases hadds.only x hx with rfl | hx | rfl
    · exact .inl rfl
    · exact .inr hx
    · cases hwd
  have hkeep {x : Watch} {wd : ℕ} (hx : x ∈ v.cache) (hwd : x.wd = some wd) : x ∈ cache' :=
    hadds.old x hx (by simp [hwd])
  exact
    { trees := h.trees
      wds := by
        intro wd j j' hw hw'
        rcases hmem hw with h1 | ⟨rfl, rfl⟩ <;> rcases hmem hw' with h2 | ⟨he, rfl⟩
        · exact h.wds wd j j' h1 h2
        · have := hlt h1
          omega
        · exact absurd (hlt h2) (Nat.lt_irrefl _)
        · rfl
      one := by
        intro wd wd' j hw hw'
        rcases hmem hw with h1 | ⟨rfl, rfl⟩ <;> rcases hmem hw' with h2 | ⟨rfl, he⟩
        · exact h.one wd wd' j h1 h2
        · exact absurd (he ▸ h1) (hnone wd)
        · exact absurd h2 (hnone wd')
        · rfl
      inside := by
        intro wd j hw
        rcases hmem hw with h1 | ⟨rfl, rfl⟩
        · exact ⟨Nat.lt_succ_of_lt (hlt h1), (h.inside wd j h1).2⟩
        · exact ⟨Nat.lt_succ_self _, l, hl, hm⟩
      slots := hadds.slots h.slots fun x hx he => by
        have := h.used x hx v.nextWd he
        omega
      used := by
        intro x hx wd hwd
        rcases honly hx hwd with rfl | hx
        · cases hwd
          exact Nat.lt_succ_self _
        · exact Nat.lt_succ_of_lt (h.used x hx wd hwd)
      vacant := by
        intro x hx hwd
        rcases hadds.only x hx with rfl | hx | rfl
        · cases hwd
        · exact h.vacant x hx hwd
        · rfl
      cached := by
        intro wd j m hw hm'
        rcases hmem hw with h1 | ⟨rfl, rfl⟩
        · obtain ⟨x, hx, hwd, hp⟩ := h.cached wd j m h1 hm'
          exact ⟨x, hkeep hx hwd, hwd, hp⟩
        · obtain rfl := h.trees.wf.places j l m hl hm'
          exact ⟨_, hadds.new, rfl, rfl⟩
      live := by
        intro x hx wd hwd
        rcases honly hx hwd with rfl | hx
        · cases hwd
          exact .inl ⟨i, l, by simp, hl, rfl⟩
        · refine (h.live x hx wd hwd).imp_left fun ⟨j, m, hw, hrest⟩ => ?_
          exact ⟨j, m, List.mem_append_left _ hw, hrest⟩
      dying := by
        intro wd hd j hw
        rcases hmem hw with h1 | ⟨rfl, rfl⟩
        · exact h.dying wd hd j h1
        -- an event for this watch would have a slot
        · obtain ⟨ev, hev, hk, hwd⟩ := hd
          obtain ⟨before, after, he⟩ := List.append_of_mem hev
          rcases h.proper before ev after he with hi | ⟨wd, hp⟩
          · rw [hk] at hi
            cases hi
          · cases hwd.symm.trans hp.target
            obtain ⟨x, hx, hxwd⟩ := hp.slot
            exact absurd (h.used x hx _ hxwd) (Nat.lt_irrefl _)
      proper := by
        intro before ev after he
        refine (h.proper before ev after he).imp_right fun ⟨wd, hp⟩ => ?_
        obtain ⟨x, hx, hwd⟩ := hp.slot
        exact ⟨wd, hp.target, hp.isDir, hp.kind, ⟨x, hkeep hx hwd, hwd⟩, hp.alive⟩
      cover := by
        intro k m hk hmm
        by_cases hki : k = i
        · exact .inl ⟨v.nextWd, by simp [hki]⟩
        rcases h.cover k m hk hmm with ⟨wd, hw⟩ | ⟨e, he, hdue⟩
        · exact .inl ⟨wd, List.mem_append_left _ hw⟩
        · right
          cases hdue with
          | event before ev after hev hlead =>
            by_cases hel : e = l
            -- the walk takes over
            · subst hel
              have hwatch : JobLeads names (.watch (pathOf names e) i :: jobs) e :=
                .inr (.inr (.inl ⟨i, List.mem_cons_self⟩))
              obtain ⟨e', he', hj⟩ := passes_on h hapart hl hm hk hmm hki he hwatch
              exact ⟨e', he', .job hj⟩
            · refine ⟨e, he, .event before ev after hev ⟨hlead.arrival, ?_, ?_⟩⟩
              · obtain ⟨p, j, wd, heq, hp, hw, hwd⟩ := hlead.parent
                exact ⟨p, j, wd, heq, hp, List.mem_append_left _ hw, hwd⟩
              · intro x hx wd hwd hp
                rcases honly hx hwd with rfl | hx
                · obtain ⟨c, hc⟩ := h.trees.ancestor hk he
                  exact absurd (h.trees.injective hapart hc hl
                    ((monitored_of_above he).trans hmm) hm hp.symm) hel
                · exact hlead.clear x hx wd hwd hp
          | job hjob =>
            obtain ⟨e', he', hj⟩ := passes_on h hapart hl hm hk hmm hki he (hjobs ▸ hjob)
            exact ⟨e', he', .job hj⟩
      jobs := by
        intro j hj
        rcases List.mem_cons.mp hj with rfl | hj
        · exact ⟨l, hl, hm, rfl⟩
        · exact h.jobs j (by simp [hjobs, hj]) }

end Watch

end InotifyWalk
