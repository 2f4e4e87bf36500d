import LinuxProgramming.OpenFiles
import LinuxProgramming.ParentForests

/-! # The capability verdict of `ns_capable.c`

The program compares the user namespace of a process with a target user namespace: it walks up from
the target, with a descriptor for each namespace on the way, until it meets the namespace of the
process or there is no parent. -/
namespace NsCapable

open Descriptors OpenFiles ParentForests StateTransition Function

variable {ν : Type}

/-- What the kernel reports about namespaces and processes; no parent means `EPERM`. -/
structure Kernel (ν : Type) where
  isUser : ν → Bool
  parent : ν → Option ν
  owningUserns : ν → Option ν
  ownerUid : ν → ℕ
  userns : ℕ → Option ν
  euid : ℕ → ℕ

/-- The second argument: a PID, or a file that refers to a namespace if it can be opened. -/
inductive Arg (ν : Type) where
  | pid (pid : ℕ)
  | file (ns : Option ν)

inductive Failure where
  | errExit (msg : String)
  | outOfFuel
  deriving DecidableEq, Repr

/-- What the program prints: the process has the capabilities in its sets because it is in the
namespace, none, all, or only those in its sets because it is in an ancestor. -/
inductive Verdict where
  | sets
  | none
  | all
  | onlySets
  deriving DecidableEq, Repr

def openOrExit (msg : String) (s : Files ν) : Option ν → Except Failure (ℕ × Files ν)
  | none => .error (.errExit msg)
  | some ns => .ok (s.fresh, s.openFile ns)

def closeOrExit (msg : String) (s : Files ν) (fd : ℕ) : Except Failure (Files ν) :=
  match s.closeFd fd with
  | none => .error (.errExit msg)
  | some s => .ok s

def nsOf (msg : String) (s : Files ν) (fd : ℕ) : Except Failure ν :=
  match s.table fd with
  | none => .error (.errExit msg)
  | some (_, ns) => .ok ns

def nsEqual [DecidableEq ν] (s : Files ν) (nsfd1 nsfd2 : ℕ) : Except Failure Bool :=
  (nsOf "fstat-nsfd1" s nsfd1).bind fun ns1 => (nsOf "fstat-nsfd2" s nsfd2).map fun ns2 => ns1 = ns2

/-- `-1` is `none`. -/
def isAncestorUserns [DecidableEq ν] (k : Kernel ν) (source target : ℕ) :
    ℕ → ℕ → Files ν → Except Failure (Option ℕ × Files ν)
  | 0, _, _ => .error .outOfFuel
  | fuel + 1, child, s =>
    (nsOf "ioctl-NS_GET_PARENT" s child).bind fun ns =>
      match k.parent ns with
      | none =>
        (if child ≠ target then closeOrExit "close(child)" s child else .ok s).map fun s => (none, s)
      | some pns =>
        let parent := s.fresh
        let s := s.openFile pns
        (nsEqual s parent source).bind fun same =>
          if same then (closeOrExit "close(parent)" s parent).map fun s => (some child, s)
          else
            (if child ≠ target then closeOrExit "close(child) [loop]" s child else .ok s).bind fun s =>
              isAncestorUserns k source target fuel parent s

def usernsFromPid (k : Kernel ν) (pid : ℕ) (s : Files ν) : Except Failure (ℕ × Files ν) :=
  openOrExit "open-pid-userns" s (k.userns pid)

def getUsernsFrom (k : Kernel ν) (s : Files ν) : Arg ν → Except Failure (ℕ × Files ν)
  | .pid pid => usernsFromPid k pid s
  | .file ns =>
    (openOrExit "open-ns-file" s ns).bind fun (fd, s) =>
      (nsOf "ioctl-NS_GET_NSTYPE" s fd).bind fun ns =>
        if k.isUser ns then .ok (fd, s)
        else
          (openOrExit "ioctl-NS_GET_USERNS" s (k.owningUserns ns)).bind fun (userns, s) =>
            (closeOrExit "close-ns" s fd).map fun s => (userns, s)

/-- The part of `main` for different namespaces. -/
def ancestorVerdict [DecidableEq ν] (k : Kernel ν) (fuel pid source target : ℕ) (s : Files ν) :
    Except Failure (Verdict × Files ν) :=
  (isAncestorUserns k source target fuel target s).bind fun
    | (none, s) => .ok (.none, s)
    | (some child, s) =>
      (nsOf "ioctl-NS_GET_OWNER_UID" s child).bind fun ns =>
        (if child ≠ target then closeOrExit "close-child_userns" s child else .ok s).map fun s =>
          (if k.euid pid = k.ownerUid ns then Verdict.all else .onlySets, s)

def main [DecidableEq ν] (k : Kernel ν) (fuel pid : ℕ) (arg : Arg ν) (s : Files ν) : Except Failure (Verdict × Files ν) :=
  (usernsFromPid k pid s).bind fun (source, s) =>
    (getUsernsFrom k s arg).bind fun (target, s) =>
      (nsEqual s source target).bind fun same =>
        (if same then .ok (.sets, s) else ancestorVerdict k fuel pid source target s).bind
          fun (verdict, s) =>
            (closeOrExit "close-target_userns" s target).bind fun s =>
              (closeOrExit "close-source_userns" s source).map fun s => (verdict, s)

/-! ## The walk -/

def Arg.userns (k : Kernel ν) : Arg ν → Option ν
  | .pid p => k.userns p
  | .file ns => ns.bind fun ns => if k.isUser ns then some ns else k.owningUserns ns

section Walk

variable {k : Kernel ν} {s t : Files ν} {fd n : ℕ} {a : ν} {msg : String}

theorem nsOf_of_open (h : s.table fd = some (n, a)) : nsOf msg s fd = .ok a := by
  simp [nsOf, h]

theorem closeOrExit_of_open (msg : String) (h : s.table fd = some (n, a)) :
    ∃ t, closeOrExit msg s fd = .ok t ∧ t.table = close s.table fd := by
  obtain ⟨t, ht, htable⟩ := s.closeFd_of_open h
  exact ⟨t, by simp [closeOrExit, ht], htable⟩

theorem nsEqual_of_open [DecidableEq ν] {fd' n' : ℕ} {a' : ν} (h : s.table fd = some (n, a))
    (h' : s.table fd' = some (n', a')) : nsEqual s fd fd' = .ok (decide (a = a')) := by
  simp [nsEqual, nsOf, h, h', Except.bind, Except.map]

/-- The descriptors during the walk: those of `base`, and one for the namespace the walk is at unless
that is still the target's own. -/
inductive Holds (base : Table (ℕ × ν)) (target : ℕ) (s : Files ν) (child : ℕ) (c : ν) : Prop
  | first (hchild : child = target) (htable : s.table = base) (n : ℕ) (hc : base target = some (n, c))
  | later (hchild : child ≠ target) (hfree : base child = none) (n : ℕ)
      (htable : s.table = Function.update base child (some (n, c)))

variable {base : Table (ℕ × ν)} {source target child ns : ℕ} {c src : ν}

theorem Holds.table_child (h : Holds base target s child c) : ∃ n, s.table child = some (n, c) := by
  cases h with
  | first hchild htable n hc => exact ⟨n, by rw [htable, hchild, hc]⟩
  | later _ _ n htable => exact ⟨n, by rw [htable, update_self]⟩

theorem Holds.table_of_base (h : Holds base target s child c) {x : ℕ × ν} (hx : base fd = some x) :
    s.table fd = some x := by
  cases h with
  | first _ htable _ _ => rw [htable, hx]
  | later _ hfree n htable =>
    have hne : fd ≠ child := by
      rintro rfl
      simp [hfree] at hx
    rw [htable, update_of_ne hne, hx]

theorem Holds.release (h : Holds base target s child c) (msg : String) :
    ∃ t, (if child ≠ target then closeOrExit msg s child else .ok s) = .ok t ∧ t.table = base := by
  cases h with
  | first hchild htable n hc => exact ⟨s, if_neg (not_not.mpr hchild), htable⟩
  | later hchild hfree n htable =>
    rw [if_pos hchild]
    have hopen : s.table child = some (n, c) := by rw [htable, update_self]
    obtain ⟨t, ht, htable'⟩ := closeOrExit_of_open msg hopen
    refine ⟨t, ht, ?_⟩
    rw [htable', htable, close, update_idem]
    exact update_eq_self_iff.mpr hfree.symm

theorem Holds.base_fresh (h : Holds base target s child c) : base s.fresh = none := by
  by_contra hne
  obtain ⟨x, hx⟩ := Option.ne_none_iff_exists'.mp hne
  exact absurd (h.table_of_base hx) (by simp [s.table_fresh])

theorem Holds.next (h : Holds base target s child c) (msg : String) (pns : ν)
    (htarget : base target ≠ none) :
    ∃ t, (if child ≠ target then closeOrExit msg (s.openFile pns) child else .ok (s.openFile pns)) =
        .ok t ∧ Holds base target t s.fresh pns := by
  have hfree := h.base_fresh
  have hne : s.fresh ≠ target := fun heq => htarget (heq ▸ hfree)
  cases h with
  | first hchild htable n hc =>
    exact ⟨s.openFile pns, if_neg (not_not.mpr hchild), .later hne hfree s.opened (by rw [← htable]; rfl)⟩
  | later hchild hfree' n htable =>
    rw [if_pos hchild]
    have hcf : child ≠ s.fresh := by
      intro heq
      have hfresh := s.table_fresh
      rw [htable, ← heq, update_self] at hfresh
      cases hfresh
    have hopen : (s.openFile pns).table child = some (n, c) := by
      show Function.update s.table s.fresh _ child = _
      rw [update_of_ne hcf, htable, update_self]
    obtain ⟨t, ht, htable'⟩ := closeOrExit_of_open msg hopen
    refine ⟨t, ht, .later hne hfree s.opened ?_⟩
    rw [htable']
    show Function.update (Function.update s.table s.fresh _) child none = _
    have hback : Function.update base child none = base := update_eq_self_iff.mpr hfree'.symm
    rw [update_comm hcf.symm, htable, update_idem, hback]

/-- What the walk from `c` returns. -/
structure Walked (k : Kernel ν) (base : Table (ℕ × ν)) (target : ℕ) (c src : ν) (r : Option ℕ)
    (t : Files ν) : Prop where
  apart : r = none → t.table = base ∧ ¬ Reaches₁ k.parent c src
  below : ∀ fd, r = some fd →
    ∃ d, Holds base target t fd d ∧ Reaches k.parent c d ∧ k.parent d = some src

theorem walked_up {pns : ν} {r : Option ℕ} (h : Walked k base target pns src r t)
    (hp : k.parent c = some pns) (hne : pns ≠ src) : Walked k base target c src r t where
  apart hr := by
    refine ⟨(h.apart hr).1, fun hreach => (h.apart hr).2 ?_⟩
    obtain ⟨d, hcd, hds⟩ := Relation.TransGen.head'_iff.mp hreach
    obtain rfl := Option.some.inj (hp.symm.trans hcd)
    obtain rfl | hds := Relation.reflTransGen_iff_eq_or_transGen.mp hds
    · exact absurd rfl hne
    · exact hds
  below fd hr := by
    obtain ⟨d, hd, hreach, hds⟩ := h.below fd hr
    exact ⟨d, hd, hreach.head hp, hds⟩

theorem isAncestorUserns_walked [DecidableEq ν] {nodes : Finset ν} (hforest : Forest k.parent nodes)
    (hsource : base source = some (ns, src)) (htarget : base target ≠ none) {fuel : ℕ}
    (h : Holds base target s child c) (hc : c ∈ nodes) (hfuel : depth k.parent nodes c < fuel) :
    ∃ r t, isAncestorUserns k source target fuel child s = .ok (r, t) ∧
      Walked k base target c src r t := by
  induction fuel generalizing s child c with
  | zero => exact absurd hfuel (Nat.not_lt_zero _)
  | succ fuel ih =>
    obtain ⟨n, hn⟩ := h.table_child
    simp only [isAncestorUserns, nsOf_of_open hn, Except.bind]
    cases hp : k.parent c with
    | none =>
      obtain ⟨t, ht, htable⟩ := h.release "close(child)"
      refine ⟨none, t, by simp only [ht, Except.map], fun _ => ⟨htable, fun hreach => ?_⟩, nofun⟩
      obtain ⟨d, hcd, -⟩ := Relation.TransGen.head'_iff.mp hreach
      simp [hp] at hcd
    | some pns =>
      have hparent : (s.openFile pns).table s.fresh = some (s.opened, pns) := update_self ..
      have hsource' : (s.openFile pns).table source = some (ns, src) := by
        show Function.update s.table s.fresh _ source = _
        rw [update_of_ne, h.table_of_base hsource]
        rintro rfl
        simp [h.base_fresh] at hsource
      simp only [nsEqual_of_open hparent hsource']
      by_cases hsame : pns = src
      · -- the walk stays at the child and the parent is closed again
        subst hsame
        obtain ⟨t, ht, htable⟩ := closeOrExit_of_open "close(parent)" hparent
        have hback : t.table = s.table := by
          rw [htable]
          show Function.update (Function.update s.table s.fresh _) s.fresh none = _
          rw [update_idem]
          exact update_eq_self_iff.mpr s.table_fresh.symm
        refine ⟨some child, t, by simp [ht, Except.map], nofun, ?_⟩
        intro fd hfd
        obtain rfl := Option.some.inj hfd
        refine ⟨c, ?_, .refl, hp⟩
        cases h with
        | first hchild htable n hc => exact .first hchild (hback.trans htable) n hc
        | later hchild hfree n htable => exact .later hchild hfree n (hback.trans htable)
      · obtain ⟨t, ht, hnext⟩ := h.next "close(child) [loop]" pns htarget
        have hdepth := hforest.depth_lt hc hp
        obtain ⟨r, u, hu, hwalked⟩ := ih hnext (hforest.closed c hc pns hp) (by omega)
        exact ⟨r, u, by simp [hsame, ht, hu], walked_up hwalked hp hsame⟩

end Walk

/-! ## The verdict -/

/-- The kernel's rule. The namespace whose owner counts is the one on the way up from the target
whose parent is the source's namespace. -/
structure Rule (k : Kernel ν) (src tgt : ν) (euid : ℕ) (v : Verdict) : Prop where
  same : src = tgt → v = .sets
  unrelated : src ≠ tgt → ¬ Reaches₁ k.parent tgt src → v = .none
  ancestor : src ≠ tgt → Reaches₁ k.parent tgt src →
    ∃ c, (Reaches k.parent tgt c ∧ k.parent c = some src ∧
        ∀ d, Reaches k.parent tgt d → k.parent d = some src → d = c) ∧
      v = if euid = k.ownerUid c then .all else .onlySets

section Main

variable {k : Kernel ν} {s t : Files ν} {nodes : Finset ν} {src tgt c d : ν}

theorem ancestorVerdict_rule [DecidableEq ν] (hforest : Forest k.parent nodes) (htgt : tgt ∈ nodes)
    (pid : ℕ) {fuel source target n m : ℕ} (hsource : s.table source = some (n, src))
    (htarget : s.table target = some (m, tgt)) (hne : src ≠ tgt) (hfuel : nodes.card < fuel) :
    ∃ v t, ancestorVerdict k fuel pid source target s = .ok (v, t) ∧ t.table = s.table ∧
      Rule k src tgt (k.euid pid) v := by
  have hfirst : Holds s.table target s target tgt := .first rfl rfl m htarget
  obtain ⟨r, u, hu, hwalked⟩ := isAncestorUserns_walked hforest hsource (by simp [htarget]) hfirst htgt
    ((depth_le k.parent nodes tgt).trans_lt hfuel)
  simp only [ancestorVerdict, hu, Except.bind]
  cases r with
  | none =>
    obtain ⟨htable, hapart⟩ := hwalked.apart rfl
    refine ⟨.none, u, rfl, htable, fun heq => absurd heq hne, fun _ _ => rfl, fun _ hreach => ?_⟩
    exact absurd hreach hapart
  | some child =>
    obtain ⟨c, hholds, hreach, hcs⟩ := hwalked.below child rfl
    obtain ⟨i, hi⟩ := hholds.table_child
    obtain ⟨t, ht, htable⟩ := hholds.release "close-child_userns"
    have hacyclic := hforest.acyclic src (hforest.closed c (hforest.reaches_mem htgt hreach) src hcs)
    refine ⟨_, t, by simp only [nsOf_of_open hi, ht, Except.map]; rfl, htable, fun heq => absurd heq hne,
      fun _ hnot => ?_, fun _ _ => ?_⟩
    · exact absurd (Relation.TransGen.tail' hreach hcs) hnot
    · -- there is one namespace below the source's on the way up from the target
      exact ⟨c, ⟨hreach, hcs, fun d hd hds => child_unique hacyclic hds hcs hd hreach⟩, rfl⟩

def Opens (s : Files ν) (fd : ℕ) (a : ν) (t : Files ν) : Prop :=
  s.table fd = none ∧ ∃ n, t.table = Function.update s.table fd (some (n, a))

theorem opens_openFile (s : Files ν) (a : ν) : Opens s s.fresh a (s.openFile a) :=
  ⟨s.table_fresh, s.opened, rfl⟩

theorem Opens.close {fd : ℕ} {a : ν} (h : Opens s fd a t) {t' : Files ν} (ht : t'.table = t.table)
    (msg : String) : ∃ u, closeOrExit msg t' fd = .ok u ∧ u.table = s.table := by
  obtain ⟨hfree, n, htable⟩ := h
  have hopen : t'.table fd = some (n, a) := by rw [ht, htable, update_self]
  obtain ⟨u, hu, hutable⟩ := closeOrExit_of_open msg hopen
  refine ⟨u, hu, ?_⟩
  rw [hutable, ht, htable, Descriptors.close, update_idem]
  exact update_eq_self_iff.mpr hfree.symm

theorem getUsernsFrom_opens {arg : Arg ν} (h : arg.userns k = some tgt) :
    ∃ fd t, getUsernsFrom k s arg = .ok (fd, t) ∧ Opens s fd tgt t := by
  cases arg with
  | pid p =>
    have h : k.userns p = some tgt := h
    exact ⟨_, _, by simp only [getUsernsFrom, usernsFromPid, h, openOrExit], opens_openFile s tgt⟩
  | file ns =>
    obtain ⟨a, rfl, hns⟩ := Option.bind_eq_some_iff.mp h
    have hfd : (s.openFile a).table s.fresh = some (s.opened, a) := update_self ..
    simp only [getUsernsFrom, openOrExit, Except.bind, nsOf_of_open hfd]
    by_cases huser : k.isUser a = true
    · rw [if_pos huser] at hns ⊢
      obtain rfl := Option.some.inj hns
      exact ⟨_, _, rfl, opens_openFile s a⟩
    · -- the descriptor of the nonuser namespace is closed again
      rw [if_neg huser] at hns ⊢
      have hne : s.fresh ≠ (s.openFile a).fresh := by
        intro heq
        have hfree := (s.openFile a).table_fresh
        rw [← heq, hfd] at hfree
        cases hfree
      have hfd' : ((s.openFile a).openFile tgt).table s.fresh = some (s.opened, a) := by
        show Function.update (s.openFile a).table (s.openFile a).fresh _ s.fresh = _
        rw [update_of_ne hne, hfd]
      obtain ⟨t, ht, htable⟩ := closeOrExit_of_open "close-ns" hfd'
      refine ⟨(s.openFile a).fresh, t, by simp [hns, ht, Except.map], ?_, (s.openFile a).opened, ?_⟩
      · have hfree := (s.openFile a).table_fresh
        rwa [show (s.openFile a).table = Function.update s.table s.fresh (some (s.opened, a)) from rfl,
          update_of_ne hne.symm] at hfree
      · have hback : Function.update s.table s.fresh none = s.table :=
          update_eq_self_iff.mpr s.table_fresh.symm
        rw [htable]
        show Function.update (Function.update (Function.update s.table s.fresh _) _ _) s.fresh none = _
        rw [update_comm hne.symm, update_idem, hback]

/-- The verdict is the kernel's rule, and the table of descriptors is in the end what it was, with
every file opened on the way closed once. -/
theorem verdict_rule [DecidableEq ν] (k : Kernel ν) (nodes : Finset ν) (hforest : Forest k.parent nodes)
    (pid : ℕ) (arg : Arg ν) (src tgt : ν) (hsrc : k.userns pid = some src)
    (htgt : arg.userns k = some tgt) (hmem : tgt ∈ nodes) (s : Files ν) (fuel : ℕ)
    (hfuel : nodes.card < fuel) :
    ∃ v t, main k fuel pid arg s = .ok (v, t) ∧ Rule k src tgt (k.euid pid) v ∧ t.table = s.table ∧
      ∀ n, s.opened ≤ n → n < t.opened → t.closed.count n = 1 := by
  have hsource := opens_openFile s src
  obtain ⟨target, s₂, hs₂, htarget⟩ := getUsernsFrom_opens (k := k) (s := s.openFile src) htgt
  obtain ⟨hfree, m, hs₂table⟩ := htarget
  have htopen : s₂.table target = some (m, tgt) := by rw [hs₂table, update_self]
  have hsopen : s₂.table s.fresh = some (s.opened, src) := by
    have hself : (s.openFile src).table s.fresh = some (s.opened, src) := update_self ..
    rw [hs₂table, update_of_ne, hself]
    rintro rfl
    simp [hfree] at hself
  have hverdict : ∃ v t, (if (decide (src = tgt)) = true then .ok (.sets, s₂)
      else ancestorVerdict k fuel pid s.fresh target s₂) = .ok (v, t) ∧ t.table = s₂.table ∧
      Rule k src tgt (k.euid pid) v := by
    by_cases hsame : src = tgt
    · exact ⟨.sets, s₂, by simp [hsame], rfl, fun _ => rfl, fun hne => absurd hsame hne,
        fun hne => absurd hsame hne⟩
    · obtain ⟨v, t, ht, hrest⟩ := ancestorVerdict_rule hforest hmem pid hsopen htopen hsame hfuel
      exact ⟨v, t, by simp [hsame, ht], hrest⟩
  obtain ⟨v, s₃, hs₃, hs₃table, hrule⟩ := hverdict
  obtain ⟨s₄, hs₄, hs₄table⟩ := Opens.close ⟨hfree, m, hs₂table⟩ hs₃table "close-target_userns"
  obtain ⟨t, ht, httable⟩ := hsource.close hs₄table "close-source_userns"
  refine ⟨v, t, ?_, hrule, httable, fun n hn hn' => ?_⟩
  · simp only [main, usernsFromPid, hsrc, openOrExit, Except.bind, hs₂, nsEqual_of_open hsopen htopen, hs₃,
      hs₄, ht, Except.map]
  · exact List.count_eq_one_of_mem t.once (Files.closed_of_same_table httable hn hn')

end Main

/-- Namespace 0 is the initial one, 1 is its child owned by user 1000, and 2 is a child of 1. -/
def sample : Kernel ℕ where
  isUser n := n ≤ 2
  parent n := if n = 1 then some 0 else if n = 2 then some 1 else none
  owningUserns _ := some 2
  ownerUid n := if n = 1 then 1000 else 0
  userns pid := if pid = 1 then some 0 else some 2
  euid _ := 1000

def noFiles : Files ℕ where
  table _ := none
  bound := 0
  opened := 0
  closed := []
  finite _ _ := rfl
  live := by simp
  one := by simp
  once := List.nodup_nil
  past := by simp
  accounted := by simp

theorem sample_parent {a b : ℕ} (h : sample.parent a = some b) : a = 1 ∧ b = 0 ∨ a = 2 ∧ b = 1 := by
  simp only [sample] at h
  split at h
  · exact .inl ⟨‹_›, (Option.some.inj h).symm⟩
  · split at h
    · exact .inr ⟨‹_›, (Option.some.inj h).symm⟩
    · cases h

theorem sample_forest : Forest sample.parent {0, 1, 2} := by
  refine forest_of_rank id ?_ ?_
  · intro a _ b hab
    obtain ⟨-, rfl⟩ | ⟨-, rfl⟩ := sample_parent hab <;> decide
  · intro a b hab
    obtain ⟨rfl, rfl⟩ | ⟨rfl, rfl⟩ := sample_parent hab <;> decide

/-- Process 1 against a network namespace that belongs to 2: the walk passes 2 and stops at 1. -/
theorem verdict_rule_grandparent :
    ∃ t, main sample 4 1 (.file (some 7)) noFiles = .ok (.all, t) ∧ t.table = noFiles.table ∧
      ∀ n, n < t.opened → t.closed.count n = 1 := by
  obtain ⟨v, t, ht, hrule, htable, hclosed⟩ := verdict_rule sample {0, 1, 2} sample_forest 1
    (.file (some 7)) 0 2 rfl rfl (by decide) noFiles 4 (by decide)
  have hreach : Reaches sample.parent 2 1 := .single rfl
  obtain ⟨c, ⟨-, -, hone⟩, hv⟩ := hrule.ancestor (by decide) (Relation.TransGen.tail' hreach rfl)
  obtain rfl := hone 1 hreach rfl
  obtain rfl : v = .all := hv
  exact ⟨t, ht, htable, fun n => hclosed n (Nat.zero_le n)⟩

end NsCapable
