import LinuxProgramming.ParentForests

/-! # The namespace forest of `namespaces_of.go`

`addNamespace` makes entries for a namespace and all its ancestors and links each one to its parent
or owner; nonuser namespaces whose owner is not visible are linked to a special entry. The display
follows the links from the root and then from the special entry. -/
namespace NamespaceForest

open ParentForests StateTransition Function

/-- Device and inode number. -/
abbrev NamespaceID := ℕ × ℕ

def invisUserNS : NamespaceID := (0, 0)

def cloneNewuser : ℕ := 0x10000000

structure Namespace where
  nsType : ℕ
  pids : List ℤ
  children : List NamespaceID
  creatorUID : ℕ
  deriving DecidableEq, Repr

/-- What the `ioctl` operations report; no parent or owner means `EPERM`. -/
structure Kernel where
  nsType : NamespaceID → ℕ
  getUserns : NamespaceID → Option NamespaceID
  getParent : NamespaceID → Option NamespaceID
  ownerUID : NamespaceID → ℕ

/-- `subtree` is the namespace of the process given with `--subtree`. -/
structure Options where
  showPidnsHierarchy : Bool
  namespaces : ℕ
  subtree : Option NamespaceID
  deriving DecidableEq, Repr

structure NamespaceInfo where
  nsList : NamespaceID → Option Namespace
  rootNS : NamespaceID

def ioctlGet (k : Kernel) (opts : Options) (nsid : NamespaceID) : Option NamespaceID :=
  if opts.showPidnsHierarchy then k.getParent nsid else k.getUserns nsid

def newEntry (k : Kernel) (nsid : NamespaceID) : Namespace :=
  ⟨k.nsType nsid, [], [], if k.nsType nsid = cloneNewuser then k.ownerUID nsid else 0⟩

def invisEntry : Namespace := ⟨cloneNewuser, [], [], 0⟩

namespace NamespaceInfo

def has (nsi : NamespaceInfo) (nsid : NamespaceID) : Prop := (nsi.nsList nsid).isSome = true

instance (nsi : NamespaceInfo) (nsid : NamespaceID) : Decidable (nsi.has nsid) :=
  inferInstanceAs (Decidable (_ = true))

def put (nsi : NamespaceInfo) (nsid : NamespaceID) (ns : Namespace) : NamespaceInfo :=
  { nsi with nsList := Function.update nsi.nsList nsid (some ns) }

/-- A change of an entry; without the entry a nil pointer is followed. -/
def modify (nsi : NamespaceInfo) (nsid : NamespaceID) (f : Namespace → Namespace) : Option NamespaceInfo :=
  (nsi.nsList nsid).map fun ns => nsi.put nsid (f ns)

def addChild (nsi : NamespaceInfo) (parent child : NamespaceID) : Option NamespaceInfo :=
  nsi.modify parent fun ns => { ns with children := ns.children ++ [child] }

def addPid (nsi : NamespaceInfo) (nsid : NamespaceID) (pid : ℤ) : Option NamespaceInfo :=
  if pid > 0 then nsi.modify nsid fun ns => { ns with pids := ns.pids ++ [pid] } else some nsi

def withInvis (nsi : NamespaceInfo) : NamespaceInfo :=
  if nsi.has invisUserNS then nsi else nsi.put invisUserNS invisEntry

end NamespaceInfo

/-- `add` is the recursive call. -/
def addNamespaceToList (k : Kernel) (opts : Options)
    (add : NamespaceInfo → NamespaceID → ℤ → Option NamespaceInfo) (nsi : NamespaceInfo)
    (nsid : NamespaceID) : Option NamespaceInfo :=
  let nsi := nsi.put nsid (newEntry k nsid)
  match ioctlGet k opts nsid with
  | none =>
    if k.nsType nsid = cloneNewuser ∨ opts.showPidnsHierarchy then some { nsi with rootNS := nsid }
    else nsi.withInvis.addChild invisUserNS nsid
  | some parent => (add nsi parent (-1)).bind fun nsi => nsi.addChild parent nsid

def addNamespace (k : Kernel) (opts : Options) :
    ℕ → NamespaceInfo → NamespaceID → ℤ → Option NamespaceInfo
  | 0, _, _, _ => none
  | fuel + 1, nsi, nsid, pid =>
    (if nsi.has nsid then some nsi else addNamespaceToList k opts (addNamespace k opts fuel) nsi nsid).bind
      fun nsi => nsi.addPid nsid pid

/-- The calls of one scan, each with the process that is a member. -/
def addAll (k : Kernel) (opts : Options) (fuel : ℕ) (nsi : NamespaceInfo) :
    List (NamespaceID × ℤ) → Option NamespaceInfo
  | [] => some nsi
  | (nsid, pid) :: calls => (addNamespace k opts fuel nsi nsid pid).bind fun nsi => addAll k opts fuel nsi calls

def empty : NamespaceInfo := ⟨fun _ => none, (0, 0)⟩

structure Visit where
  nsid : NamespaceID
  level : ℕ
  shown : Bool
  deriving DecidableEq, Repr

def displayNamespaceTree (nsi : NamespaceInfo) (opts : Options) :
    ℕ → ℕ → NamespaceID → Option (List Visit)
  | 0, _, _ => none
  | fuel + 1, level, nsid =>
    (nsi.nsList nsid).bind fun ns =>
      (visitAll (displayNamespaceTree nsi opts fuel (level + 1)) ns.children).map
        (⟨nsid, level, ns.nsType = cloneNewuser ∨ ns.nsType &&& opts.namespaces ≠ 0⟩ :: ·)

def displayNamespaceHierarchies (nsi : NamespaceInfo) (opts : Options) (fuel : ℕ) : Option (List Visit) :=
  match opts.subtree with
  | some nsid => displayNamespaceTree nsi opts fuel 0 nsid
  | none =>
    (displayNamespaceTree nsi opts fuel 0 nsi.rootNS).bind fun visits =>
      if nsi.has invisUserNS then
        (displayNamespaceTree nsi opts fuel 0 invisUserNS).map (visits ++ ·)
      else some visits

/-! ## Where a namespace belongs -/

def Root (k : Kernel) (opts : Options) (nsid : NamespaceID) : Prop :=
  ioctlGet k opts nsid = none ∧ (k.nsType nsid = cloneNewuser ∨ opts.showPidnsHierarchy = true)

def Orphan (k : Kernel) (opts : Options) (nsid : NamespaceID) : Prop :=
  ioctlGet k opts nsid = none ∧ ¬ (k.nsType nsid = cloneNewuser ∨ opts.showPidnsHierarchy = true)

def place (k : Kernel) (opts : Options) (nsid : NamespaceID) : Option NamespaceID :=
  if nsid = invisUserNS then none
  else match ioctlGet k opts nsid with
    | some parent => some parent
    | none => if k.nsType nsid = cloneNewuser ∨ opts.showPidnsHierarchy then none else some invisUserNS

section Place

variable {k : Kernel} {opts : Options} {nsid parent : NamespaceID}

@[simp] theorem place_invis : place k opts invisUserNS = none := if_pos rfl

theorem place_of_parent (hne : nsid ≠ invisUserNS) (h : ioctlGet k opts nsid = some parent) :
    place k opts nsid = some parent := by
  simp [place, hne, h]

theorem place_of_orphan (hne : nsid ≠ invisUserNS) (h : Orphan k opts nsid) :
    place k opts nsid = some invisUserNS := by
  simp only [place, hne, h.1, if_false]
  exact if_neg h.2

theorem place_of_root (h : Root k opts nsid) : place k opts nsid = none := by
  unfold place
  split
  · rfl
  · rw [h.1]
    exact if_pos h.2

/-- A namespace belongs to its parent or owner, to the special entry, or is the root. -/
theorem place_cases (k : Kernel) (opts : Options) (hne : nsid ≠ invisUserNS) :
    (∃ parent, ioctlGet k opts nsid = some parent ∧ place k opts nsid = some parent) ∨
    (Orphan k opts nsid ∧ place k opts nsid = some invisUserNS) ∨
    (Root k opts nsid ∧ place k opts nsid = none) := by
  cases hparent : ioctlGet k opts nsid with
  | some parent => exact .inl ⟨parent, rfl, place_of_parent hne hparent⟩
  | none =>
    by_cases htop : k.nsType nsid = cloneNewuser ∨ opts.showPidnsHierarchy = true
    · exact .inr (.inr ⟨⟨hparent, htop⟩, place_of_root ⟨hparent, htop⟩⟩)
    · exact .inr (.inl ⟨⟨hparent, htop⟩, place_of_orphan hne ⟨hparent, htop⟩⟩)

end Place

/-! ## Entries that a call does not touch -/

section Frame

variable {k : Kernel} {opts : Options} {nsi : NamespaceInfo} {x y : NamespaceID} {ns : Namespace}

theorem put_nsList_ne (h : y ≠ x) : (nsi.put x ns).nsList y = nsi.nsList y := update_of_ne h ..

theorem put_has_ne (h : y ≠ x) : (nsi.put x ns).has y ↔ nsi.has y := by
  rw [NamespaceInfo.has, put_nsList_ne h]
  rfl

theorem put_put (h : y ≠ x) (ns' : Namespace) : (nsi.put x ns).put y ns' = (nsi.put y ns').put x ns := by
  simp only [NamespaceInfo.put]
  rw [update_comm h.symm]

theorem modify_put (h : y ≠ x) (f : Namespace → Namespace) :
    (nsi.put x ns).modify y f = (nsi.modify y f).map (·.put x ns) := by
  simp only [NamespaceInfo.modify, put_nsList_ne h]
  cases nsi.nsList y with
  | none => rfl
  | some ns' => exact congrArg some (put_put h _)

theorem addPid_put (h : y ≠ x) (pid : ℤ) :
    (nsi.put x ns).addPid y pid = (nsi.addPid y pid).map (·.put x ns) := by
  unfold NamespaceInfo.addPid
  split
  · exact modify_put h _
  · rfl

theorem withInvis_put (h : x ≠ invisUserNS) : (nsi.put x ns).withInvis = nsi.withInvis.put x ns := by
  unfold NamespaceInfo.withInvis
  by_cases hinvis : nsi.has invisUserNS
  · rw [if_pos hinvis, if_pos ((put_has_ne h.symm).mpr hinvis)]
  · rw [if_neg hinvis, if_neg (mt (put_has_ne h.symm).mp hinvis)]
    exact put_put h.symm _

theorem addNamespaceToList_put {add : NamespaceInfo → NamespaceID → ℤ → Option NamespaceInfo}
    (hx : x ≠ invisUserNS) (hy : y ≠ x)
    (hadd : ∀ nsi parent, ioctlGet k opts y = some parent →
      add (nsi.put x ns) parent (-1) = (add nsi parent (-1)).map (·.put x ns))
    (hparent : ∀ parent, ioctlGet k opts y = some parent → parent ≠ x) :
    addNamespaceToList k opts add (nsi.put x ns) y =
      (addNamespaceToList k opts add nsi y).map (·.put x ns) := by
  unfold addNamespaceToList
  rw [put_put hy]
  cases h : ioctlGet k opts y with
  | none =>
    dsimp only
    split
    · rfl
    · rw [withInvis_put hx]
      exact modify_put hx.symm _
  | some parent =>
    dsimp only
    rw [hadd _ parent h]
    cases add (nsi.put y (newEntry k y)) parent (-1) with
    | none => rfl
    | some t => exact modify_put (hparent parent h) _

/-- A call for `y` does not touch an entry outside of the ancestors of `y`. -/
theorem addNamespace_put (hx : x ≠ invisUserNS) (fuel : ℕ) (nsi : NamespaceInfo) (y : NamespaceID)
    (pid : ℤ) (hy : ¬ Reaches (ioctlGet k opts) y x) :
    addNamespace k opts fuel (nsi.put x ns) y pid =
      (addNamespace k opts fuel nsi y pid).map (·.put x ns) := by
  induction fuel generalizing nsi y pid with
  | zero => rfl
  | succ fuel ih =>
    have hne : y ≠ x := by
      rintro rfl
      exact hy .refl
    have hup : ∀ parent, ioctlGet k opts y = some parent → ¬ Reaches (ioctlGet k opts) parent x :=
      fun parent h hreach => hy (hreach.head h)
    simp only [addNamespace]
    by_cases hhas : nsi.has y
    · rw [if_pos hhas, if_pos ((put_has_ne hne).mpr hhas)]
      exact addPid_put hne pid
    · rw [if_neg hhas, if_neg (mt (put_has_ne hne).mp hhas)]
      rw [addNamespaceToList_put hx hne (fun nsi parent h => ih nsi parent (-1) (hup parent h))
        fun parent h heq => hup parent h (heq ▸ .refl)]
      cases addNamespaceToList k opts (addNamespace k opts fuel) nsi y with
      | none => rfl
      | some t => exact addPid_put hne pid

end Frame

/-! ## The list after each call -/

def NamespaceInfo.kids (nsi : NamespaceInfo) (nsid : NamespaceID) : Option (List NamespaceID) :=
  (nsi.nsList nsid).map Namespace.children

/-- Every entry is among the children of the entry it belongs to. -/
structure Linked (k : Kernel) (opts : Options) (nodes : Finset NamespaceID) (nsi : NamespaceInfo) :
    Prop where
  known : ∀ x, nsi.has x → x ≠ invisUserNS → x ∈ nodes
  closed : ∀ x q, nsi.has x → place k opts x = some q → nsi.has q
  children : ∀ q cs, nsi.kids q = some cs → cs.Nodup ∧ ∀ x, x ∈ cs ↔ nsi.has x ∧ place k opts x = some q
  root : ∀ x, nsi.has x → x ≠ invisUserNS → Root k opts x → nsi.rootNS = x
  unset : (∀ x, nsi.has x → x ≠ invisUserNS → ¬ Root k opts x) → nsi.rootNS = invisUserNS

structure Faithful (k : Kernel) (opts : Options) (nodes : Finset NamespaceID) (nsi : NamespaceInfo) :
    Prop extends Linked k opts nodes nsi where
  special : nsi.has invisUserNS → ∃ x, nsi.has x ∧ x ≠ invisUserNS ∧ Orphan k opts x

section Calls

variable {k : Kernel} {opts : Options} {nodes : Finset NamespaceID} {nsi : NamespaceInfo}
  {x y q : NamespaceID} {ns : Namespace}

theorem has_iff_kids : nsi.has x ↔ ∃ cs, nsi.kids x = some cs := by
  unfold NamespaceInfo.has NamespaceInfo.kids
  cases nsi.nsList x <;> simp

theorem put_kids (nsi : NamespaceInfo) (x : NamespaceID) (ns : Namespace) :
    (nsi.put x ns).kids = Function.update nsi.kids x (some ns.children) := by
  funext y
  by_cases h : y = x
  · simp [NamespaceInfo.kids, NamespaceInfo.put, h]
  · simp [NamespaceInfo.kids, NamespaceInfo.put, h]

theorem has_put : (nsi.put x ns).has y ↔ y = x ∨ nsi.has y := by
  by_cases h : y = x
  · simp [NamespaceInfo.has, NamespaceInfo.put, h]
  · simp [put_has_ne h, h]

theorem faithful_empty (k : Kernel) (opts : Options) : Faithful k opts nodes empty where
  known x h := by simp [NamespaceInfo.has, empty] at h
  closed x q h := by simp [NamespaceInfo.has, empty] at h
  children q cs h := by simp [NamespaceInfo.kids, empty] at h
  root x h := by simp [NamespaceInfo.has, empty] at h
  unset _ := rfl
  special h := by simp [NamespaceInfo.has, empty] at h

theorem Faithful.congr (h : Faithful k opts nodes nsi) {t : NamespaceInfo} (hkids : t.kids = nsi.kids)
    (hroot : t.rootNS = nsi.rootNS) : Faithful k opts nodes t := by
  have hhas : ∀ x, t.has x ↔ nsi.has x := fun x => by rw [has_iff_kids, has_iff_kids, hkids]
  constructor
  · constructor
    · simpa only [hhas] using h.known
    · simpa only [hhas] using h.closed
    · simpa only [hhas, hkids] using h.children
    · simpa only [hhas, hroot] using h.root
    · simpa only [hhas, hroot] using h.unset
  · simpa only [hhas] using h.special

theorem Faithful.addPid (h : Faithful k opts nodes nsi) (hx : nsi.has x) (pid : ℤ) :
    ∃ t, nsi.addPid x pid = some t ∧ Faithful k opts nodes t ∧ ∀ y, t.has y ↔ nsi.has y := by
  unfold NamespaceInfo.addPid
  split
  · obtain ⟨ns, hns⟩ := Option.isSome_iff_exists.mp hx
    refine ⟨_, by rw [NamespaceInfo.modify, hns]; rfl, ?_, fun y => ?_⟩
    · refine h.congr ?_ rfl
      rw [put_kids]
      exact update_eq_self_iff.mpr (by simp [NamespaceInfo.kids, hns])
    · rw [has_put]
      constructor
      · rintro (rfl | hy)
        · exact hx
        · exact hy
      · exact .inr
  · exact ⟨nsi, rfl, h, fun _ => .rfl⟩

/-- After an entry without children is put in, every list is still that of the entries before it. -/
theorem Linked.children_put (h : Linked k opts nodes nsi) (hnew : ¬ nsi.has x) (hns : ns.children = [])
    {cs : List NamespaceID} (hcs : (nsi.put x ns).kids q = some cs) :
    cs.Nodup ∧ ∀ y, y ∈ cs ↔ nsi.has y ∧ place k opts y = some q := by
  rw [put_kids] at hcs
  by_cases hq : q = x
  · subst hq
    rw [update_self, hns] at hcs
    obtain rfl := Option.some.inj hcs
    refine ⟨List.nodup_nil, fun y => ⟨fun hy => absurd hy List.not_mem_nil, ?_⟩⟩
    rintro ⟨hy, hplace⟩
    exact absurd (h.closed y q hy hplace) hnew
  · rw [update_of_ne hq] at hcs
    exact h.children q cs hcs

theorem Linked.children_put_top (h : Linked k opts nodes nsi) (hnew : ¬ nsi.has x)
    (hplace : place k opts x = none) (hns : ns.children = []) {cs : List NamespaceID}
    (hcs : (nsi.put x ns).kids q = some cs) :
    cs.Nodup ∧ ∀ y, y ∈ cs ↔ (nsi.put x ns).has y ∧ place k opts y = some q := by
  obtain ⟨hnodup, hmem⟩ := h.children_put hnew hns hcs
  refine ⟨hnodup, fun y => (hmem y).trans ⟨fun hy => ⟨has_put.mpr (.inr hy.1), hy.2⟩, ?_⟩⟩
  rintro ⟨hy, hp⟩
  obtain rfl | hy := has_put.mp hy
  · simp [hplace] at hp
  · exact ⟨hy, hp⟩

theorem Linked.withInvis (h : Linked k opts nodes nsi) :
    Linked k opts nodes nsi.withInvis ∧ ∀ y, nsi.withInvis.has y ↔ y = invisUserNS ∨ nsi.has y := by
  unfold NamespaceInfo.withInvis
  split
  · rename_i hinvis
    refine ⟨h, fun y => ⟨.inr, ?_⟩⟩
    rintro (rfl | hy)
    · exact hinvis
    · exact hy
  · rename_i hinvis
    refine ⟨?_, fun y => has_put⟩
    constructor
    · intro x hx hne
      exact h.known x ((has_put.mp hx).resolve_left hne) hne
    · intro x q hx hq
      obtain rfl | hx := has_put.mp hx
      · simp at hq
      · exact has_put.mpr (.inr (h.closed x q hx hq))
    · exact fun q cs hcs => h.children_put_top hinvis (by simp) rfl hcs
    · intro x hx hne
      exact h.root x ((has_put.mp hx).resolve_left hne) hne
    · intro hnone
      exact h.unset fun x hx hne => hnone x (has_put.mpr (.inr hx)) hne

theorem Linked.link (h : Linked k opts nodes nsi) (hnew : ¬ nsi.has x) (hx : x ∈ nodes)
    (hne : x ≠ invisUserNS) (hplace : place k opts x = some q) (hq : nsi.has q) :
    ∃ t, (nsi.put x (newEntry k x)).addChild q x = some t ∧ Linked k opts nodes t ∧
      ∀ y, t.has y ↔ y = x ∨ nsi.has y := by
  have hqx : q ≠ x := by
    rintro rfl
    exact hnew hq
  obtain ⟨ns, hns⟩ := Option.isSome_iff_exists.mp hq
  have hkq : nsi.kids q = some ns.children := by simp [NamespaceInfo.kids, hns]
  have hhas : ∀ y, ((nsi.put x (newEntry k x)).put q
      { ns with children := ns.children ++ [x] }).has y ↔ y = x ∨ nsi.has y := by
    intro y
    rw [has_put, has_put]
    constructor
    · rintro (rfl | hy)
      · exact .inr hq
      · exact hy
    · exact .inr
  have hroot : ¬ Root k opts x := fun hr => by simp [place_of_root hr] at hplace
  refine ⟨_, by rw [NamespaceInfo.addChild, NamespaceInfo.modify, put_nsList_ne hqx, hns]; rfl, ?_, hhas⟩
  constructor
  · intro y hy hy'
    obtain rfl | hy := (hhas y).mp hy
    · exact hx
    · exact h.known y hy hy'
  · intro y r hy hr
    rw [hhas]
    obtain rfl | hy := (hhas y).mp hy
    · obtain rfl := Option.some.inj (hplace.symm.trans hr)
      exact .inr hq
    · exact .inr (h.closed y r hy hr)
  · intro r cs hcs
    simp only [hhas]
    rw [put_kids] at hcs
    by_cases hrq : r = q
    · -- the list that the new entry is added to
      subst hrq
      rw [update_self] at hcs
      obtain rfl := Option.some.inj hcs
      obtain ⟨hnodup, hmem⟩ := h.children r ns.children hkq
      constructor
      · refine List.nodup_append.mpr ⟨hnodup, List.nodup_singleton x, ?_⟩
        intro y hy z hz heq
        obtain rfl := List.mem_singleton.mp hz
        exact hnew (heq ▸ ((hmem y).mp hy).1)
      · intro y
        rw [List.mem_append, List.mem_singleton, hmem]
        constructor
        · rintro (⟨hy, hp⟩ | rfl)
          · exact ⟨.inr hy, hp⟩
          · exact ⟨.inl rfl, hplace⟩
        · rintro ⟨rfl | hy, hp⟩
          · exact .inr rfl
          · exact .inl ⟨hy, hp⟩
    · rw [update_of_ne hrq] at hcs
      obtain ⟨hnodup, hmem⟩ := h.children_put hnew rfl hcs
      refine ⟨hnodup, fun y => (hmem y).trans ⟨fun hy => ⟨.inr hy.1, hy.2⟩, ?_⟩⟩
      rintro ⟨rfl | hy, hp⟩
      · exact absurd (Option.some.inj (hp.symm.trans hplace)) hrq
      · exact ⟨hy, hp⟩
  · intro y hy hy' hr
    obtain rfl | hy := (hhas y).mp hy
    · exact absurd hr hroot
    · exact h.root y hy hy' hr
  · intro hnone
    exact h.unset fun y hy hy' => hnone y ((hhas y).mpr (.inr hy)) hy'

theorem Linked.addRoot (h : Linked k opts nodes nsi) (hnew : ¬ nsi.has x) (hx : x ∈ nodes)
    (hne : x ≠ invisUserNS) (hroot : Root k opts x)
    (hone : ∀ y ∈ nodes, Root k opts y → y = x) :
    Linked k opts nodes { nsi.put x (newEntry k x) with rootNS := x } := by
  have hhas : ∀ y, NamespaceInfo.has { nsi.put x (newEntry k x) with rootNS := x } y ↔ y = x ∨ nsi.has y :=
    fun y => has_put
  have hplace := place_of_root hroot
  constructor
  · intro y hy hy'
    obtain rfl | hy := (hhas y).mp hy
    · exact hx
    · exact h.known y hy hy'
  · intro y r hy hr
    rw [hhas]
    obtain rfl | hy := (hhas y).mp hy
    · simp [hplace] at hr
    · exact .inr (h.closed y r hy hr)
  · exact fun r cs hcs => h.children_put_top hnew hplace rfl hcs
  · intro y hy hy' hr
    obtain rfl | hy := (hhas y).mp hy
    · rfl
    · exact (hone y (h.known y hy hy') hr).symm
  · intro hnone
    exact absurd hroot (hnone x ((hhas x).mpr (.inl rfl)) hne)

/-- The namespaces that the scan may meet. -/
structure World (k : Kernel) (opts : Options) (nodes : Finset NamespaceID) : Prop where
  forest : Forest (ioctlGet k opts) nodes
  real : invisUserNS ∉ nodes
  root : ∃ r ∈ nodes, Root k opts r ∧ ∀ y ∈ nodes, Root k opts y → y = r

theorem World.ne_invis (hw : World k opts nodes) (hx : x ∈ nodes) : x ≠ invisUserNS :=
  fun heq => hw.real (heq ▸ hx)

theorem World.unique (hw : World k opts nodes) (hx : x ∈ nodes) (hroot : Root k opts x) :
    ∀ y ∈ nodes, Root k opts y → y = x := by
  obtain ⟨r, -, -, hone⟩ := hw.root
  intro y hy hyroot
  rw [hone y hy hyroot, hone x hx hroot]

theorem Linked.reaches (h : Linked k opts nodes nsi) (hw : World k opts nodes) (hx : nsi.has x)
    (hmem : x ∈ nodes) (hxy : Reaches (ioctlGet k opts) x y) : nsi.has y := by
  induction hxy with
  | refl => exact hx
  | tail hxz hstep ih =>
    have hz := hw.forest.reaches_mem hmem hxz
    exact h.closed _ _ ih (place_of_parent (hw.ne_invis hz) hstep)

/-- What a call for `x` achieves. -/
structure Added (k : Kernel) (opts : Options) (nodes : Finset NamespaceID) (nsi : NamespaceInfo)
    (x : NamespaceID) (t : NamespaceInfo) : Prop where
  faithful : Faithful k opts nodes t
  entries : ∀ y, y ≠ invisUserNS → (t.has y ↔ nsi.has y ∨ Reaches (ioctlGet k opts) x y)

theorem added_root (h : Faithful k opts nodes nsi) (hw : World k opts nodes) (hnew : ¬ nsi.has x)
    (hx : x ∈ nodes) (hroot : Root k opts x) :
    Added k opts nodes nsi x { nsi.put x (newEntry k x) with rootNS := x } where
  faithful := by
    refine ⟨h.toLinked.addRoot hnew hx (hw.ne_invis hx) hroot (hw.unique hx hroot), fun hinvis => ?_⟩
    have hinvis := (has_put.mp hinvis).resolve_left (hw.ne_invis hx).symm
    obtain ⟨y, hy, horphan⟩ := h.special hinvis
    exact ⟨y, has_put.mpr (.inr hy), horphan⟩
  entries y _ := by
    have hreach : Reaches (ioctlGet k opts) x y ↔ y = x := by
      constructor
      · exact fun hreach => (reaches_of_up_none hreach hroot.1).symm
      · rintro rfl
        exact .refl
    rw [hreach, or_comm]
    exact has_put

theorem added_orphan (h : Faithful k opts nodes nsi) (hw : World k opts nodes) (hnew : ¬ nsi.has x)
    (hx : x ∈ nodes) (horphan : Orphan k opts x) :
    ∃ t, (nsi.put x (newEntry k x)).withInvis.addChild invisUserNS x = some t ∧
      Added k opts nodes nsi x t := by
  have hne := hw.ne_invis hx
  obtain ⟨hlinked, hhas⟩ := h.toLinked.withInvis
  have hnew' : ¬ nsi.withInvis.has x := fun hc => ((hhas x).mp hc).elim hne hnew
  obtain ⟨t, ht, htlinked, hthas⟩ := hlinked.link hnew' hx hne (place_of_orphan hne horphan)
    ((hhas _).mpr (.inl rfl))
  refine ⟨t, by rw [withInvis_put hne]; exact ht, ⟨htlinked, fun _ => ⟨x, (hthas x).mpr (.inl rfl), hne, horphan⟩⟩,
    fun y hy => ?_⟩
  have hreach : Reaches (ioctlGet k opts) x y ↔ y = x := by
    constructor
    · exact fun hreach => (reaches_of_up_none hreach horphan.1).symm
    · rintro rfl
      exact .refl
  rw [hthas, hhas, hreach]
  tauto

theorem added_child {parent : NamespaceID} {u : NamespaceInfo} (hw : World k opts nodes)
    (hnew : ¬ nsi.has x) (hx : x ∈ nodes) (hparent : ioctlGet k opts x = some parent)
    (hu : Added k opts nodes nsi parent u) :
    ∃ t, (u.put x (newEntry k x)).addChild parent x = some t ∧ Added k opts nodes nsi x t := by
  have hne := hw.ne_invis hx
  have hpmem := hw.forest.closed x hx parent hparent
  have hnew' : ¬ u.has x := by
    rw [hu.entries x hne]
    rintro (hc | hreach)
    · exact hnew hc
    · exact hw.forest.acyclic x hx (Relation.TransGen.head' hparent hreach)
  have hp : u.has parent := (hu.entries parent (hw.ne_invis hpmem)).mpr (.inr .refl)
  obtain ⟨t, ht, hlinked, hhas⟩ :=
    hu.faithful.toLinked.link hnew' hx hne (place_of_parent hne hparent) hp
  refine ⟨t, ht, ⟨hlinked, fun hinvis => ?_⟩, fun y hy => ?_⟩
  · obtain ⟨y, hy, horphan⟩ := hu.faithful.special (((hhas _).mp hinvis).resolve_left hne.symm)
    exact ⟨y, (hhas y).mpr (.inr hy), horphan⟩
  · have hreach : Reaches (ioctlGet k opts) x y ↔ y = x ∨ Reaches (ioctlGet k opts) parent y := by
      constructor
      · intro hreach
        obtain rfl | ⟨c, hc, hcy⟩ := reaches_head hreach
        · exact .inl rfl
        · obtain rfl := Option.some.inj (hparent.symm.trans hc)
          exact .inr hcy
      · rintro (rfl | hreach)
        · exact .refl
        · exact hreach.head hparent
    rw [hhas, hu.entries y hy, hreach]
    tauto

/-- The recursion of `addNamespace` goes up the ancestors, which are fewer at each level. -/
theorem addNamespace_added (hw : World k opts nodes) {fuel : ℕ} (h : Faithful k opts nodes nsi)
    (hx : x ∈ nodes) (pid : ℤ) (hfuel : depth (ioctlGet k opts) nodes x < fuel) :
    ∃ t, addNamespace k opts fuel nsi x pid = some t ∧ Added k opts nodes nsi x t := by
  induction fuel generalizing nsi x pid with
  | zero => exact absurd hfuel (Nat.not_lt_zero _)
  | succ fuel ih =>
    have hlist : ∃ u, (if nsi.has x then some nsi
        else addNamespaceToList k opts (addNamespace k opts fuel) nsi x) = some u ∧
        Added k opts nodes nsi x u := by
      by_cases hhas : nsi.has x
      · refine ⟨nsi, if_pos hhas, h, fun y _ => ⟨.inl, ?_⟩⟩
        rintro (hy | hreach)
        · exact hy
        · exact h.reaches hw hhas hx hreach
      · rw [if_neg hhas]
        unfold addNamespaceToList
        cases hparent : ioctlGet k opts x with
        | none =>
          dsimp only
          by_cases htop : k.nsType x = cloneNewuser ∨ opts.showPidnsHierarchy = true
          · rw [if_pos htop]
            exact ⟨_, rfl, added_root h hw hhas hx ⟨hparent, htop⟩⟩
          · rw [if_neg htop]
            exact added_orphan h hw hhas hx ⟨hparent, htop⟩
        | some parent =>
          dsimp only
          have hne := hw.ne_invis hx
          have hpmem := hw.forest.closed x hx parent hparent
          have hdepth := hw.forest.depth_lt hx hparent
          have hreach : ¬ Reaches (ioctlGet k opts) parent x :=
            fun hreach => hw.forest.acyclic x hx (Relation.TransGen.head' hparent hreach)
          obtain ⟨u, hu, hadded⟩ := ih h hpmem (-1) (by omega)
          rw [addNamespace_put hne fuel nsi parent (-1) hreach, hu]
          exact added_child hw hhas hx hparent hadded
    obtain ⟨u, hu, hadded⟩ := hlist
    have hux : u.has x := (hadded.entries x (hw.ne_invis hx)).mpr (.inr .refl)
    obtain ⟨t, ht, hfaithful, hhas⟩ := hadded.faithful.addPid hux pid
    refine ⟨t, ?_, hfaithful, fun y hy => (hhas y).trans (hadded.entries y hy)⟩
    simp only [addNamespace, hu]
    exact ht

theorem addAll_added (hw : World k opts nodes) {fuel : ℕ} (hfuel : nodes.card < fuel)
    {calls : List (NamespaceID × ℤ)} (hcalls : ∀ c ∈ calls, c.1 ∈ nodes)
    (h : Faithful k opts nodes nsi) :
    ∃ t, addAll k opts fuel nsi calls = some t ∧ Faithful k opts nodes t ∧
      ∀ y, y ≠ invisUserNS →
        (t.has y ↔ nsi.has y ∨ ∃ c ∈ calls, Reaches (ioctlGet k opts) c.1 y) := by
  induction calls generalizing nsi with
  | nil => exact ⟨nsi, rfl, h, by simp⟩
  | cons c calls ih =>
    obtain ⟨nsid, pid⟩ := c
    have hmem := hcalls _ List.mem_cons_self
    obtain ⟨u, hu, hadded⟩ := addNamespace_added hw h hmem pid
      ((depth_le _ nodes nsid).trans_lt hfuel)
    obtain ⟨t, ht, hfaithful, hentries⟩ :=
      ih (fun c hc => hcalls c (List.mem_cons_of_mem _ hc)) hadded.faithful
    refine ⟨t, by simp [addAll, hu, ht], hfaithful, fun y hy => ?_⟩
    rw [hentries y hy, hadded.entries y hy]
    simp [or_assoc]

/-! ## More fuel changes nothing -/

theorem addNamespaceToList_mono {add add' : NamespaceInfo → NamespaceID → ℤ → Option NamespaceInfo}
    (hadd : ∀ nsi parent u, add nsi parent (-1) = some u → add' nsi parent (-1) = some u)
    {t : NamespaceInfo} (h : addNamespaceToList k opts add nsi x = some t) :
    addNamespaceToList k opts add' nsi x = some t := by
  unfold addNamespaceToList at h ⊢
  cases hparent : ioctlGet k opts x with
  | none => simpa only [hparent] using h
  | some parent =>
    simp only [hparent] at h ⊢
    obtain ⟨u, hu, ht⟩ := Option.bind_eq_some_iff.mp h
    rw [hadd _ _ _ hu]
    exact ht

theorem addNamespace_mono {fuel fuel' : ℕ} (hle : fuel ≤ fuel') {pid : ℤ} {t : NamespaceInfo}
    (h : addNamespace k opts fuel nsi x pid = some t) : addNamespace k opts fuel' nsi x pid = some t := by
  induction fuel generalizing fuel' nsi x pid t with
  | zero => cases h
  | succ fuel ih =>
    obtain ⟨fuel', rfl⟩ := Nat.exists_eq_add_of_lt hle
    simp only [addNamespace] at h ⊢
    obtain ⟨u, hu, ht⟩ := Option.bind_eq_some_iff.mp h
    refine Option.bind_eq_some_iff.mpr ⟨u, ?_, ht⟩
    split at hu
    · rw [if_pos ‹_›]
      exact hu
    · rw [if_neg ‹_›]
      exact addNamespaceToList_mono (fun nsi parent u => ih (by omega)) hu

theorem addAll_mono {fuel fuel' : ℕ} (hle : fuel ≤ fuel') {calls : List (NamespaceID × ℤ)}
    {t : NamespaceInfo} (h : addAll k opts fuel nsi calls = some t) :
    addAll k opts fuel' nsi calls = some t := by
  induction calls generalizing nsi with
  | nil => exact h
  | cons c calls ih =>
    obtain ⟨u, hu, ht⟩ := Option.bind_eq_some_iff.mp h
    exact Option.bind_eq_some_iff.mpr ⟨u, addNamespace_mono hle hu, ih ht⟩

end Calls

/-! ## The display -/

section Display

variable {k : Kernel} {opts : Options} {nodes : Finset NamespaceID} {nsi : NamespaceInfo}
  {x : NamespaceID}

theorem display_eq_preorder (nsi : NamespaceInfo) (opts : Options) (fuel level : ℕ) (x : NamespaceID) :
    (displayNamespaceTree nsi opts fuel level x).map (List.map Visit.nsid) =
      preorder nsi.kids fuel x := by
  induction fuel generalizing level x with
  | zero => rfl
  | succ fuel ih =>
    simp only [displayNamespaceTree, preorder, NamespaceInfo.kids]
    cases nsi.nsList x with
    | none => rfl
    | some ns =>
      have hloop : (visitAll (displayNamespaceTree nsi opts fuel (level + 1)) ns.children).map
          (List.map Visit.nsid) = visitAll (preorder nsi.kids fuel) ns.children := by
        rw [visitAll_map]
        congr 1
        funext child
        exact ih (level + 1) child
      simp only [Option.bind_some, Option.map_some]
      rw [← hloop]
      cases visitAll (displayNamespaceTree nsi opts fuel (level + 1)) ns.children <;> rfl

open Classical in
noncomputable def rank (k : Kernel) (opts : Options) (nodes : Finset NamespaceID) (x : NamespaceID) : ℕ :=
  if x = invisUserNS then 0 else depth (ioctlGet k opts) nodes x + 1

theorem Linked.listed (h : Linked k opts nodes nsi) (hw : World k opts nodes) :
    Listed (place k opts) nsi.has (rank k opts nodes) (nodes.card + 2) nsi.kids where
  listed a ha := by
    obtain ⟨cs, hcs⟩ := has_iff_kids.mp ha
    exact ⟨cs, hcs, h.children a cs hcs⟩
  closed := h.closed
  falls a b ha hab := by
    have hne : a ≠ invisUserNS := by
      rintro rfl
      simp at hab
    have hmem := h.known a ha hne
    obtain ⟨parent, hparent, hplace⟩ | ⟨-, hplace⟩ | ⟨-, hplace⟩ := place_cases k opts hne
    · obtain rfl := Option.some.inj (hplace.symm.trans hab)
      have hpmem := hw.forest.closed a hmem _ hparent
      have hdepth := hw.forest.depth_lt hmem hparent
      simp only [rank, hne, hw.ne_invis hpmem, if_false]
      omega
    · obtain rfl := Option.some.inj (hplace.symm.trans hab)
      simp [rank, hne]
    · simp [hplace] at hab
  below a _ := by
    have hdepth := depth_le (ioctlGet k opts) nodes a
    unfold rank
    split <;> omega

theorem Linked.display (h : Linked k opts nodes nsi) (hw : World k opts nodes) {fuel : ℕ}
    (hfuel : nodes.card + 2 ≤ fuel) (hx : nsi.has x) :
    ∃ visits, displayNamespaceTree nsi opts fuel 0 x = some visits ∧
      (visits.map Visit.nsid).Nodup ∧
      ∀ y, y ∈ visits.map Visit.nsid ↔ nsi.has y ∧ Reaches (place k opts) y x := by
  obtain ⟨l, hl, hnodup, hmem⟩ := (h.listed hw).preorder fuel hx (by omega)
  rw [← display_eq_preorder nsi opts fuel 0] at hl
  obtain ⟨visits, hvisits, rfl⟩ := Option.map_eq_some_iff.mp hl
  exact ⟨visits, hvisits, hnodup, hmem⟩

theorem Linked.reaches_top (h : Linked k opts nodes nsi) (hw : World k opts nodes) (hx : nsi.has x) :
    Reaches (place k opts) x nsi.rootNS ∨ Reaches (place k opts) x invisUserNS := by
  induction hr : rank k opts nodes x using Nat.strong_induction_on generalizing x with
  | _ n ih =>
    by_cases hne : x = invisUserNS
    · subst hne
      exact .inr .refl
    · have hup {q : NamespaceID} (hplace : place k opts x = some q) :
          Reaches (place k opts) x nsi.rootNS ∨ Reaches (place k opts) x invisUserNS :=
        (ih _ (hr ▸ (h.listed hw).falls x q hx hplace) (h.closed x q hx hplace) rfl).imp
          (fun hreach => hreach.head hplace) fun hreach => hreach.head hplace
      obtain ⟨parent, -, hplace⟩ | ⟨-, hplace⟩ | ⟨hroot, -⟩ := place_cases k opts hne
      · exact hup hplace
      · exact hup hplace
      · rw [h.root x hx hne hroot]
        exact .inl .refl

def Once (nsi : NamespaceInfo) (visits : List Visit) : Prop :=
  (visits.map Visit.nsid).Nodup ∧ ∀ y, y ∈ visits.map Visit.nsid ↔ nsi.has y

theorem Linked.once_of_root (h : Linked k opts nodes nsi) (hw : World k opts nodes)
    (hopts : opts.subtree = none) {fuel : ℕ} (hfuel : nodes.card + 2 ≤ fuel) (hx : nsi.has x)
    (hne : x ≠ invisUserNS) (hroot : Root k opts x) :
    ∃ visits, displayNamespaceHierarchies nsi opts fuel = some visits ∧ Once nsi visits := by
  obtain rfl := h.root x hx hne hroot
  obtain ⟨l, hl, hlnodup, hlmem⟩ := h.display hw hfuel hx
  simp only [displayNamespaceHierarchies, hopts, hl, Option.bind_some]
  by_cases hinvis : nsi.has invisUserNS
  · obtain ⟨l', hl', hlnodup', hlmem'⟩ := h.display hw hfuel hinvis
    rw [if_pos hinvis, hl']
    refine ⟨l ++ l', rfl, ?_, fun y => ?_⟩
    · rw [List.map_append]
      refine List.nodup_append.mpr ⟨hlnodup, hlnodup', ?_⟩
      rintro y hy _ hy' rfl
      -- the root and the special entry are both at the top
      obtain hreach | hreach := reaches_total ((hlmem y).mp hy).2 ((hlmem' y).mp hy').2
      · exact hne (reaches_of_up_none hreach (place_of_root hroot))
      · exact hne (reaches_of_up_none hreach place_invis).symm
    · rw [List.map_append, List.mem_append, hlmem, hlmem']
      constructor
      · rintro (hy | hy) <;> exact hy.1
      · exact fun hy => (h.reaches_top hw hy).imp (fun hreach => ⟨hy, hreach⟩) fun hreach => ⟨hy, hreach⟩
  · rw [if_neg hinvis]
    refine ⟨l, rfl, hlnodup, fun y => (hlmem y).trans ⟨And.left, fun hy => ⟨hy, ?_⟩⟩⟩
    refine (h.reaches_top hw hy).resolve_right fun hreach => hinvis ?_
    exact ((h.listed hw).rank_le hy hreach).1

/-- Without a root the special entry is displayed twice, or not even that is there. -/
theorem Linked.root_of_once (h : Linked k opts nodes nsi) (hopts : opts.subtree = none) {fuel : ℕ}
    {visits : List Visit} (hvisits : displayNamespaceHierarchies nsi opts fuel = some visits)
    (honce : Once nsi visits) : ∃ x, nsi.has x ∧ x ≠ invisUserNS ∧ Root k opts x := by
  by_contra hnone
  have hunset : nsi.rootNS = invisUserNS :=
    h.unset fun x hx hne hroot => hnone ⟨x, hx, hne, hroot⟩
  simp only [displayNamespaceHierarchies, hopts, hunset] at hvisits
  obtain ⟨l, hl, hvisits⟩ := Option.bind_eq_some_iff.mp hvisits
  cases fuel with
  | zero => cases hl
  | succ fuel =>
    obtain ⟨ns, hns, hloop⟩ := Option.bind_eq_some_iff.mp hl
    obtain ⟨rest, -, rfl⟩ := Option.map_eq_some_iff.mp hloop
    have hinvis : nsi.has invisUserNS := by simp [NamespaceInfo.has, hns]
    rw [if_pos hinvis, hl] at hvisits
    obtain rfl := Option.some.inj hvisits
    have hnodup := honce.1
    simp [List.nodup_append] at hnodup

end Display

/-- For every scan: the recursion ends, the list holds the namespaces visited and their ancestors, each
in its place, and the display shows every entry once exactly when the scan has met the root. -/
theorem forest_displayed (k : Kernel) (opts : Options) (nodes : Finset NamespaceID)
    (hw : World k opts nodes) (hopts : opts.subtree = none) (calls : List (NamespaceID × ℤ))
    (hcalls : ∀ c ∈ calls, c.1 ∈ nodes) :
    ∃ t, (∀ fuel, nodes.card < fuel → addAll k opts fuel empty calls = some t) ∧
      (∀ x, t.has x ↔ (∃ c ∈ calls, Reaches (ioctlGet k opts) c.1 x) ∨
        x = invisUserNS ∧ ∃ c ∈ calls, ∃ y, Reaches (ioctlGet k opts) c.1 y ∧ Orphan k opts y) ∧
      (∀ x, t.has x → x ≠ t.rootNS → x ≠ invisUserNS →
        ∃ q cs, (ioctlGet k opts x = some q ∨ Orphan k opts x ∧ q = invisUserNS) ∧
          t.kids q = some cs ∧ cs.count x = 1 ∧ ∀ q' cs', t.kids q' = some cs' → x ∈ cs' → q' = q) ∧
      ∀ fuel, nodes.card + 2 ≤ fuel →
        ((∃ visits, displayNamespaceHierarchies t opts fuel = some visits ∧ Once t visits) ↔
          ∃ c ∈ calls, ∃ y, Reaches (ioctlGet k opts) c.1 y ∧ Root k opts y) := by
  obtain ⟨t, ht, hfaithful, hentries⟩ :=
    addAll_added hw (Nat.lt_succ_self nodes.card) hcalls (faithful_empty k opts)
  have hentries : ∀ y, y ≠ invisUserNS →
      (t.has y ↔ ∃ c ∈ calls, Reaches (ioctlGet k opts) c.1 y) := by
    intro y hy
    rw [hentries y hy]
    simp [NamespaceInfo.has, empty]
  have hreal : ∀ c ∈ calls, ∀ y, Reaches (ioctlGet k opts) c.1 y → y ≠ invisUserNS :=
    fun c hc y hy => hw.ne_invis (hw.forest.reaches_mem (hcalls c hc) hy)
  refine ⟨t, fun fuel hfuel => addAll_mono hfuel ht, ?_, ?_, ?_⟩
  · intro x
    by_cases hx : x = invisUserNS
    · subst hx
      constructor
      · intro hinvis
        obtain ⟨y, hy, hne, horphan⟩ := hfaithful.special hinvis
        obtain ⟨c, hc, hreach⟩ := (hentries y hne).mp hy
        exact .inr ⟨rfl, c, hc, y, hreach, horphan⟩
      · rintro (⟨c, hc, hreach⟩ | ⟨-, c, hc, y, hreach, horphan⟩)
        · exact absurd rfl (hreal c hc _ hreach)
        · have hne := hreal c hc y hreach
          exact hfaithful.closed y _ ((hentries y hne).mpr ⟨c, hc, hreach⟩) (place_of_orphan hne horphan)
    · rw [hentries x hx]
      simp [hx]
  · intro x hx hroot hne
    have hplace : ∃ q, (ioctlGet k opts x = some q ∨ Orphan k opts x ∧ q = invisUserNS) ∧
        place k opts x = some q := by
      obtain ⟨parent, hparent, hplace⟩ | ⟨horphan, hplace⟩ | ⟨hr, -⟩ :=
        place_cases k opts hne
      · exact ⟨parent, .inl hparent, hplace⟩
      · exact ⟨invisUserNS, .inr ⟨horphan, rfl⟩, hplace⟩
      · exact absurd (hfaithful.root x hx hne hr).symm hroot
    obtain ⟨q, hq, hplace⟩ := hplace
    obtain ⟨cs, hcs⟩ := has_iff_kids.mp (hfaithful.closed x q hx hplace)
    obtain ⟨hnodup, hmem⟩ := hfaithful.children q cs hcs
    refine ⟨q, cs, hq, hcs, List.count_eq_one_of_mem hnodup ((hmem x).mpr ⟨hx, hplace⟩), ?_⟩
    intro q' cs' hcs' hx'
    exact Option.some.inj ((((hfaithful.children q' cs' hcs').2 x).mp hx').2.symm.trans hplace)
  · intro fuel hfuel
    constructor
    · rintro ⟨visits, hvisits, honce⟩
      obtain ⟨x, hx, hne, hroot⟩ := hfaithful.toLinked.root_of_once hopts hvisits honce
      obtain ⟨c, hc, hreach⟩ := (hentries x hne).mp hx
      exact ⟨c, hc, x, hreach, hroot⟩
    · rintro ⟨c, hc, x, hreach, hroot⟩
      have hne := hreal c hc x hreach
      exact hfaithful.toLinked.once_of_root hw hopts hfuel
        ((hentries x hne).mpr ⟨c, hc, hreach⟩) hne hroot

/-- Inode 1 is the root user namespace, 2 a child of it, 3 a network namespace owned by 2, and 4 one
whose owner is not visible. -/
def sample : Kernel where
  nsType x := if x.2 ≤ 2 then cloneNewuser else 0x40000000
  getUserns x := if x = (4, 2) then some (4, 1) else if x = (4, 3) then some (4, 2) else none
  getParent _ := none
  ownerUID _ := 0

def sampleNodes : Finset NamespaceID := {(4, 1), (4, 2), (4, 3), (4, 4)}

def plain : Options := ⟨false, 0x40000000, none⟩

theorem sample_parent {a b : NamespaceID} (h : ioctlGet sample plain a = some b) :
    a = (4, 2) ∧ b = (4, 1) ∨ a = (4, 3) ∧ b = (4, 2) := by
  simp only [ioctlGet, plain, sample, Bool.false_eq_true, if_false] at h
  split at h
  · exact .inl ⟨‹_›, (Option.some.inj h).symm⟩
  · split at h
    · exact .inr ⟨‹_›, (Option.some.inj h).symm⟩
    · cases h

theorem sample_world : World sample plain sampleNodes where
  forest := by
    refine forest_of_rank Prod.snd ?_ ?_
    · intro a _ b hab
      obtain ⟨-, rfl⟩ | ⟨-, rfl⟩ := sample_parent hab <;> decide
    · intro a b hab
      obtain ⟨rfl, rfl⟩ | ⟨rfl, rfl⟩ := sample_parent hab <;> decide
  real := by decide
  root := by
    refine ⟨(4, 1), by decide, ⟨by decide, by decide⟩, ?_⟩
    unfold Root
    decide

/-- The network namespaces first: their owners are found on the way. -/
theorem forest_displayed_sample :
    ∃ t, addAll sample plain 5 empty [((4, 3), 7), ((4, 4), 7), ((4, 2), 7)] = some t ∧
      t.kids invisUserNS = some [(4, 4)] ∧
      ∃ visits, displayNamespaceHierarchies t plain 6 = some visits ∧ Once t visits := by
  obtain ⟨t, ht, -, -, hdisplay⟩ := forest_displayed sample plain sampleNodes sample_world rfl
    [((4, 3), 7), ((4, 4), 7), ((4, 2), 7)] (by decide)
  have ht := ht 5 (by decide)
  refine ⟨t, ht, ?_, (hdisplay 6 (by decide)).mpr ⟨((4, 3), 7), by decide, (4, 1), ?_, by decide, by decide⟩⟩
  · obtain rfl := Option.some.inj ht
    decide
  · exact .head (b := (4, 2)) rfl (.single rfl)

/-- Only a namespace without a visible owner has been met: `rootNS` still has the value of
`invisUserNS`, and both entries are displayed twice. -/
theorem orphan_displayed_twice :
    World sample plain sampleNodes ∧
    ∃ t visits, addAll sample plain 5 empty [((4, 4), 7)] = some t ∧
      displayNamespaceHierarchies t plain 6 = some visits ∧
      visits.map Visit.nsid = [invisUserNS, (4, 4), invisUserNS, (4, 4)] := by
  refine ⟨sample_world, _, _, rfl, rfl, ?_⟩
  decide

end NamespaceForest
