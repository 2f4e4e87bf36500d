import Mathlib.Data.List.Infix
import Mathlib.Data.List.Basic

/-! # Directories in several trees

The directories of a file system, each with an identity that it keeps when it moves and with
its place: a tree and the components that lead to it from the root of the tree. -/
namespace DirectoryTrees

variable {ι ν : Type}

structure Loc (ν : Type) where
  tree : ℕ
  comps : List ν
  deriving DecidableEq, Repr

abbrev Dirs (ι ν : Type) := List (ι × Loc ν)

namespace Loc

def child (l : Loc ν) (n : ν) : Loc ν := ⟨l.tree, l.comps ++ [n]⟩

def parent (l : Loc ν) : Loc ν := ⟨l.tree, l.comps.dropLast⟩

def Above (a l : Loc ν) : Prop := a.tree = l.tree ∧ a.comps <+: l.comps

instance [DecidableEq ν] (a l : Loc ν) : Decidable (Above a l) :=
  inferInstanceAs (Decidable (_ ∧ _))

/-- Where a place ends up when `src` becomes `dst`. -/
def move [DecidableEq ν] (src dst l : Loc ν) : Loc ν :=
  if Above src l then ⟨dst.tree, dst.comps ++ l.comps.drop src.comps.length⟩ else l

theorem above_refl (l : Loc ν) : Above l l := ⟨rfl, List.prefix_refl _⟩

theorem Above.trans {a b c : Loc ν} (hab : Above a b) (hbc : Above b c) : Above a c :=
  ⟨hab.1.trans hbc.1, hab.2.trans hbc.2⟩

theorem above_child (l : Loc ν) (n : ν) : Above l (l.child n) := ⟨rfl, List.prefix_append _ _⟩

theorem child_ne (l : Loc ν) (n : ν) : l.child n ≠ l := by
  intro h
  have := congrArg (fun l => l.comps.length) h
  simp [child] at this

theorem parent_child (l : Loc ν) (n : ν) : (l.child n).parent = l := by
  simp [child, parent]

theorem exists_child {l : Loc ν} (h : l.comps ≠ []) : ∃ n, l = l.parent.child n :=
  ⟨l.comps.getLast h, by simp [child, parent, List.dropLast_append_getLast]⟩

theorem Above.child_above {a l : Loc ν} (h : Above a l) (hne : a ≠ l) :
    ∃ n, Above (a.child n) l := by
  obtain ⟨ht, r, hr⟩ := h
  cases r with
  | nil =>
    exact absurd (by cases a; cases l; simp_all) hne
  | cons n r => exact ⟨n, ht, r, by simp [child, ← hr]⟩

theorem Above.of_child {a l : Loc ν} {n : ν} (h : Above a (l.child n)) (hne : a ≠ l.child n) :
    Above a l := by
  refine ⟨h.1, ?_⟩
  rcases List.prefix_concat_iff.mp h.2 with he | hp
  · exact absurd (by cases a; cases h.1; simp_all [child]) hne
  · exact hp

theorem Above.antisymm {a b : Loc ν} (h : Above a b) (h' : Above b a) : a = b := by
  have hc : a.comps = b.comps := h.2.eq_of_length (Nat.le_antisymm h.2.length_le h'.2.length_le)
  cases a
  cases b
  simp_all [Above]

section Move

variable [DecidableEq ν] {src dst l : Loc ν}

theorem move_of_above (h : Above src l) :
    move src dst l = ⟨dst.tree, dst.comps ++ l.comps.drop src.comps.length⟩ := if_pos h

theorem move_of_not_above (h : ¬ Above src l) : move src dst l = l := if_neg h

theorem move_self (src dst : Loc ν) : move src dst src = dst := by
  rw [move_of_above (above_refl src)]
  simp

theorem above_move (h : Above src l) : Above dst (move src dst l) := by
  rw [move_of_above h]
  exact ⟨rfl, List.prefix_append _ _⟩

theorem move_child {n : ν} (h : Above src l) :
    move src dst (l.child n) = (move src dst l).child n := by
  rw [move_of_above h, move_of_above (h.trans (above_child l n))]
  simp only [child, List.append_assoc, Loc.mk.injEq, true_and, List.append_cancel_left_eq]
  rw [List.drop_append_of_le_length h.2.length_le]

theorem move_injective_above {l' : Loc ν} (h : Above src l) (h' : Above src l')
    (he : move src dst l = move src dst l') : l = l' := by
  rw [move_of_above h, move_of_above h', Loc.mk.injEq, List.append_cancel_left_eq] at he
  obtain ⟨r, hr⟩ := h.2
  obtain ⟨r', hr'⟩ := h'.2
  have ht : l.tree = l'.tree := h.1.symm.trans h'.1
  have : r = r' := by
    have := he.2
    rwa [← hr, ← hr', List.drop_left, List.drop_left] at this
  cases l
  cases l'
  simp_all

end Move

end Loc

open Loc

structure WF (dirs : Dirs ι ν) : Prop where
  places : ∀ i l l', (i, l) ∈ dirs → (i, l') ∈ dirs → l = l'
  ids : ∀ i i' l, (i, l) ∈ dirs → (i', l) ∈ dirs → i = i'
  parents : ∀ i l n, (i, child l n) ∈ dirs → ∃ j, (j, l) ∈ dirs

theorem WF.ancestor {dirs : Dirs ι ν} (h : WF dirs) {i : ι} {a l : Loc ν} (hl : (i, l) ∈ dirs)
    (ha : Above a l) : ∃ j, (j, a) ∈ dirs := by
  obtain ⟨ht, r, hr⟩ := ha
  induction r using List.reverseRecOn generalizing i l with
  | nil =>
    refine ⟨i, ?_⟩
    have : a = l := by
      cases a
      cases l
      simp_all
    exact this ▸ hl
  | append_singleton r n ih =>
    have he : l = child ⟨l.tree, a.comps ++ r⟩ n := by
      cases l
      simp_all [child]
    obtain ⟨j, hj⟩ := h.parents i _ n (he ▸ hl)
    exact ih hj ht rfl

section Operations

variable [DecidableEq ι] [DecidableEq ν]

def present (dirs : Dirs ι ν) (l : Loc ν) : Bool := dirs.any fun d => d.2 = l

def bare (dirs : Dirs ι ν) (l : Loc ν) : Bool := dirs.all fun d => ¬ Above l d.2 ∨ d.2 = l

def mkdir (dirs : Dirs ι ν) (i : ι) (l : Loc ν) (n : ν) : Option (Dirs ι ν) :=
  if present dirs l ∧ ¬ present dirs (l.child n) ∧ (dirs.all fun d => d.1 ≠ i) then
    some (dirs ++ [(i, l.child n)])
  else none

def rmdir (dirs : Dirs ι ν) (l : Loc ν) : Option (Dirs ι ν) :=
  if present dirs l ∧ l.comps ≠ [] ∧ bare dirs l then some (dirs.filter fun d => d.2 ≠ l) else none

/-- A directory at `dst` is replaced, if it is empty. -/
def rename (dirs : Dirs ι ν) (src dst : Loc ν) : Option (Dirs ι ν) :=
  if present dirs src ∧ src.comps ≠ [] ∧ dst.comps ≠ [] ∧ present dirs dst.parent ∧
      ¬ Above src dst ∧ bare dirs dst then
    some ((dirs.filter fun d => d.2 ≠ dst).map fun d => (d.1, move src dst d.2))
  else none

variable {dirs dirs' : Dirs ι ν} {i : ι} {l src dst : Loc ν} {n : ν}

omit [DecidableEq ι] in
theorem present_iff : present dirs l = true ↔ ∃ i, (i, l) ∈ dirs := by
  simp [present]

omit [DecidableEq ι] in
theorem bare_iff : bare dirs l = true ↔ ∀ i l', (i, l') ∈ dirs → Above l l' → l' = l := by
  simp only [bare, List.all_eq_true, decide_eq_true_eq, Prod.forall]
  exact ⟨fun h i l' hm ha => (h i l' hm).resolve_left fun hn => hn ha,
    fun h i l' hm => (em (Above l l')).elim (fun ha => .inr (h i l' hm ha)) .inl⟩

theorem mkdir_cases (h : mkdir dirs i l n = some dirs') :
    (∃ j, (j, l) ∈ dirs) ∧ (∀ j, (j, l.child n) ∉ dirs) ∧ (∀ l', (i, l') ∉ dirs) ∧
      dirs' = dirs ++ [(i, l.child n)] := by
  unfold mkdir at h
  split at h
  · rename_i hg
    obtain ⟨hp, hc, hi⟩ := hg
    refine ⟨present_iff.mp hp, fun j hj => hc (present_iff.mpr ⟨j, hj⟩), fun l' hl' => ?_,
      (Option.some.inj h).symm⟩
    have := List.all_eq_true.mp hi _ hl'
    simp at this
  · cases h

omit [DecidableEq ι] in
theorem rmdir_cases (h : rmdir dirs l = some dirs') :
    (∃ j, (j, l) ∈ dirs) ∧ l.comps ≠ [] ∧ (∀ j l', (j, l') ∈ dirs → Above l l' → l' = l) ∧
      ∀ j l', (j, l') ∈ dirs' ↔ (j, l') ∈ dirs ∧ l' ≠ l := by
  unfold rmdir at h
  split at h
  · rename_i hg
    obtain ⟨hp, hc, hb⟩ := hg
    obtain rfl := Option.some.inj h
    exact ⟨present_iff.mp hp, hc, bare_iff.mp hb, fun j l' => by simp⟩
  · cases h

omit [DecidableEq ι] in
theorem rename_cases (h : rename dirs src dst = some dirs') :
    ((∃ j, (j, src) ∈ dirs) ∧ src.comps ≠ []) ∧
      (dst.comps ≠ [] ∧ (∃ j, (j, dst.parent) ∈ dirs) ∧ ¬ Above src dst ∧
        ∀ j l', (j, l') ∈ dirs → Above dst l' → l' = dst) ∧
      ∀ j l', (j, l') ∈ dirs' ↔ ∃ l, (j, l) ∈ dirs ∧ l ≠ dst ∧ move src dst l = l' := by
  unfold rename at h
  split at h
  · rename_i hg
    obtain ⟨hs, hsc, hdc, hp, hnot, hb⟩ := hg
    obtain rfl := Option.some.inj h
    refine ⟨⟨present_iff.mp hs, hsc⟩, ⟨hdc, present_iff.mp hp, hnot, bare_iff.mp hb⟩, fun j l' => ?_⟩
    simp only [List.mem_map, List.mem_filter, Prod.mk.injEq, Prod.exists, decide_eq_true_eq]
    exact ⟨fun ⟨i, l, ⟨hm, hne⟩, hi, hl⟩ => ⟨l, hi ▸ hm, hne, hl⟩,
      fun ⟨l, hm, hne, hl⟩ => ⟨j, l, ⟨hm, hne⟩, rfl, hl⟩⟩
  · cases h

theorem WF.mkdir (hw : WF dirs) (h : mkdir dirs i l n = some dirs') : WF dirs' := by
  obtain ⟨⟨p, hp⟩, hnew, hfresh, rfl⟩ := mkdir_cases h
  have hmem {j : ι} {m : Loc ν} (hm : (j, m) ∈ dirs ++ [(i, l.child n)]) :
      (j, m) ∈ dirs ∨ j = i ∧ m = l.child n := by simpa using hm
  refine ⟨fun j m m' hm hm' => ?_, fun j j' m hm hm' => ?_, fun j m k hm => ?_⟩
  · rcases hmem hm with h1 | ⟨rfl, rfl⟩ <;> rcases hmem hm' with h2 | ⟨hj, rfl⟩
    · exact hw.places j m m' h1 h2
    · exact absurd (hj ▸ h1) (hfresh m)
    · exact absurd h2 (hfresh m')
    · rfl
  · rcases hmem hm with h1 | ⟨rfl, rfl⟩ <;> rcases hmem hm' with h2 | ⟨rfl, hl⟩
    · exact hw.ids j j' m h1 h2
    · exact absurd (hl ▸ h1) (hnew j)
    · exact absurd h2 (hnew j')
    · rfl
  · rcases hmem hm with hm | ⟨rfl, hc⟩
    · obtain ⟨q, hq⟩ := hw.parents j m k hm
      exact ⟨q, List.mem_append_left _ hq⟩
    · have : m = l := by rw [← parent_child m k, hc, parent_child]
      exact ⟨p, List.mem_append_left _ (this ▸ hp)⟩

omit [DecidableEq ι] in
theorem WF.rmdir (hw : WF dirs) (h : rmdir dirs l = some dirs') : WF dirs' := by
  obtain ⟨-, -, hbare, hmem⟩ := rmdir_cases h
  refine ⟨fun j m m' hm hm' => ?_, fun j j' m hm hm' => ?_, fun j m k hm => ?_⟩
  · exact hw.places j m m' ((hmem j m).mp hm).1 ((hmem j m').mp hm').1
  · exact hw.ids j j' m ((hmem j m).mp hm).1 ((hmem j' m).mp hm').1
  · obtain ⟨q, hq⟩ := hw.parents j m k ((hmem _ _).mp hm).1
    refine ⟨q, (hmem q m).mpr ⟨hq, ?_⟩⟩
    rintro rfl
    exact child_ne m k (hbare j _ ((hmem _ _).mp hm).1 (above_child m k))

omit [DecidableEq ι] in
theorem WF.rename (hw : WF dirs) (h : rename dirs src dst = some dirs') : WF dirs' := by
  obtain ⟨⟨⟨s, hs⟩, hsc⟩, ⟨hdc, ⟨p, hp⟩, hnot, hbare⟩, hmem⟩ := rename_cases h
  have hinj {j j' : ι} {m m' : Loc ν} (hm : (j, m) ∈ dirs) (hm' : (j', m') ∈ dirs) (hne : m ≠ dst)
      (hne' : m' ≠ dst) (he : move src dst m = move src dst m') : m = m' := by
    by_cases ha : Above src m <;> by_cases ha' : Above src m'
    · exact move_injective_above ha ha' he
    · have hmoved : Above dst (move src dst m) := above_move ha
      rw [he, move_of_not_above ha'] at hmoved
      exact absurd (hbare j' m' hm' hmoved) hne'
    · have hmoved : Above dst (move src dst m') := above_move ha'
      rw [← he, move_of_not_above ha] at hmoved
      exact absurd (hbare j m hm hmoved) hne
    · rwa [move_of_not_above ha, move_of_not_above ha'] at he
  refine ⟨fun j m m' hm hm' => ?_, fun j j' m hm hm' => ?_, fun j m k hm => ?_⟩
  · obtain ⟨x, hx, -, rfl⟩ := (hmem j m).mp hm
    obtain ⟨y, hy, -, rfl⟩ := (hmem j m').mp hm'
    rw [hw.places j x y hx hy]
  · obtain ⟨x, hx, hxd, rfl⟩ := (hmem j m).mp hm
    obtain ⟨y, hy, hyd, he⟩ := (hmem j' _).mp hm'
    exact hw.ids j j' x hx (hinj hy hx hyd hxd he ▸ hy)
  · obtain ⟨x, hx, hxd, he⟩ := (hmem j _).mp hm
    by_cases ha : Above src x
    · by_cases hxs : src = x
      -- the directory itself: its new parent was there and did not move
      · subst hxs
        rw [move_self] at he
        have hm : m = dst.parent := by rw [he, parent_child]
        have hna : ¬ Above src dst.parent := by
          intro ha'
          obtain ⟨c, hc⟩ := exists_child hdc
          exact hnot (hc ▸ ha'.trans (above_child _ c))
        refine ⟨p, (hmem p m).mpr ⟨dst.parent, hp, ?_, by rw [move_of_not_above hna, hm]⟩⟩
        intro hd
        obtain ⟨c, hc⟩ := exists_child hdc
        exact child_ne dst.parent c (hc.symm.trans hd.symm)
      -- below it: the parent moves along
      · have hxc : x.comps ≠ [] := by
          intro h0
          have := ha.2
          rw [h0, List.prefix_nil] at this
          exact hsc this
        obtain ⟨c, hc⟩ := exists_child hxc
        have hap : Above src x.parent := by
          rw [hc] at ha hxs
          exact ha.of_child hxs
        obtain ⟨q, hq⟩ := hw.parents j x.parent c (hc ▸ hx)
        rw [hc, move_child hap] at he
        refine ⟨q, (hmem q m).mpr ⟨x.parent, hq, ?_, ?_⟩⟩
        · exact fun hd => hnot (hd ▸ hap)
        · rw [← parent_child (move src dst x.parent) c, he, parent_child]
    · rw [move_of_not_above ha] at he
      subst he
      obtain ⟨q, hq⟩ := hw.parents j m k hx
      refine ⟨q, (hmem q m).mpr ⟨m, hq, ?_, ?_⟩⟩
      · rintro rfl
        exact child_ne m k (hbare j _ hx (above_child m k))
      · exact move_of_not_above fun ham => ha (ham.trans (above_child m k))

end Operations

end DirectoryTrees
