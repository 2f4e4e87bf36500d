import Mathlib.Data.List.Infix
import Mathlib.Data.List.TakeWhile

/-! # Pathnames with a separator

A pathname is a root, itself a string, followed by components, each after a separator. A
pathname lies in the subtree of another one when it is that one or continues it with a
separator; for components without separators this is the prefix order on the components. -/
namespace Pathnames

variable {α : Type} {sep : α}

def joined (sep : α) (root : List α) (comps : List (List α)) : List α :=
  root ++ comps.flatMap (sep :: ·)

@[simp] theorem joined_nil (root : List α) : joined sep root [] = root := by
  simp [joined]

theorem joined_append (root : List α) (cs ds : List (List α)) :
    joined sep root (cs ++ ds) = joined sep (joined sep root cs) ds := by
  simp [joined]

theorem joined_concat (root : List α) (cs : List (List α)) (c : List α) :
    joined sep root (cs ++ [c]) = joined sep root cs ++ sep :: c := by
  simp [joined]

theorem joined_eq_append (root : List α) (cs : List (List α)) :
    joined sep root cs = root ++ joined sep [] cs := by
  simp [joined]

/-- What comes after a component is empty or starts with a separator. -/
theorem joined_cases (sep : α) (cs : List (List α)) :
    joined sep [] cs = [] ∨ ∃ r, joined sep [] cs = sep :: r := by
  cases cs with
  | nil => exact .inl rfl
  | cons c cs => exact .inr ⟨c ++ cs.flatMap (sep :: ·), by simp [joined]⟩

variable [DecidableEq α]

def inSubtree (sep : α) (p q : List α) : Bool :=
  p.isPrefixOf q && match q.drop p.length with
    | [] => true
    | c :: _ => c = sep

theorem inSubtree_iff {p q : List α} :
    inSubtree sep p q = true ↔ q = p ∨ ∃ r, q = p ++ sep :: r := by
  simp only [inSubtree, Bool.and_eq_true, List.isPrefixOf_iff_prefix]
  constructor
  · rintro ⟨⟨r, rfl⟩, h⟩
    rw [List.drop_left] at h
    cases r with
    | nil => exact .inl (by simp)
    | cons c r => exact .inr ⟨r, by rw [of_decide_eq_true h]⟩
  · rintro (rfl | ⟨r, rfl⟩)
    · exact ⟨List.prefix_refl _, by simp⟩
    · exact ⟨⟨_, rfl⟩, by simp⟩

theorem takeWhile_free {c rest : List α} (hc : sep ∉ c)
    (hrest : rest = [] ∨ ∃ r, rest = sep :: r) :
    (c ++ rest).takeWhile (· ≠ sep) = c := by
  have hall : ∀ x ∈ c, decide (x ≠ sep) = true := fun x hx => by
    simpa using fun h : x = sep => hc (h ▸ hx)
  rw [List.takeWhile_append_of_pos hall]
  rcases hrest with rfl | ⟨r, rfl⟩ <;> simp

theorem component_unique {c d x y : List α} (hc : sep ∉ c) (hd : sep ∉ d)
    (hx : x = [] ∨ ∃ r, x = sep :: r) (hy : y = [] ∨ ∃ r, y = sep :: r) (h : c ++ x = d ++ y) :
    c = d ∧ x = y := by
  have hcd : c = d := by rw [← takeWhile_free hc hx, ← takeWhile_free hd hy, h]
  subst hcd
  exact ⟨rfl, List.append_cancel_left h⟩

def Free (sep : α) (cs : List (List α)) : Prop := ∀ c ∈ cs, sep ∉ c

theorem inSubtree_append (root p q : List α) :
    inSubtree sep (root ++ p) (root ++ q) = true ↔ inSubtree sep p q = true := by
  simp only [inSubtree_iff, List.append_assoc, List.append_cancel_left_eq]

theorem inSubtree_joined {root : List α} {cs ds : List (List α)} (hcs : Free sep cs)
    (hds : Free sep ds) :
    inSubtree sep (joined sep root cs) (joined sep root ds) = true ↔ cs <+: ds := by
  rw [joined_eq_append root cs, joined_eq_append root ds, inSubtree_append]
  induction cs generalizing ds with
  | nil =>
    simp only [joined_nil, List.nil_prefix, iff_true, inSubtree_iff, List.nil_append]
    exact joined_cases sep ds
  | cons c cs ih =>
    cases ds with
    | nil => simp [inSubtree_iff, joined]
    | cons d ds =>
      have hc : sep ∉ c := hcs c (by simp)
      have hd : sep ∉ d := hds d (by simp)
      have hcs' : Free sep cs := fun x hx => hcs x (by simp [hx])
      have hds' : Free sep ds := fun x hx => hds x (by simp [hx])
      have hsplit (e : List α) (es : List (List α)) :
          joined sep [] (e :: es) = sep :: (e ++ joined sep [] es) := by simp [joined]
      rw [List.cons_prefix_cons, ← ih hcs' hds', hsplit, hsplit]
      simp only [inSubtree_iff, List.cons_append, List.append_assoc, List.cons.injEq, true_and]
      constructor
      · rintro (h | ⟨r, h⟩)
        · obtain ⟨rfl, h'⟩ := component_unique hd hc (joined_cases sep ds) (joined_cases sep cs) h
          exact ⟨rfl, .inl h'⟩
        · have hx : joined sep [] cs ++ sep :: r = [] ∨ ∃ r', joined sep [] cs ++ sep :: r = sep :: r' := by
            rcases joined_cases sep cs with h | ⟨r', h⟩
            · exact .inr ⟨r, by rw [h]; rfl⟩
            · exact .inr ⟨r' ++ sep :: r, by rw [h]; rfl⟩
          obtain ⟨rfl, h'⟩ := component_unique hd hc (joined_cases sep ds) hx h
          exact ⟨rfl, .inr ⟨r, h'⟩⟩
      · rintro ⟨rfl, h | ⟨r, h⟩⟩
        · exact .inl (by rw [h])
        · exact .inr ⟨r, by rw [h]⟩

def Apart (sep : α) (r r' : List α) : Prop :=
  inSubtree sep r r' = false ∧ inSubtree sep r' r = false

theorem inSubtree_apart {r r' : List α} (h : Apart sep r r') (cs ds : List (List α)) :
    inSubtree sep (joined sep r cs) (joined sep r' ds) = false := by
  refine Bool.eq_false_iff.mpr fun hin => ?_
  have hne : r ≠ r' := by
    rintro rfl
    have := h.1
    rw [Bool.eq_false_iff] at this
    exact this (inSubtree_iff.mpr (.inl rfl))
  -- the longer pathname, as a continuation of each root
  obtain ⟨x, hx, heq⟩ : ∃ x, (x = [] ∨ ∃ z, x = sep :: z) ∧ r ++ x = r' ++ joined sep [] ds := by
    rw [joined_eq_append r, joined_eq_append r'] at hin
    rcases inSubtree_iff.mp hin with he | ⟨z, he⟩
    · exact ⟨joined sep [] cs, joined_cases sep cs, he.symm⟩
    · refine ⟨joined sep [] cs ++ sep :: z, ?_, by rw [he, List.append_assoc]⟩
      rcases joined_cases sep cs with h | ⟨w, h⟩
      · exact .inr ⟨z, by rw [h]; rfl⟩
      · exact .inr ⟨w ++ sep :: z, by rw [h]; rfl⟩
  have hstart {y z w : List α} (hz : z ≠ []) (hy : y = [] ∨ ∃ v, y = sep :: v)
      (he : y = z ++ w) : ∃ v, z = sep :: v := by
    cases z with
    | nil => exact absurd rfl hz
    | cons c z =>
      rcases hy with rfl | ⟨v, rfl⟩
      · cases he
      · exact ⟨z, by rw [(List.cons.inj he).1]⟩
  rcases List.append_eq_append_iff.mp heq with ⟨z, hz, hxz⟩ | ⟨z, hz, hyz⟩
  · obtain ⟨v, rfl⟩ := hstart (fun h0 => hne (by rw [hz, h0, List.append_nil])) hx hxz
    have := h.1
    rw [Bool.eq_false_iff] at this
    exact this (inSubtree_iff.mpr (.inr ⟨v, hz⟩))
  · obtain ⟨v, rfl⟩ := hstart (fun h0 => hne (by rw [hz, h0, List.append_nil])) (joined_cases sep ds) hyz
    have := h.2
    rw [Bool.eq_false_iff] at this
    exact this (inSubtree_iff.mpr (.inr ⟨v, hz⟩))

end Pathnames
