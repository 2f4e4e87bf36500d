import Mathlib.Computability.StateTransition
import Mathlib.Data.Finset.Card
import Mathlib.Data.List.Nodup

/-! # Forests given by a parent function

Each element has at most one parent. `Reaches up a b` says that `b` is `a` or an ancestor of it. A
finite acyclic forest has a depth that falls towards the roots; the traversal from a root that follows
the lists of children visits what is under it once. -/
namespace ParentForests

open StateTransition

variable {α : Type*}

structure Forest (up : α → Option α) (nodes : Finset α) : Prop where
  closed : ∀ a ∈ nodes, ∀ b, up a = some b → b ∈ nodes
  acyclic : ∀ a ∈ nodes, ¬ Reaches₁ up a a

section Depth

variable {up : α → Option α} {nodes : Finset α} {a b : α}

open Classical in
noncomputable def depth (up : α → Option α) (nodes : Finset α) (a : α) : ℕ :=
  (nodes.filter fun b => Reaches₁ up a b).card

theorem depth_le (up : α → Option α) (nodes : Finset α) (a : α) : depth up nodes a ≤ nodes.card := by
  classical
  exact Finset.card_filter_le ..

theorem Forest.depth_lt (h : Forest up nodes) (ha : a ∈ nodes) (hab : up a = some b) :
    depth up nodes b < depth up nodes a := by
  classical
  have hb := h.closed a ha b hab
  refine Finset.card_lt_card (Finset.ssubset_iff_of_subset ?_ |>.mpr ⟨b, ?_, ?_⟩)
  · intro c hc
    obtain ⟨hmem, hbc⟩ := Finset.mem_filter.mp hc
    exact Finset.mem_filter.mpr ⟨hmem, hbc.head hab⟩
  · exact Finset.mem_filter.mpr ⟨hb, .single hab⟩
  · exact fun hself => h.acyclic b hb (Finset.mem_filter.mp hself).2

theorem forest_of_rank (rank : α → ℕ) (hclosed : ∀ a ∈ nodes, ∀ b, up a = some b → b ∈ nodes)
    (hrank : ∀ a b, up a = some b → rank b < rank a) : Forest up nodes where
  closed := hclosed
  acyclic a _ h := by
    have hless : ∀ b, Reaches₁ up a b → rank b < rank a := by
      intro b hab
      induction hab with
      | single hab => exact hrank _ _ hab
      | tail _ hbc ih => exact (hrank _ _ hbc).trans ih
    exact Nat.lt_irrefl _ (hless a h)

theorem Forest.reaches_mem (h : Forest up nodes) (ha : a ∈ nodes) (hab : Reaches up a b) : b ∈ nodes := by
  induction hab with
  | refl => exact ha
  | tail _ hstep ih => exact h.closed _ ih _ hstep

end Depth

theorem reaches_head {up : α → Option α} {a b : α} (h : Reaches up a b) :
    a = b ∨ ∃ c, up a = some c ∧ Reaches up c b := by
  obtain rfl | ⟨c, hac, hcb⟩ := Relation.ReflTransGen.cases_head h
  · exact .inl rfl
  · exact .inr ⟨c, hac, hcb⟩

theorem reaches_of_up_none {up : α → Option α} {a b : α} (h : Reaches up a b) (ha : up a = none) :
    a = b := by
  obtain rfl | ⟨c, hac, -⟩ := reaches_head h
  · rfl
  · simp [ha] at hac

/-- Two children of `a` are not both above `x`, unless `a` is above itself. -/
theorem child_unique {up : α → Option α} {a c d x : α} (hacyclic : ¬ Reaches₁ up a a)
    (hca : up c = some a) (hda : up d = some a) (hxc : Reaches up x c) (hxd : Reaches up x d) :
    c = d := by
  have hsame {b e : α} (hba : up b = some a) (hea : up e = some a) (hbe : Reaches up b e) : b = e := by
    obtain rfl | ⟨a', ha', hreach⟩ := reaches_head hbe
    · rfl
    · obtain rfl := Option.some.inj (hba.symm.trans ha')
      exact absurd (Relation.TransGen.tail' hreach hea) hacyclic
  obtain hcd | hdc := reaches_total hxc hxd
  · exact hsame hca hda hcd
  · exact (hsame hda hca hdc).symm

/-! ## Traversal -/

/-- A loop that appends what each turn yields; it fails when a turn fails. -/
def visitAll {β : Type*} (f : α → Option (List β)) : List α → Option (List β)
  | [] => some []
  | a :: as => (f a).bind fun l => (visitAll f as).map (l ++ ·)

def preorder (kids : α → Option (List α)) : ℕ → α → Option (List α)
  | 0, _ => none
  | fuel + 1, a => (kids a).bind fun cs => (visitAll (preorder kids fuel) cs).map (a :: ·)

theorem visitAll_map {β γ : Type*} (f : α → Option (List β)) (g : β → γ) (as : List α) :
    (visitAll f as).map (List.map g) = visitAll (fun a => (f a).map (List.map g)) as := by
  induction as with
  | nil => rfl
  | cons a as ih =>
    simp only [visitAll, ← ih]
    cases f a with
    | none => rfl
    | some l => cases visitAll f as <;> simp

/-- Each turn yields the elements that belong to it, and none belongs to two turns. -/
theorem visitAll_exact {f : α → Option (List α)} (belongs : α → α → Prop) {as : List α}
    (hnodup : as.Nodup) (hone : ∀ x, ∀ a ∈ as, ∀ b ∈ as, belongs x a → belongs x b → a = b)
    (hf : ∀ a ∈ as, ∃ l, f a = some l ∧ l.Nodup ∧ ∀ x, x ∈ l ↔ belongs x a) :
    ∃ l, visitAll f as = some l ∧ l.Nodup ∧ ∀ x, x ∈ l ↔ ∃ a ∈ as, belongs x a := by
  induction as with
  | nil => exact ⟨[], rfl, List.nodup_nil, by simp⟩
  | cons a as ih =>
    obtain ⟨ha, hnodup⟩ := List.nodup_cons.mp hnodup
    obtain ⟨l, hl, hlnodup, hlmem⟩ := hf a List.mem_cons_self
    obtain ⟨ls, hls, hlsnodup, hlsmem⟩ := ih hnodup
      (fun x b hb c hc => hone x b (List.mem_cons_of_mem _ hb) c (List.mem_cons_of_mem _ hc))
      fun b hb => hf b (List.mem_cons_of_mem _ hb)
    refine ⟨l ++ ls, by simp [visitAll, hl, hls], ?_, ?_⟩
    · refine List.nodup_append.mpr ⟨hlnodup, hlsnodup, ?_⟩
      rintro x hx y hy rfl
      obtain ⟨b, hb, hxb⟩ := (hlsmem x).mp hy
      obtain rfl := hone x a List.mem_cons_self b (List.mem_cons_of_mem _ hb) ((hlmem x).mp hx) hxb
      exact ha hb
    · intro x
      rw [List.mem_append, hlmem, hlsmem]
      simp

/-- What a traversal needs: the elements that are there have a list of exactly their children, each
once, and the rank falls towards the roots and is bounded. -/
structure Listed (up : α → Option α) (has : α → Prop) (rank : α → ℕ) (bound : ℕ)
    (kids : α → Option (List α)) : Prop where
  listed : ∀ a, has a → ∃ cs, kids a = some cs ∧ cs.Nodup ∧ ∀ c, c ∈ cs ↔ has c ∧ up c = some a
  closed : ∀ a b, has a → up a = some b → has b
  falls : ∀ a b, has a → up a = some b → rank b < rank a
  below : ∀ a, has a → rank a < bound

section Preorder

variable {up : α → Option α} {has : α → Prop} {rank : α → ℕ} {bound : ℕ}
  {kids : α → Option (List α)}

theorem Listed.rank_le (h : Listed up has rank bound kids) {a b : α} (ha : has a)
    (hab : Reaches up a b) : has b ∧ rank b ≤ rank a := by
  induction hab with
  | refl => exact ⟨ha, le_rfl⟩
  | tail _ hstep ih =>
    obtain ⟨hb, hle⟩ := ih
    exact ⟨h.closed _ _ hb hstep, (h.falls _ _ hb hstep).le.trans hle⟩

theorem Listed.acyclic (h : Listed up has rank bound kids) {a : α} (ha : has a) :
    ¬ Reaches₁ up a a := by
  intro hself
  obtain ⟨c, hac, hca⟩ := Relation.TransGen.tail'_iff.mp hself
  obtain ⟨hc, hle⟩ := h.rank_le ha hac
  exact absurd (h.falls c a hc hca) (Nat.not_lt.mpr hle)

/-- From `a`, all that is under `a` is visited once. -/
theorem Listed.preorder (h : Listed up has rank bound kids) (fuel : ℕ) {a : α} (ha : has a)
    (hfuel : bound ≤ rank a + fuel) :
    ∃ l, preorder kids fuel a = some l ∧ l.Nodup ∧ ∀ x, x ∈ l ↔ has x ∧ Reaches up x a := by
  induction fuel generalizing a with
  | zero => exact absurd (h.below a ha) (Nat.not_lt.mpr hfuel)
  | succ fuel ih =>
    obtain ⟨cs, hcs, hnodup, hmem⟩ := h.listed a ha
    obtain ⟨l, hl, hlnodup, hlmem⟩ := visitAll_exact (f := ParentForests.preorder kids fuel)
      (fun x c => has x ∧ Reaches up x c) hnodup
      (fun x c hc d hd hxc hxd => by
        obtain ⟨hc, hca⟩ := (hmem c).mp hc
        obtain ⟨hd, hda⟩ := (hmem d).mp hd
        exact child_unique (h.acyclic ha) hca hda hxc.2 hxd.2)
      (fun c hc => by
        obtain ⟨hc, hca⟩ := (hmem c).mp hc
        have hrank := h.falls c a hc hca
        exact ih hc (by omega))
    refine ⟨a :: l, by simp [ParentForests.preorder, hcs, hl], List.nodup_cons.mpr ⟨?_, hlnodup⟩, ?_⟩
    · -- `a` is above its children
      intro hal
      obtain ⟨c, hc, -, hreach⟩ := (hlmem a).mp hal
      obtain ⟨hc, hca⟩ := (hmem c).mp hc
      exact absurd (h.falls c a hc hca) (Nat.not_lt.mpr (h.rank_le ha hreach).2)
    · intro x
      rw [List.mem_cons, hlmem]
      constructor
      · rintro (rfl | ⟨c, hc, hx, hxc⟩)
        · exact ⟨ha, .refl⟩
        · exact ⟨hx, hxc.tail ((hmem c).mp hc).2⟩
      · rintro ⟨hx, hxa⟩
        obtain rfl | ⟨c, hxc, hca⟩ := Relation.ReflTransGen.cases_tail hxa
        · exact .inl rfl
        · exact .inr ⟨c, (hmem c).mpr ⟨(h.rank_le hx hxc).1, hca⟩, hx, hxc⟩

end Preorder

end ParentForests
