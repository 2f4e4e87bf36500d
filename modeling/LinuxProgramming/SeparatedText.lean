import Mathlib.Data.List.Forall2
import Mathlib.Order.Basic
import Mathlib.Tactic.Common

/-! # Texts with separators

A text over any alphabet as its pieces between separators, and the positions at which it is cut. -/
namespace SeparatedText

variable {α : Type*}

/-! ## Overwriting a separator -/

theorem set_append_cons (s : List α) (b c : α) (rest : List α) :
    (s ++ b :: rest).set s.length c = s ++ c :: rest := by
  simp

theorem drop_append_cons (s : List α) (b : α) (rest : List α) :
    (s ++ b :: rest).drop (s.length + 1) = rest := by
  rw [List.drop_append, List.drop_eq_nil_of_le (by omega), List.nil_append, Nat.add_sub_cancel_left]
  rfl

/-! ## Pieces -/

theorem intercalate_cons (sep : α) (s : List α) {pieces : List (List α)} (h : pieces ≠ []) :
    [sep].intercalate (s :: pieces) = s ++ sep :: [sep].intercalate pieces := by
  obtain ⟨t, pieces, rfl⟩ := List.exists_cons_of_ne_nil h
  rw [List.intercalate_cons_cons, List.append_assoc, List.singleton_append]

theorem mem_intercalate {sep b : α} {pieces : List (List α)} (h : b ∈ [sep].intercalate pieces) :
    b = sep ∨ ∃ piece ∈ pieces, b ∈ piece := by
  induction pieces with
  | nil => cases h
  | cons s pieces ih =>
    by_cases hnil : pieces = []
    · subst hnil
      rw [List.intercalate_singleton] at h
      exact .inr ⟨s, List.mem_cons_self, h⟩
    · rw [intercalate_cons sep s hnil, List.mem_append, List.mem_cons] at h
      rcases h with h | h | h
      · exact .inr ⟨s, List.mem_cons_self, h⟩
      · exact .inl h
      · obtain hsep | ⟨piece, hmem, hb⟩ := ih h
        · exact .inl hsep
        · exact .inr ⟨piece, List.mem_cons_of_mem _ hmem, hb⟩

/-- Pieces that are the texts of items, each related to what is made of it. -/
theorem forall₂_iff_exists_items {ι β : Type*} {text : ι → List α} {R : List α → β → Prop}
    {S : ι → β → Prop} {pieces : List (List α)} {bs : List β}
    (hR : ∀ t ∈ pieces, ∀ b, R t b ↔ ∃ i, t = text i ∧ S i b) :
    List.Forall₂ R pieces bs ↔ ∃ items : List ι, pieces = items.map text ∧ List.Forall₂ S items bs := by
  induction pieces generalizing bs with
  | nil =>
    constructor
    · intro h
      cases h
      exact ⟨[], rfl, .nil⟩
    · rintro ⟨items, hmap, h⟩
      obtain rfl := List.map_eq_nil_iff.mp hmap.symm
      cases h
      exact .nil
  | cons t pieces ih =>
    have hR' : ∀ t' ∈ pieces, ∀ b, R t' b ↔ ∃ i, t' = text i ∧ S i b :=
      fun t' ht => hR t' (List.mem_cons_of_mem _ ht)
    constructor
    · intro h
      cases h with
      | cons hhead htail =>
        obtain ⟨i, rfl, hi⟩ := (hR t List.mem_cons_self _).mp hhead
        obtain ⟨items, rfl, hitems⟩ := (ih hR').mp htail
        exact ⟨i :: items, rfl, .cons hi hitems⟩
    · rintro ⟨items, hmap, h⟩
      obtain ⟨i, items, rfl, rfl, rfl⟩ := List.map_eq_cons_iff.mp hmap.symm
      cases h with
      | cons hhead htail =>
        exact .cons ((hR _ List.mem_cons_self _).mpr ⟨i, rfl, hhead⟩) ((ih hR').mpr ⟨items, rfl, htail⟩)

theorem forall₂_eq_map_iff {ι β : Type*} (f : ι → β) (items : List ι) (bs : List β) :
    List.Forall₂ (fun i b => b = f i) items bs ↔ bs = items.map f := by
  constructor
  · intro h
    induction h with
    | nil => rfl
    | cons hb _ ih => rw [List.map_cons, hb, ih]
  · rintro rfl
    rw [List.forall₂_map_right_iff, List.forall₂_same]
    exact fun _ _ => rfl

/-! ## Maximal runs -/

variable {p : α → Bool} {s run : List α} {b : α}

def runs (p : α → Bool) (s : List α) : List (List α) := (s.splitOnP p).filter fun run => !run.isEmpty

theorem runs_cons (hb : p b = true) (s : List α) : runs p (b :: s) = runs p s := by
  have h : (([] : List α) ++ b :: s).splitOnP p = _ :=
    List.splitOnP_append_cons_of_forall_mem (by simp) b hb s
  rw [List.nil_append] at h
  rw [runs, h]
  rfl

theorem runs_append {w : List α} (hw : ∀ b ∈ w, p b = true) (s : List α) :
    runs p (w ++ s) = runs p s := by
  induction w with
  | nil => rfl
  | cons b w ih =>
    rw [List.cons_append, runs_cons (hw b List.mem_cons_self), ih fun c hc => hw c (List.mem_cons_of_mem _ hc)]


theorem runs_run (hrun : ∀ b ∈ run, p b = false) (hne : run ≠ []) : runs p run = [run] := by
  rw [runs, List.splitOnP_eq_singleton hrun]
  simp [hne]

theorem runs_run_append (hrun : ∀ b ∈ run, p b = false) (hne : run ≠ []) (hb : p b = true)
    (s : List α) : runs p (run ++ b :: s) = run :: runs p s := by
  rw [runs, List.splitOnP_append_cons_of_forall_mem hrun b hb]
  simp [hne, runs]

/-! ## Splitting at a separator -/

variable [DecidableEq α]

/-- A text is its last piece, or a piece, a separator and a text. -/
theorem separated_induction (sep : α) {P : List α → Prop} (last : ∀ s, sep ∉ s → P s)
    (more : ∀ s t, sep ∉ s → P t → P (s ++ sep :: t)) (s : List α) : P s := by
  induction hlen : s.length using Nat.strongRecOn generalizing s with
  | ind len ih =>
    by_cases hsep : sep ∈ s
    · obtain ⟨t, rest, rfl, ht⟩ := List.eq_append_cons_of_mem hsep
      refine more t rest ht (ih rest.length ?_ rest rfl)
      rw [← hlen, List.length_append, List.length_cons]
      omega
    · exact last s hsep

theorem notMem_of_mem_splitOn {sep : α} {s piece : List α} (h : piece ∈ s.splitOn sep) :
    sep ∉ piece := by
  induction s using separated_induction sep with
  | last s hs =>
    rw [List.splitOn_eq_singleton hs, List.mem_singleton] at h
    rwa [h]
  | more s t hs ih =>
    rw [List.splitOn_append_cons_self_of_not_mem hs, List.mem_cons] at h
    rcases h with rfl | h
    · exact hs
    · exact ih h

theorem mem_of_mem_splitOn {sep b : α} {s piece : List α} (h : piece ∈ s.splitOn sep)
    (hb : b ∈ piece) : b ∈ s := by
  induction s using separated_induction sep with
  | last s hs =>
    rw [List.splitOn_eq_singleton hs, List.mem_singleton] at h
    rwa [← h]
  | more s t hs ih =>
    rw [List.splitOn_append_cons_self_of_not_mem hs, List.mem_cons] at h
    rcases h with rfl | h
    · exact List.mem_append_left _ hb
    · exact List.mem_append_right _ (List.mem_cons_of_mem _ (ih h))

end SeparatedText
