import Mathlib.Data.List.Nodup
import Mathlib.Logic.Function.Basic
import Mathlib.Tactic.Common

/-! # Doubly linked lists with a head and a tail

Memory is a pointer for each node and direction. The forward list is read from the head
through `next` and the backward list from the tail through `prev`; both are chains, and an
operation at one end of the list pushes on one chain and extends the other at its end. -/
namespace DoublyLinked

open Function

variable {α : Type*} {next next' : α → Option α} {p q r : Option α} {a b : α} {l l₁ l₂ : List α}

/-- From `p` the pointers lead through `l` and then to `q`. -/
def Path (next : α → Option α) : Option α → List α → Option α → Prop
  | p, [], q => p = q
  | p, a :: l, q => p = some a ∧ Path next (next a) l q

def Chain (next : α → Option α) (p : Option α) (l : List α) : Prop := Path next p l none

theorem path_append : Path next p (l₁ ++ l₂) q ↔ ∃ r, Path next p l₁ r ∧ Path next r l₂ q := by
  induction l₁ generalizing p with
  | nil => simp [Path]
  | cons a l₁ ih => simp [Path, ih, and_assoc]

theorem path_congr (h : ∀ x ∈ l, next' x = next x) (hp : Path next p l q) : Path next' p l q := by
  induction l generalizing p with
  | nil => exact hp
  | cons a l ih =>
    obtain ⟨rfl, hp⟩ := hp
    refine ⟨rfl, ?_⟩
    rw [h a (by simp)]
    exact ih (fun x hx => h x (by simp [hx])) hp

theorem chain_unique (h₁ : Chain next p l₁) (h₂ : Chain next p l₂) : l₁ = l₂ := by
  induction l₁ generalizing p l₂ with
  | nil =>
    cases l₂ with
    | nil => rfl
    | cons b l₂ =>
      obtain rfl : p = none := h₁
      cases h₂.1
  | cons a l₁ ih =>
    obtain ⟨rfl, h₁⟩ := h₁
    cases l₂ with
    | nil => cases h₂
    | cons b l₂ =>
      obtain ⟨hb, h₂⟩ := h₂
      cases hb
      rw [ih h₁ h₂]

theorem chain_suffix (h : Chain next p (l₁ ++ a :: l₂)) : Chain next (next a) l₂ := by
  obtain ⟨r, -, h⟩ := path_append.mp h
  exact h.2

theorem chain_nodup (h : Chain next p l) : l.Nodup := by
  induction l generalizing p with
  | nil => exact List.nodup_nil
  | cons a l ih =>
    refine List.nodup_cons.mpr ⟨fun ha => ?_, ih h.2⟩
    obtain ⟨l₁, l₂, rfl⟩ := List.mem_iff_append.mp ha
    have he := congrArg List.length (chain_unique h.2 (chain_suffix h.2))
    simp only [List.length_append, List.length_cons] at he
    omega

theorem chain_last (h : Chain next p (l ++ [a])) : next a = none := chain_suffix h

theorem chain_head (h : Chain next p l) : p = l.head? := by
  cases l with
  | nil => exact h
  | cons a l => exact h.1

section Update

variable [DecidableEq α]

theorem path_update (h : Path next p l q) (ha : a ∉ l) (v : Option α) :
    Path (Function.update next a v) p l q := by
  refine path_congr (fun x hx => update_of_ne ?_ _ _) h
  rintro rfl
  exact ha hx

theorem path_retarget (h : Path next p (l ++ [b]) q) (hb : b ∉ l) (r : Option α) :
    Path (Function.update next b r) p (l ++ [b]) r := by
  obtain ⟨s, h₁, h₂⟩ := path_append.mp h
  refine path_append.mpr ⟨s, path_update h₁ hb r, h₂.1, ?_⟩
  rw [update_self]
  rfl

theorem chain_push (h : Chain next p l) (ha : a ∉ l) :
    Chain (Function.update next a p) (some a) (a :: l) := by
  refine ⟨rfl, ?_⟩
  rw [update_self]
  exact path_update h ha p

theorem chain_snoc (h : Chain next p (l ++ [b])) (ha : next a = none) (hm : a ∉ l ++ [b]) :
    Chain (Function.update next b (some a)) p (l ++ [b] ++ [a]) := by
  have hb : b ∉ l := by
    have := chain_nodup h
    simp only [List.nodup_append, List.mem_singleton] at this
    exact fun hl => this.2.2 b hl b rfl rfl
  refine path_append.mpr ⟨some a, path_retarget h hb (some a), rfl, ?_⟩
  rw [update_of_ne]
  · exact ha
  · rintro rfl
    simp at hm

/-- A node taken out behind `b`. -/
theorem chain_unlink (h : Chain next p (l₁ ++ [b] ++ a :: l₂)) :
    Chain (Function.update next b (next a)) p (l₁ ++ [b] ++ l₂) := by
  have hnd := chain_nodup h
  obtain ⟨s, h₁, h₂⟩ := path_append.mp h
  have hb : b ∉ l₁ ∧ b ∉ l₂ := by
    simp only [List.append_assoc, List.nodup_append, List.singleton_append] at hnd
    exact ⟨fun hl => hnd.2.2 b hl b (by simp) rfl, fun hl =>
      (List.nodup_cons.mp hnd.2.1).1 (by simp [hl])⟩
  exact path_append.mpr ⟨next a, path_retarget h₁ hb.1 _, path_update h₂.2 hb.2 _⟩

end Update

/-- The four places that name the nodes of a list. -/
structure Links (α : Type*) where
  head : Option α
  tail : Option α
  next : α → Option α
  prev : α → Option α

/-- Read forward the list is `l`, read backward it is its reverse. -/
structure Links.Holds (L : Links α) (l : List α) : Prop where
  forward : Chain L.next L.head l
  backward : Chain L.prev L.tail l.reverse

def Links.flip (L : Links α) : Links α := ⟨L.tail, L.head, L.prev, L.next⟩

section Links

variable {L : Links α}

theorem Links.Holds.flip (h : L.Holds l) : L.flip.Holds l.reverse :=
  ⟨h.backward, by rw [List.reverse_reverse]; exact h.forward⟩

theorem Links.Holds.nodup (h : L.Holds l) : l.Nodup := chain_nodup h.forward

theorem Links.Holds.head_eq (h : L.Holds l) : L.head = l.head? := chain_head h.forward

theorem Links.Holds.tail_eq (h : L.Holds l) : L.tail = l.getLast? := by
  rw [chain_head h.backward, List.head?_reverse]

theorem Links.Holds.next_eq (h : L.Holds (l₁ ++ a :: l₂)) : L.next a = l₂.head? :=
  chain_head (chain_suffix h.forward)

theorem Links.Holds.prev_eq (h : L.Holds (l₁ ++ a :: l₂)) : L.prev a = l₁.getLast? := by
  have hb := h.backward
  rw [List.reverse_append, List.reverse_cons, List.append_assoc, List.singleton_append] at hb
  rw [chain_head (chain_suffix hb), List.head?_reverse]

end Links

end DoublyLinked
