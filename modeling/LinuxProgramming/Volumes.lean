import LinuxProgramming.ByteFiles

/-! # Directories and the files behind their names

A name leads to an i-node and an i-node to its bytes. A process that has a file open keeps
the i-node, whatever happens to the name. -/
namespace Volumes

open CStrings ByteFiles Function

variable {κ : Type*} [DecidableEq κ]

structure Volume (κ : Type*) where
  entries : List (κ × ℕ)
  content : ℕ → List Byte
  fresh : ℕ

namespace Volume

def inode (v : Volume κ) (p : κ) : Option ℕ := v.entries.lookup p

def file (v : Volume κ) (p : κ) : Option (List Byte) := (v.inode p).map v.content

def names (v : Volume κ) : List κ := v.entries.map Prod.fst

def creat (v : Volume κ) (p : κ) : Volume κ × ℕ :=
  match v.inode p with
  | some i => ({ v with content := Function.update v.content i [] }, i)
  | none =>
    ({ entries := (p, v.fresh) :: v.entries
       content := Function.update v.content v.fresh []
       fresh := v.fresh + 1 }, v.fresh)

def unlink (v : Volume κ) (p : κ) : Volume κ :=
  { v with entries := v.entries.filter fun e => e.1 ≠ p }

def write (v : Volume κ) (i off : ℕ) (bs : List Byte) : Volume κ :=
  { v with content := Function.update v.content i (pwrite (v.content i) off bs) }

/-- Every name has an i-node of its own. -/
structure OK (v : Volume κ) : Prop where
  known : ∀ p i, v.inode p = some i → i < v.fresh
  single : ∀ p q i, v.inode p = some i → v.inode q = some i → p = q

variable {v : Volume κ} {p q : κ} {i : ℕ}

theorem file_eq_some {bs : List Byte} :
    v.file p = some bs ↔ ∃ i, v.inode p = some i ∧ v.content i = bs := by
  simp [file]

theorem file_of_inode (h : v.inode p = some i) : v.file p = some (v.content i) := by
  simp [file, h]

theorem mem_names : p ∈ v.names ↔ ∃ i, v.inode p = some i := by
  simp only [names, inode, List.mem_map]
  constructor
  · rintro ⟨⟨p, i⟩, he, rfl⟩
    cases h : v.entries.lookup p with
    | none => exact absurd (List.lookup_eq_none_iff.mp h (p, i) he) (by simp)
    | some j => exact ⟨j, rfl⟩
  · rintro ⟨i, hi⟩
    obtain ⟨l₁, l₂, he, -⟩ := List.lookup_eq_some_iff.mp hi
    exact ⟨(p, i), by rw [he]; simp, rfl⟩

theorem mem_names_of_file {bs : List Byte} (h : v.file p = some bs) : p ∈ v.names := by
  obtain ⟨i, hi, -⟩ := file_eq_some.mp h
  exact mem_names.mpr ⟨i, hi⟩

theorem creat_of_some (h : v.inode p = some i) :
    v.creat p = ({ v with content := Function.update v.content i [] }, i) := by
  simp only [creat, h]

theorem creat_of_none (h : v.inode p = none) :
    v.creat p = ({ entries := (p, v.fresh) :: v.entries
                   content := Function.update v.content v.fresh []
                   fresh := v.fresh + 1 }, v.fresh) := by
  simp only [creat, h]

theorem inode_creat_self (v : Volume κ) (p : κ) : (v.creat p).1.inode p = some (v.creat p).2 := by
  cases h : v.inode p with
  | some i =>
    rw [creat_of_some h]
    exact h
  | none =>
    rw [creat_of_none h]
    simp [inode]

theorem inode_creat_other (v : Volume κ) (h : q ≠ p) : (v.creat p).1.inode q = v.inode q := by
  cases hp : v.inode p with
  | some i =>
    rw [creat_of_some hp]
    rfl
  | none =>
    have hb : (q == p) = false := by simpa using h
    rw [creat_of_none hp]
    simp [inode, List.lookup_cons, hb]

theorem content_creat_self (v : Volume κ) (p : κ) : (v.creat p).1.content (v.creat p).2 = [] := by
  cases h : v.inode p with
  | some i =>
    rw [creat_of_some h]
    exact update_self _ _ _
  | none =>
    rw [creat_of_none h]
    exact update_self _ _ _

theorem creat_snd_ne (h : v.OK) (hq : v.inode q = some i) (hne : q ≠ p) : (v.creat p).2 ≠ i := by
  cases hp : v.inode p with
  | some j =>
    rw [creat_of_some hp]
    rintro rfl
    exact hne (h.single q p j hq hp)
  | none =>
    rw [creat_of_none hp]
    exact Nat.ne_of_gt (h.known q i hq)

theorem content_creat_other {j : ℕ} (h : (v.creat p).2 ≠ j) :
    (v.creat p).1.content j = v.content j := by
  cases hp : v.inode p with
  | some i =>
    rw [creat_of_some hp] at h ⊢
    exact update_of_ne (Ne.symm h) _ _
  | none =>
    rw [creat_of_none hp] at h ⊢
    exact update_of_ne (Ne.symm h) _ _

theorem file_creat_other (h : v.OK) (hne : q ≠ p) : (v.creat p).1.file q = v.file q := by
  rw [file, file, inode_creat_other v hne]
  cases hq : v.inode q with
  | none => rfl
  | some i =>
    rw [Option.map_some, Option.map_some, content_creat_other (creat_snd_ne h hq hne)]

theorem ok_creat (h : v.OK) (p : κ) : (v.creat p).1.OK := by
  cases hp : v.inode p with
  | some i =>
    rw [creat_of_some hp]
    exact ⟨h.known, h.single⟩
  | none =>
    have hother : ∀ q j, q ≠ p → (v.creat p).1.inode q = some j → v.inode q = some j :=
      fun q j hq hj => by rwa [inode_creat_other v hq] at hj
    have hself : ∀ j, (v.creat p).1.inode p = some j → j = v.fresh := by
      intro j hj
      rw [inode_creat_self, creat_of_none hp] at hj
      exact (Option.some.inj hj).symm
    have hfresh : (v.creat p).1.fresh = v.fresh + 1 := by rw [creat_of_none hp]
    constructor
    · intro q j hj
      rw [hfresh]
      by_cases hq : q = p
      · subst hq
        rw [hself j hj]
        exact Nat.lt_succ_self _
      · exact Nat.lt_succ_of_lt (h.known q j (hother q j hq hj))
    · intro q r j hj hj'
      by_cases hq : q = p
      · by_cases hr : r = p
        · rw [hq, hr]
        · subst hq
          have := h.known r j (hother r j hr hj')
          rw [hself j hj] at this
          exact absurd this (Nat.lt_irrefl _)
      · by_cases hr : r = p
        · subst hr
          have := h.known q j (hother q j hq hj)
          rw [hself j hj'] at this
          exact absurd this (Nat.lt_irrefl _)
        · exact h.single q r j (hother q j hq hj) (hother r j hr hj')

theorem inode_unlink_self (v : Volume κ) (p : κ) : (v.unlink p).inode p = none := by
  simp only [unlink, inode, List.lookup_eq_none_iff, List.mem_filter, decide_eq_true_eq]
  rintro e ⟨-, he⟩
  simpa using Ne.symm he

theorem inode_unlink_other (v : Volume κ) (h : q ≠ p) : (v.unlink p).inode q = v.inode q := by
  simp only [unlink, inode]
  induction v.entries with
  | nil => rfl
  | cons e l ih =>
    obtain ⟨k, i⟩ := e
    by_cases hk : k = p
    · subst hk
      have hb : (q == k) = false := by simpa using h
      rw [List.filter_cons_of_neg (by simp), ih]
      simp [List.lookup_cons, hb]
    · rw [List.filter_cons_of_pos (by simpa using hk)]
      by_cases hq : q = k
      · simp [hq]
      · have hb : (q == k) = false := by simpa using hq
        simp only [List.lookup_cons, hb]
        exact ih

theorem inode_of_unlink (h : (v.unlink p).inode q = some i) : q ≠ p ∧ v.inode q = some i := by
  have hq : q ≠ p := by
    rintro rfl
    rw [inode_unlink_self] at h
    cases h
  exact ⟨hq, by rwa [inode_unlink_other v hq] at h⟩

theorem ok_unlink (h : v.OK) (p : κ) : (v.unlink p).OK where
  known _ _ hq := h.known _ _ (inode_of_unlink hq).2
  single _ _ _ hq hr := h.single _ _ _ (inode_of_unlink hq).2 (inode_of_unlink hr).2

@[simp] theorem inode_write (v : Volume κ) (i off : ℕ) (bs : List Byte) (p : κ) :
    (v.write i off bs).inode p = v.inode p := rfl

omit [DecidableEq κ] in
theorem content_write_self (v : Volume κ) (i off : ℕ) (bs : List Byte) :
    (v.write i off bs).content i = pwrite (v.content i) off bs := by simp [write]

theorem file_write_other (v : Volume κ) (i off : ℕ) (bs : List Byte) (h : v.inode q ≠ some i) :
    (v.write i off bs).file q = v.file q := by
  rw [file, file, inode_write]
  cases hq : v.inode q with
  | none => rfl
  | some j =>
    have hj : j ≠ i := by
      rintro rfl
      exact h hq
    simp [write, update_of_ne hj]

theorem ok_write (h : v.OK) (i off : ℕ) (bs : List Byte) : (v.write i off bs).OK :=
  ⟨h.known, h.single⟩

end Volume

end Volumes
