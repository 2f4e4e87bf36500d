import LinuxProgramming.CStrings

/-! # The encoding of print protocol messages

A message is a header, attribute groups and an end tag. Numbers are big-endian; names and
values carry a two-byte length. A delimiter tag starts a group and a value tag starts an
attribute, so that the bytes have one reading at most. A message reads the bytes that it
renders to. -/
namespace IppEncoding

open CStrings

/-! ## Numbers -/

/-- The low `k` bytes of a number, the highest first. -/
def be : ℕ → ℕ → List Byte
  | 0, _ => []
  | k + 1, n => be k (n / 256) ++ [UInt8.ofNat n]

def beNat (bs : List Byte) : ℕ := bs.foldl (fun v b => 256 * v + b.toNat) 0

@[simp] theorem length_be (k n : ℕ) : (be k n).length = k := by
  induction k generalizing n with
  | zero => rfl
  | succ k ih => simp [be, ih]

theorem beNat_snoc (bs : List Byte) (b : Byte) : beNat (bs ++ [b]) = 256 * beNat bs + b.toNat := by
  simp [beNat]

theorem beNat_be (k n : ℕ) : beNat (be k n) = n % 256 ^ k := by
  induction k generalizing n with
  | zero => simp [be, beNat, Nat.mod_one]
  | succ k ih =>
    have hb : (UInt8.ofNat n).toNat = n % 256 := by simp
    rw [be, beNat_snoc, ih, hb, Nat.pow_succ, Nat.mul_comm (256 ^ k), Nat.mod_mul]
    omega

theorem beNat_be_of_lt {k n : ℕ} (h : n < 256 ^ k) : beNat (be k n) = n := by
  rw [beNat_be, Nat.mod_eq_of_lt h]

theorem be_cancel {k m n : ℕ} (hm : m < 256 ^ k) (hn : n < 256 ^ k) {r r' : List Byte}
    (h : be k m ++ r = be k n ++ r') : m = n ∧ r = r' := by
  obtain ⟨hbe, hr⟩ := List.append_inj h (by simp)
  refine ⟨?_, hr⟩
  rw [← beNat_be_of_lt hm, hbe, beNat_be_of_lt hn]

/-! ## Strings with their lengths -/

def counted (s : List Byte) : List Byte := be 2 s.length ++ s

theorem length_counted (s : List Byte) : (counted s).length = 2 + s.length := by simp [counted]

theorem counted_cancel {s t : List Byte} (hs : s.length < 65536) (ht : t.length < 65536)
    {r r' : List Byte} (h : counted s ++ r = counted t ++ r') : s = t ∧ r = r' := by
  simp only [counted, List.append_assoc] at h
  obtain ⟨hlen, h⟩ := be_cancel (k := 2) hs ht h
  exact List.append_inj h hlen

/-! ## Sequences -/

/-- Items that can be told from each other and from what ends their sequence. -/
theorem flatMap_cancel {α : Type*} {f : α → List Byte} {S F : List Byte → Prop}
    (hitem : ∀ a b r r', F r → F r' → f a ++ r = f b ++ r' → a = b ∧ r = r')
    (hfine : ∀ (l : List α) r, S r → F (l.flatMap f ++ r))
    (hstop : ∀ a r r', S r → r ≠ f a ++ r') {l l' : List α} {r r' : List Byte}
    (hr : S r) (hr' : S r') (h : l.flatMap f ++ r = l'.flatMap f ++ r') : l = l' ∧ r = r' := by
  induction l generalizing l' with
  | nil =>
    cases l' with
    | nil => exact ⟨rfl, h⟩
    | cons b l' =>
      rw [List.flatMap_nil, List.nil_append, List.flatMap_cons, List.append_assoc] at h
      exact absurd h (hstop b r _ hr)
  | cons a l ih =>
    cases l' with
    | nil =>
      rw [List.flatMap_nil, List.nil_append, List.flatMap_cons, List.append_assoc] at h
      exact absurd h.symm (hstop a r' _ hr')
    | cons b l' =>
      rw [List.flatMap_cons, List.flatMap_cons, List.append_assoc, List.append_assoc] at h
      obtain ⟨rfl, htail⟩ := hitem a b _ _ (hfine l r hr) (hfine l' r' hr') h
      obtain ⟨rfl, hrest⟩ := ih htail
      exact ⟨rfl, hrest⟩

/-! ## Messages -/

def isDelimiter (tag : Byte) : Bool := tag < 16

def endTag : Byte := 3

/-- An attribute; a further value of the same attribute has an empty name. -/
@[ext] structure Attribute where
  tag : Byte
  name : List Byte
  value : List Byte
  value_tag : isDelimiter tag = false
  name_lt : name.length < 65536
  value_lt : value.length < 65536
  deriving DecidableEq

@[ext] structure Group where
  tag : Byte
  attributes : List Attribute
  delimiter : isDelimiter tag = true
  not_end : tag ≠ endTag
  deriving DecidableEq

@[ext] structure Message where
  major : Byte
  minor : Byte
  /-- The operation of a request or the status of a response. -/
  code : UInt16
  requestId : UInt32
  groups : List Group
  deriving DecidableEq

def Attribute.render (a : Attribute) : List Byte := a.tag :: counted a.name ++ counted a.value

def Group.render (g : Group) : List Byte := g.tag :: g.attributes.flatMap Attribute.render

def Message.header (m : Message) : List Byte :=
  m.major :: m.minor :: be 2 m.code.toNat ++ be 4 m.requestId.toNat

def Message.render (m : Message) : List Byte :=
  m.header ++ m.groups.flatMap Group.render ++ [endTag]

theorem Attribute.cancel {a b : Attribute} {r r' : List Byte}
    (h : a.render ++ r = b.render ++ r') : a = b ∧ r = r' := by
  simp only [Attribute.render, List.cons_append, List.append_assoc, List.cons.injEq] at h
  obtain ⟨htag, h⟩ := h
  obtain ⟨hname, h⟩ := counted_cancel a.name_lt b.name_lt h
  obtain ⟨hvalue, h⟩ := counted_cancel a.value_lt b.value_lt h
  exact ⟨Attribute.ext htag hname hvalue, h⟩

def Delimited (r : List Byte) : Prop := ∃ b t, r = b :: t ∧ isDelimiter b = true

theorem attributes_cancel {l l' : List Attribute} {r r' : List Byte} (hr : Delimited r)
    (hr' : Delimited r')
    (h : l.flatMap Attribute.render ++ r = l'.flatMap Attribute.render ++ r') : l = l' ∧ r = r' := by
  refine flatMap_cancel (F := fun _ => True) (fun a b _ _ _ _ => Attribute.cancel)
    (fun _ _ _ => trivial) ?_ hr hr' h
  rintro a _ r' ⟨b, t, rfl, hb⟩ he
  simp only [Attribute.render, List.cons_append, List.cons.injEq] at he
  rw [he.1, a.value_tag] at hb
  cases hb

theorem Group.cancel {g g' : Group} {r r' : List Byte} (hr : Delimited r) (hr' : Delimited r')
    (h : g.render ++ r = g'.render ++ r') : g = g' ∧ r = r' := by
  simp only [Group.render, List.cons_append, List.cons.injEq] at h
  obtain ⟨htag, h⟩ := h
  obtain ⟨hattr, h⟩ := attributes_cancel hr hr' h
  exact ⟨Group.ext htag hattr, h⟩

theorem groups_delimited (l : List Group) {r : List Byte} (h : Delimited r) :
    Delimited (l.flatMap Group.render ++ r) := by
  cases l with
  | nil => exact h
  | cons g l => exact ⟨g.tag, _, rfl, g.delimiter⟩

theorem groups_cancel {l l' : List Group} {t t' : List Byte}
    (h : l.flatMap Group.render ++ endTag :: t = l'.flatMap Group.render ++ endTag :: t') :
    l = l' ∧ t = t' := by
  have hend : ∀ t, Delimited (endTag :: t) := fun t => ⟨endTag, t, rfl, rfl⟩
  obtain ⟨hl, ht⟩ := flatMap_cancel (S := fun r => ∃ t, r = endTag :: t) (F := Delimited)
    (fun g g' r r' hr hr' => Group.cancel hr hr')
    (fun l r hr => by
      obtain ⟨t, rfl⟩ := hr
      exact groups_delimited l (hend t))
    (fun g r r' hr he => by
      obtain ⟨t, rfl⟩ := hr
      simp only [Group.render, List.cons_append, List.cons.injEq] at he
      exact g.not_end he.1.symm) ⟨t, rfl⟩ ⟨t', rfl⟩ h
  exact ⟨hl, (List.cons.inj ht).2⟩

theorem Message.header_cancel {m m' : Message} {r r' : List Byte}
    (h : m.header ++ r = m'.header ++ r') :
    m.major = m'.major ∧ m.minor = m'.minor ∧ m.code = m'.code ∧ m.requestId = m'.requestId ∧
      r = r' := by
  simp only [Message.header, List.cons_append, List.append_assoc, List.cons.injEq] at h
  obtain ⟨hmajor, hminor, h⟩ := h
  obtain ⟨hcode, h⟩ := be_cancel (k := 2) m.code.toNat_lt m'.code.toNat_lt h
  obtain ⟨hid, h⟩ := be_cancel (k := 4) m.requestId.toNat_lt m'.requestId.toNat_lt h
  exact ⟨hmajor, hminor, UInt16.toNat_inj.mp hcode, UInt32.toNat_inj.mp hid, h⟩

/-- Bytes are read in one way at most, whatever data follows the end tag. -/
theorem Message.cancel {m m' : Message} {t t' : List Byte}
    (h : m.render ++ t = m'.render ++ t') : m = m' ∧ t = t' := by
  simp only [Message.render, List.append_assoc, List.cons_append, List.nil_append] at h
  obtain ⟨hmajor, hminor, hcode, hid, h⟩ := Message.header_cancel h
  obtain ⟨hgroups, ht⟩ := groups_cancel h
  exact ⟨Message.ext hmajor hminor hcode hid hgroups, ht⟩

theorem Message.render_injective : Function.Injective Message.render := by
  intro m m' h
  exact (Message.cancel (show m.render ++ [] = m'.render ++ [] by rw [h])).1

end IppEncoding
