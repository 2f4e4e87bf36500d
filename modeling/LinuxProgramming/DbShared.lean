import LinuxProgramming.DbRefinement
import LinuxProgramming.RelyGuarantee

/-! # The database shared by many processes

The ghost state says to which list every index record belongs: to a hash chain, to the free
list, or to one process that has taken it off the free list or has just appended it. Who
holds the byte of a list may rely on its cells; who holds it for writing may change them. -/
namespace DbShared

open CStrings ByteFiles SyscallPrograms RelyGuarantee LinkedChains DbLibrary DbImage DbRecords
  DbLists DbInvariant DbOperations DbStore DbRefinement

set_option linter.unusedSectionVars false

abbrev DbEvent (ι : Type) := Event ι Fd Fatal Call Result

/-! ## Histories -/

def Call.mapOp : Call → Option MapOp
  | .fetch k => some (.fetch k)
  | .store k d flag => some (.store k d flag)
  | .delete k => some (.delete k)
  | .rewind => none
  | .nextrec => none

theorem mapOp_call (op : MapOp) : Call.mapOp op.call = some op := by
  cases op <;> rfl

def completion {ι : Type} : DbEvent ι → Option (ι × MapOp × Result)
  | .returned p c r => (Call.mapOp c).map fun op => (p, op, r)
  | _ => none

/-- The fetches, stores and deletions that returned, in the order in which they did. -/
def completed {ι : Type} (tr : List (DbEvent ι)) : List (ι × MapOp × Result) :=
  tr.filterMap completion

/-- The order of the returns is a sequential execution from `m₀` that ends with `m`. -/
def Legal {ι : Type} (m₀ : KeyMap) (tr : List (DbEvent ι)) (m : KeyMap) : Prop :=
  applyAll m₀ ((completed tr).map fun x => x.2.1) = ((completed tr).map fun x => x.2.2, m)

theorem applyAll_concat (m : KeyMap) (ops : List MapOp) (op : MapOp) :
    applyAll m (ops ++ [op]) = ((applyAll m ops).1 ++ [(op.apply (applyAll m ops).2).1],
      (op.apply (applyAll m ops).2).2) := by
  induction ops generalizing m with
  | nil => rfl
  | cons a ops ih => simp only [List.cons_append, applyAll, ih]

def TakesLock : MapOp → Prop
  | .store _ _ flag => ValidFlag flag
  | _ => True

/-- A call returns by releasing its chain, which it has held until then. -/
def LockedReturns {ι : Type} [DecidableEq ι] (tr : List (DbEvent ι)) : Prop :=
  ∀ before p op r after, tr = before ++ .returned p (MapOp.call op) r :: after → TakesLock op →
    ∃ tr', before = tr' ++ [.unlocked p .idx (chainOff op.key.1) 1] ∧
      locksAfter tr' p .idx (chainOff op.key.1) ≠ none

/-- What the processes do: `m₀` is in the database at the start, `ok` says which keys the
calls use, and the processes in `scans` only rewind and call db_nextrec. -/
structure Setting (ι : Type) where
  m₀ : KeyMap
  ok : CString → Prop
  scans : ι → Prop
  clean : ∀ k, ok k → sep ∉ k.1

/-- The pair was there at the start, or a store of it has written the data. -/
def Source {ι : Type} (S : Setting ι) (tr : List (DbEvent ι)) (k d : CString) : Prop :=
  S.m₀ k = some d ∨
    ∃ p flag off, Event.wrote p (.store k d flag) .dat off (d.1 ++ [newline]) ∈ tr

def Quietly {ι : Type} (p : ι) (tr : List (DbEvent ι)) : Prop := ∀ e ∈ tr, e.proc = p → e.isRead

/-- In the scan step that ends here a read at the end of the index file got nothing. -/
def AtEof {ι : Type} (p : ι) (tr : List (DbEvent ι)) : Prop :=
  ∃ tr₁ off tr₂, tr = tr₁ ++ .got p .nextrec .idx off (ptrSz + idxlenSz) [] ::
    (tr₂ ++ [.unlocked p .idx freeOff 1]) ∧ Quietly p tr₂

/-- A step of a scan returns NULL at the end of the file, or a pair that was stored whole. -/
def Scanned {ι : Type} (S : Setting ι) (tr : List (DbEvent ι)) (p : ι) (r : Result) : Prop :=
  (r = .record none ∧ AtEof p tr) ∨
    ∃ k d : CString, r = .record (some (k.1, d.1)) ∧ Source S tr k d

def ScanReturns {ι : Type} (S : Setting ι) (tr : List (DbEvent ι)) : Prop :=
  ∀ before p r after, tr = before ++ .returned p .nextrec r :: after → Scanned S before p r

/-! ## The ghost state -/

inductive Owner (ι : Type) where
  | chain (h : Fin nhash)
  | free
  | proc (p : ι)
  deriving DecidableEq

def Owner.head {ι : Type} : Owner ι → List ℕ
  | .chain h => [slotOff h]
  | .free => [freeOff]
  | .proc _ => []

/-- `pending p` is a block that `p` has appended and no record names yet. `victim` is a
record whose data a deletion has already wiped out while its key still stands. -/
structure Ghost (ι : Type) where
  locks : Locks ι Fd
  trace : List (DbEvent ι)
  img : Image
  list : Owner ι → List ℕ
  pending : ι → Option ℕ
  victim : Option ℕ
  map : KeyMap

variable {ι : Type} [DecidableEq ι]

namespace Ghost

def view (g : Ghost ι) : Shared ι Fd Fatal Call Result := ⟨g.img.files, g.locks, g.trace⟩

def cells (g : Ghost ι) (x : Owner ι) : List ℕ := x.head ++ g.list x

end Ghost

def hashOf (k : CString) : Fin nhash := ⟨dbHash k.1, dbHash_lt k.1⟩

def Guards (g : Ghost ι) (p : ι) : Owner ι → Prop
  | .chain h => g.locks p .idx (slotOff h) ≠ none
  | .free => g.locks p .idx freeOff ≠ none
  | .proc q => q = p

def Excl (g : Ghost ι) (p : ι) : Owner ι → Prop
  | .chain h => g.locks p .idx (slotOff h) = some .write
  | .free => g.locks p .idx freeOff = some .write
  | .proc q => q = p

/-- An entry that may take the place of another. -/
structure SameShape (e e' : Entry) : Prop where
  datoff : e'.datoff = e.datoff
  datlen : e'.datlen = e.datlen
  keylen : e'.key.1.length = e.key.1.length

theorem SameShape.refl (e : Entry) : SameShape e e := ⟨rfl, rfl, rfl⟩

theorem SameShape.trans {a b c : Entry} (h : SameShape a b) (h' : SameShape b c) :
    SameShape a c :=
  ⟨h'.datoff.trans h.datoff, h'.datlen.trans h.datlen, h'.keylen.trans h.keylen⟩

theorem SameShape.length {e e' : Entry} (h : SameShape e e') : e'.text.length = e.text.length := by
  simp only [Entry.text, length_entryText, h.datoff, h.datlen, h.keylen]

theorem SameShape.size {e e' : Entry} (h : SameShape e e') : e'.size = e.size := by
  simp only [Entry.size, h.length]

/-! ## What a process relies on -/

structure Rely (p : ι) (a b : Ghost ι) : Prop where
  locks : b.locks p = a.locks p
  trace : ∃ tr, b.trace = a.trace ++ tr ∧ Quietly p tr
  list : ∀ x, Guards a p x → b.list x = a.list x
  ptr : ∀ x, Guards a p x → ∀ o ∈ a.cells x, b.img.ptr o = a.img.ptr o
  same : ∀ x, Guards a p x → ∀ o ∈ a.list x, SameRec a.img b.img o
  map : ∀ k, Guards a p (.chain (hashOf k)) → b.map k = a.map k
  victim : Guards a p .free → b.victim = a.victim
  keys : Guards a p .free → ∀ o e, a.img.recs.lookup o = some e → isBlank e.key.1 = false →
    b.img.recs.lookup o = some e
  pending : b.pending p = a.pending p
  block : ∀ x, a.pending p = some x → b.img.blocks.lookup x = a.img.blocks.lookup x
  idxEnd : a.locks p .idx recordsOff ≠ none → b.img.idxEnd = a.img.idxEnd
  datEnd : a.locks p .dat 0 ≠ none → b.img.datEnd = a.img.datEnd
  shape : ∀ o e, a.img.recs.lookup o = some e → ∃ e', b.img.recs.lookup o = some e' ∧ SameShape e e'
  grows : b.img.idxEnd = a.img.idxEnd ∨ ∃ e, b.img.recs.lookup a.img.idxEnd = some e

theorem Rely.refl (p : ι) (g : Ghost ι) : Rely p g g where
  locks := rfl
  trace := ⟨[], (List.append_nil _).symm, fun _ he => by cases he⟩
  list _ _ := rfl
  ptr _ _ _ _ := rfl
  same _ _ o _ := SameRec.refl g.img o
  map _ _ := rfl
  victim _ := rfl
  keys _ _ _ he _ := he
  pending := rfl
  block _ _ := rfl
  idxEnd _ := rfl
  datEnd _ := rfl
  shape _ e he := ⟨e, he, SameShape.refl e⟩
  grows := Or.inl rfl

theorem Rely.grown {p : ι} {a b : Ghost ι} (h : Rely p a b) : a.trace <+: b.trace := by
  obtain ⟨tr, htr, -⟩ := h.trace
  exact htr ▸ List.prefix_append _ _

theorem guards_congr {p : ι} {a b : Ghost ι} (h : b.locks p = a.locks p) (x : Owner ι) :
    Guards b p x ↔ Guards a p x := by
  cases x with
  | chain i => simp only [Guards, h]
  | free => simp only [Guards, h]
  | proc q => exact Iff.rfl

theorem Rely.cells {p : ι} {a b : Ghost ι} (h : Rely p a b) {x : Owner ι} (hx : Guards a p x) :
    b.cells x = a.cells x := by
  rw [Ghost.cells, Ghost.cells, h.list x hx]

theorem Rely.trans {p : ι} {a b c : Ghost ι} (h : Rely p a b) (h' : Rely p b c) : Rely p a c where
  locks := h'.locks.trans h.locks
  trace := by
    obtain ⟨t₁, ht₁, hq₁⟩ := h.trace
    obtain ⟨t₂, ht₂, hq₂⟩ := h'.trace
    refine ⟨t₁ ++ t₂, by rw [ht₂, ht₁, List.append_assoc], fun e he => ?_⟩
    rcases List.mem_append.mp he with he | he
    · exact hq₁ e he
    · exact hq₂ e he
  list x hx := (h'.list x ((guards_congr h.locks x).mpr hx)).trans (h.list x hx)
  ptr x hx o ho := by
    refine (h'.ptr x ((guards_congr h.locks x).mpr hx) o ?_).trans (h.ptr x hx o ho)
    rwa [h.cells hx]
  same x hx o ho := by
    refine (h.same x hx o ho).trans (h'.same x ((guards_congr h.locks x).mpr hx) o ?_)
    rwa [h.list x hx]
  map k hk := (h'.map k ((guards_congr h.locks _).mpr hk)).trans (h.map k hk)
  victim hf := (h'.victim ((guards_congr h.locks _).mpr hf)).trans (h.victim hf)
  keys hf o e he hb := h'.keys ((guards_congr h.locks _).mpr hf) o e (h.keys hf o e he hb) hb
  pending := h'.pending.trans h.pending
  block x hx := (h'.block x (h.pending.trans hx)).trans (h.block x hx)
  idxEnd hl := by
    refine (h'.idxEnd ?_).trans (h.idxEnd hl)
    rwa [h.locks]
  datEnd hl := by
    refine (h'.datEnd ?_).trans (h.datEnd hl)
    rwa [h.locks]
  shape o e he := by
    obtain ⟨e₁, he₁, hs₁⟩ := h.shape o e he
    obtain ⟨e₂, he₂, hs₂⟩ := h'.shape o e₁ he₁
    exact ⟨e₂, he₂, hs₁.trans hs₂⟩
  grows := by
    rcases h.grows with heq | ⟨e, he⟩
    · rw [← heq]
      exact h'.grows
    · obtain ⟨e', he', -⟩ := h'.shape _ e he
      exact Or.inr ⟨e', he'⟩

/-! ## The invariant -/

def Content (I : Image) (h : ℕ) (os : List ℕ) (m : KeyMap) : Prop :=
  ∀ k d, dbHash k.1 = h → (m k = some d ↔ Holds I os k d)

def Quiet (g : Ghost ι) (x : Owner ι) : Prop := ∀ p, ¬ Excl g p x

/-- The trace of a run in which nobody has aborted. -/
structure TraceOK (S : Setting ι) (g : Ghost ι) : Prop where
  table : g.locks = locksAfter g.trace
  alive : ∀ p c e, Event.aborted p c e ∉ g.trace
  legal : Legal S.m₀ g.trace g.map
  locked : LockedReturns g.trace
  scanned : ScanReturns S g.trace

/-- What the files and the lists satisfy between any two steps. -/
structure Layout (S : Setting ι) (g : Ghost ι) : Prop where
  exclusive : Exclusive g.locks
  chains : ∀ h : Fin nhash, Quiet g (.chain h) →
    ChainOK g.img h (g.list (.chain h)) ∧ Content g.img h (g.list (.chain h)) g.map
  freeList : Quiet g .free → FreeOK g.img (g.list .free) ∧ g.victim = none
  blocks : BlocksOK g.img
  present : ∀ x, ∀ o ∈ g.list x, ∃ e, g.img.recs.lookup o = some e
  apart : ∀ x y o, o ∈ g.list x → o ∈ g.list y → x = y
  pending : ∀ p b, g.pending p = some b → (∃ d, g.img.blocks.lookup b = some d) ∧
    ∀ o e, g.img.recs.lookup o = some e → e.datoff ≠ b
  pendingOwn : ∀ p q b, g.pending p = some b → g.pending q = some b → p = q
  clean : ∀ o e, g.img.recs.lookup o = some e → sep ∉ e.key.1
  blank : ∀ o e, g.img.recs.lookup o = some e → isBlank e.key.1 = true → o ≤ ptrMax ∨ S.ok e.key
  stored : ∀ o e d, g.img.recs.lookup o = some e → g.victim ≠ some o → isBlank e.key.1 = false →
    g.img.blocks.lookup e.datoff = some d → Source S g.trace e.key d

structure Inv (S : Setting ι) (g : Ghost ι) : Prop extends Layout S g where
  trace : TraceOK S g

variable {S : Setting ι} {g g' : Ghost ι} {p q : ι} {x y : Owner ι} {o : ℕ}

theorem excl_not_guards (he : Exclusive g.locks) (hq : q ≠ p) (hp : Excl g p x) : ¬ Guards g q x := by
  have key : ∀ b, g.locks p .idx b = some .write → g.locks q .idx b = none := by
    intro b hb
    have hc := he p q .idx b .write hq.symm hb
    cases hl : g.locks q .idx b with
    | none => rfl
    | some m =>
      rw [hl] at hc
      cases m <;> exact hc.elim
  cases x with
  | chain h => exact fun hg => hg (key _ hp)
  | free => exact fun hg => hg (key _ hp)
  | proc r =>
    intro hg
    exact hq (hg.symm.trans hp)

theorem Layout.cells_apart (hi : Layout S g) (hx : o ∈ g.cells x) (hy : o ∈ g.cells y) : x = y := by
  have head_record : ∀ {x y : Owner ι}, o ∈ x.head → o ∈ g.list y → False := by
    intro x y ho hl
    obtain ⟨e, he⟩ := hi.present y o hl
    cases x with
    | chain h => exact entry_ne_head he (slotOff_lt h.2) (List.mem_singleton.mp ho)
    | free => exact entry_ne_head he freeOff_lt (List.mem_singleton.mp ho)
    | proc r => cases ho
  rcases List.mem_append.mp hx with hx | hx
  · rcases List.mem_append.mp hy with hy | hy
    · cases x with
      | chain h =>
        cases y with
        | chain h' =>
          have heq : slotOff h = slotOff h' :=
            (List.mem_singleton.mp hx).symm.trans (List.mem_singleton.mp hy)
          exact congrArg Owner.chain (Fin.ext (slotOff_inj heq))
        | free =>
          have heq := (List.mem_singleton.mp hx).symm.trans (List.mem_singleton.mp hy)
          exact absurd heq (slotOff_ne_free h)
        | proc r => cases hy
      | free =>
        cases y with
        | chain h' =>
          have heq := (List.mem_singleton.mp hy).symm.trans (List.mem_singleton.mp hx)
          exact absurd heq (slotOff_ne_free h')
        | free => rfl
        | proc r => cases hy
      | proc r => cases hx
    · exact (head_record hx hy).elim
  · rcases List.mem_append.mp hy with hy | hy
    · exact (head_record hy hx).elim
    · exact hi.apart x y o hx hy

theorem mem_cells_of_list (ho : o ∈ g.list x) : o ∈ g.cells x := List.mem_append_right _ ho

theorem pred_mem_cells {s : ℕ} {l₁ l₂ : List ℕ} (hs : x.head = [s]) (hl : g.list x = l₁ ++ l₂) :
    l₁.getLastD s ∈ g.cells x := by
  rw [Ghost.cells, hs, hl, List.singleton_append]
  rcases List.mem_cons.mp (getLastD_mem l₁ s) with hp | hp
  · rw [hp]
    exact List.mem_cons_self
  · exact List.mem_cons_of_mem s (List.mem_append_left _ hp)

/-! ## Protocol -/

/-- A record starts at `n`, or the index file ends there. -/
def AtRecord (I : Image) (n : ℕ) : Prop := n = I.idxEnd ∨ ∃ e, I.recs.lookup n = some e

theorem Rely.atRecord {n : ℕ} (h : Rely p g g') (hn : AtRecord g.img n) : AtRecord g'.img n := by
  rcases hn with rfl | ⟨e, he⟩
  · rcases h.grows with heq | hl
    · exact Or.inl heq.symm
    · exact Or.inr hl
  · obtain ⟨e', he', -⟩ := h.shape n e he
    exact Or.inr ⟨e', he'⟩

theorem atRecord_split {I : Image} {l₁ l₂ : List (ℕ × Entry)} (h : I.recs = l₁ ++ l₂) :
    AtRecord I (recordsOff + extent Entry.size l₁) := by
  cases l₂ with
  | nil =>
    rw [List.append_nil] at h
    exact Or.inl (by rw [Image.idxEnd, h])
  | cons r l₂ =>
    have hpl := I.recs_placed
    rw [h] at hpl
    obtain ⟨-, ho, -⟩ := placed_append.mp hpl
    refine Or.inr ⟨r.2, lookup_entry.mpr ?_⟩
    rw [h, ← ho]
    simp

theorem atRecord_next {I : Image} {e : Entry} (he : I.recs.lookup o = some e) :
    AtRecord I (o + e.size) := by
  obtain ⟨l₁, l₂, hl⟩ := List.append_of_mem (lookup_entry.mp he)
  have hpl := I.recs_placed
  rw [hl] at hpl
  obtain ⟨-, ho, -⟩ := placed_append.mp hpl
  have ho : o = recordsOff + extent Entry.size l₁ := ho
  have hsplit : I.recs = (l₁ ++ [(o, e)]) ++ l₂ := by simp [hl]
  have hat := atRecord_split hsplit
  rwa [extent_append, extent_cons, extent_nil, Nat.add_zero, ← Nat.add_assoc, ← ho] at hat

theorem AtRecord.le {I : Image} {n : ℕ} (h : AtRecord I n) : recordsOff ≤ n := by
  rcases h with rfl | ⟨e, he⟩
  · exact recordsOff_le_idxEnd I
  · exact (entry_bounds he).1

theorem atRecord_start (I : Image) : AtRecord I recordsOff :=
  atRecord_split (List.nil_append I.recs).symm

def unlocked : Fd → ℕ → Option LockMode := fun _ _ => none

structure Resting (S : Setting ι) (p : ι) (db : DB) (g : Ghost ι) : Prop where
  locks : g.locks p = unlocked
  own : g.list (.proc p) = []
  pending : g.pending p = none
  scan : S.scans p → AtRecord g.img db.idxpos

theorem Resting.stable {db : DB} (h : Resting S p db g) (hr : Rely p g g') : Resting S p db g' where
  locks := hr.locks.trans h.locks
  own := (hr.list (.proc p) rfl).trans h.own
  pending := hr.pending.trans h.pending
  scan hs := hr.atRecord (h.scan hs)

def MayAbort (c : Call) (e : Fatal) : Prop :=
  (∃ k d flag, c = .store k d flag) ∧ (e = longRecord ∨ e = farRecord ∨ e = badData)

abbrev protocol (S : Setting ι) : Protocol ι Fd Fatal Call Result DB where
  Γ := Ghost ι
  view := Ghost.view
  Inv := Inv S
  Rely := Rely
  Resting := Resting S
  MayAbort := MayAbort
  rely_refl := Rely.refl
  rely_trans _ _ _ _ h h' := h.trans h'
  resting_stable _ _ _ _ h hr := h.stable hr

end DbShared
