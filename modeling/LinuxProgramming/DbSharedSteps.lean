import LinuxProgramming.DbShared

/-! # Steps on the shared database

Each kind of system call that changes the shared state: what the others may rely on
afterwards and that the invariant stays. A write changes one cell of a list that its
process holds, or it appends to a file under the lock of its end. -/
namespace DbSharedSteps

set_option linter.unusedSectionVars false

open CStrings ByteFiles SyscallPrograms RelyGuarantee LinkedChains DbLibrary DbImage DbRecords
open Function
  DbLists DbInvariant DbOperations DbStore DbRefinement DbShared

variable {ι : Type} [DecidableEq ι] {S : Setting ι} {g g' : Ghost ι} {p q : ι} {x y : Owner ι}
  {o : ℕ}

/-! ## Traces -/

theorem split_concat {α : Type} {l before after : List α} {a e : α}
    (h : l ++ [a] = before ++ e :: after) :
    (after = [] ∧ before = l ∧ e = a) ∨ ∃ after', after = after' ++ [a] ∧ l = before ++ e :: after' := by
  rcases List.eq_nil_or_concat' after with rfl | ⟨after', b, rfl⟩
  · obtain ⟨h₁, h₂⟩ := List.append_inj' h rfl
    exact Or.inl ⟨rfl, h₁.symm, (List.cons.inj h₂).1.symm⟩
  · have h' : l ++ [a] = (before ++ e :: after') ++ [b] := by simpa using h
    obtain ⟨h₁, h₂⟩ := List.append_inj' h' rfl
    obtain rfl := (List.cons.inj h₂).1
    exact Or.inr ⟨after', rfl, h₁⟩

theorem completed_concat (tr : List (DbEvent ι)) (e : DbEvent ι) :
    completed (tr ++ [e]) = completed tr ++ (completion e).toList := by
  rw [completed, List.filterMap_append]
  rfl

theorem completion_silent {e : DbEvent ι} (h : e.inside) : completion e = none := by
  cases e with
  | returned => exact h.elim
  | aborted | locked | unlocked | got | wrote => rfl

theorem completed_inside {tr : List (DbEvent ι)} (h : ∀ e ∈ tr, e.inside) : completed tr = [] :=
  List.filterMap_eq_nil_iff.mpr fun e he => completion_silent (h e he)

theorem source_mono {tr tr' : List (DbEvent ι)} {k d : CString} (h : Source S tr k d)
    (ht : tr <+: tr') : Source S tr' k d := by
  rcases h with h | ⟨p, flag, off, hm⟩
  · exact Or.inl h
  · exact Or.inr ⟨p, flag, off, ht.subset hm⟩

theorem traceOK_silent {e : DbEvent ι} (ht : TraceOK S g) (hs : e.inside)
    (htr : g'.trace = g.trace ++ [e]) (hl : g'.locks = e.lockTable g.locks)
    (hm : g'.map = g.map) : TraceOK S g' where
  table := by rw [htr, locksAfter_concat, ← ht.table, hl]
  alive r c err hmem := by
    rw [htr] at hmem
    rcases List.mem_append.mp hmem with hmem | hmem
    · exact ht.alive r c err hmem
    · obtain rfl := List.mem_singleton.mp hmem
      exact hs
  legal := by
    rw [Legal, htr, completed_concat, completion_silent hs, Option.toList_none, List.append_nil, hm]
    exact ht.legal
  locked before r op res after h htl := by
    rw [htr] at h
    rcases split_concat h with ⟨-, -, rfl⟩ | ⟨after', -, h'⟩
    · exact hs.elim
    · exact ht.locked before r op res after' h' htl
  scanned before r res after h := by
    rw [htr] at h
    rcases split_concat h with ⟨-, -, rfl⟩ | ⟨after', -, h'⟩
    · exact hs.elim
    · exact ht.scanned before r res after' h'

/-- A call of the map returns what the map answers, when it has just released its lock. -/
theorem traceOK_returned (op : MapOp) {r : Result} (ht : TraceOK S g)
    (htr : g'.trace = g.trace ++ [.returned p op.call r]) (hl : g'.locks = g.locks)
    (hr : r = (op.apply g.map).1) (hm : g'.map = (op.apply g.map).2)
    (hlock : TakesLock op → ∃ tr', g.trace = tr' ++ [.unlocked p .idx (chainOff op.key.1) 1] ∧
      locksAfter tr' p .idx (chainOff op.key.1) ≠ none) : TraceOK S g' where
  table := by
    rw [htr, locksAfter_concat, ← ht.table, hl]
    rfl
  alive q c err hmem := by
    rw [htr] at hmem
    rcases List.mem_append.mp hmem with hmem | hmem
    · exact ht.alive q c err hmem
    · cases List.mem_singleton.mp hmem
  legal := by
    have hc : completion (Event.returned p op.call r) = some (p, op, r) := by
      rw [completion, mapOp_call]
      rfl
    have hleg := ht.legal
    unfold Legal at hleg ⊢
    rw [htr, completed_concat, hc, Option.toList_some, List.map_append, List.map_append,
      List.map_singleton, List.map_singleton, applyAll_concat, hleg]
    dsimp only
    rw [← hr, ← hm]
  locked before q op' res after h htl := by
    rw [htr] at h
    rcases split_concat h with ⟨-, rfl, heq⟩ | ⟨after', -, h'⟩
    · simp only [Event.returned.injEq] at heq
      obtain ⟨rfl, hop, rfl⟩ := heq
      have hop : op' = op := by
        have := congrArg Call.mapOp hop
        rwa [mapOp_call, mapOp_call, Option.some.injEq] at this
      subst hop
      exact hlock htl
    · exact ht.locked before q op' res after' h' htl
  scanned before q res after h := by
    rw [htr] at h
    rcases split_concat h with ⟨-, -, heq⟩ | ⟨after', -, h'⟩
    · simp only [Event.returned.injEq] at heq
      obtain ⟨-, hop, -⟩ := heq
      cases op <;> cases hop
    · exact ht.scanned before q res after' h'

theorem traceOK_scanned {c : Call} {r : Result} (ht : TraceOK S g)
    (htr : g'.trace = g.trace ++ [.returned p c r]) (hl : g'.locks = g.locks)
    (hm : g'.map = g.map) (hc : Call.mapOp c = none)
    (hscan : c = .nextrec → Scanned S g.trace p r) : TraceOK S g' where
  table := by
    rw [htr, locksAfter_concat, ← ht.table, hl]
    rfl
  alive q c err hmem := by
    rw [htr] at hmem
    rcases List.mem_append.mp hmem with hmem | hmem
    · exact ht.alive q c err hmem
    · cases List.mem_singleton.mp hmem
  legal := by
    have hc : completion (Event.returned p c r) = none := by
      rw [completion, hc]
      rfl
    rw [Legal, htr, completed_concat, hc, Option.toList_none, List.append_nil, hm]
    exact ht.legal
  locked before q op' res after h htl := by
    rw [htr] at h
    rcases split_concat h with ⟨-, -, heq⟩ | ⟨after', -, h'⟩
    · simp only [Event.returned.injEq] at heq
      obtain ⟨-, rfl, -⟩ := heq
      rw [mapOp_call] at hc
      cases hc
    · exact ht.locked before q op' res after' h' htl
  scanned before q res after h := by
    rw [htr] at h
    rcases split_concat h with ⟨-, rfl, heq⟩ | ⟨after', -, h'⟩
    · simp only [Event.returned.injEq] at heq
      obtain ⟨rfl, rfl, rfl⟩ := heq
      exact hscan rfl
    · exact ht.scanned before q res after' h'

def noted (g : Ghost ι) (e : DbEvent ι) : Ghost ι := { g with trace := g.trace ++ [e] }

theorem quietly_one {e : DbEvent ι} (he : e.proc = q → e.isRead) : Quietly q [e] := by
  intro a ha
  obtain rfl := List.mem_singleton.mp ha
  exact he

theorem quietly_other {e : DbEvent ι} (he : e.proc = p) (hq : q ≠ p) : Quietly q [e] :=
  quietly_one fun h => absurd (h.symm.trans he) hq

theorem noted_rely {e : DbEvent ι} (he : Quietly q [e]) : Rely q g (noted g e) :=
  { Rely.refl q g with trace := ⟨[e], rfl, he⟩ }

theorem noted_layout {e : DbEvent ι} (hi : Layout S g) : Layout S (noted g e) :=
  { hi with
    stored := fun z a d ha hv hb hd =>
      source_mono (hi.stored z a d ha hv hb hd) (List.prefix_append _ _) }

/-! ## A write into one cell -/

/-- The images differ in the cell `o` only: in its pointer, in its entry or in the block
that its entry names. -/
structure LocalTo (I J : Image) (o : ℕ) : Prop where
  ptr : ∀ y, y ≠ o → J.ptr y = I.ptr y
  recs : ∀ y, y ≠ o → J.recs.lookup y = I.recs.lookup y
  none : I.recs.lookup o = none → J.recs.lookup o = none
  entry : ∀ e, I.recs.lookup o = some e → ∃ e', J.recs.lookup o = some e' ∧ SameShape e e'
  blocks : ∀ b, (∀ e, I.recs.lookup o = some e → b ≠ e.datoff) →
    J.blocks.lookup b = I.blocks.lookup b
  block : ∀ b d, I.blocks.lookup b = some d →
    ∃ d', J.blocks.lookup b = some d' ∧ d'.1.length = d.1.length
  idxEnd : J.idxEnd = I.idxEnd
  datEnd : J.datEnd = I.datEnd

section LocalTo

variable {I J : Image}

theorem localTo_setPtr {v : ℕ} (hv : v ≤ ptrMax) : LocalTo I (I.setPtr o v hv) o where
  ptr y hy := by rw [setPtr_ptr, if_neg hy]
  recs _ _ := rfl
  none h := h
  entry e he := ⟨e, he, SameShape.refl e⟩
  blocks _ _ := rfl
  block _ d hd := ⟨d, hd, rfl⟩
  idxEnd := rfl
  datEnd := rfl

theorem localTo_setBlock {e : Entry} {d d' : CString} (he : I.recs.lookup o = some e)
    (hd : I.blocks.lookup e.datoff = some d)
    (hs : ∀ c, (e.datoff, c) ∈ I.blocks → blockSize c = blockSize d') :
    LocalTo I (I.setBlock e.datoff d' hs) o where
  ptr _ _ := rfl
  recs _ _ := rfl
  none h := h
  entry e he := ⟨e, he, SameShape.refl e⟩
  blocks b hb := by rw [setBlock_lookup, if_neg (hb e he)]
  block b c hc := by
    rw [setBlock_lookup]
    by_cases hb : b = e.datoff
    · have hsize := hs c (lookup_block.mp (hb ▸ hc))
      simp only [blockSize] at hsize
      exact ⟨d', by rw [if_pos hb, hd]; rfl, by omega⟩
    · exact ⟨c, by rwa [if_neg hb], rfl⟩
  idxEnd := rfl
  datEnd := extent_put hs

theorem localTo_setEntry {e e' : Entry} {v : ℕ} (he : I.recs.lookup o = some e)
    (hsh : SameShape e e') (hs : ∀ c, (o, c) ∈ I.recs → c.size = e'.size) (hv : v ≤ ptrMax) :
    LocalTo I ((I.setEntry o e' hs).setPtr o v hv) o where
  ptr y hy := by
    rw [setPtr_ptr, if_neg hy]
    rfl
  recs y hy := by
    change (I.setEntry o e' hs).recs.lookup y = _
    rw [setEntry_lookup, if_neg hy]
  none h := by
    rw [he] at h
    cases h
  entry a ha := by
    obtain rfl : e = a := Option.some.inj (he.symm.trans ha)
    exact ⟨e', setEntry_lookup_self he hs, hsh⟩
  blocks _ _ := rfl
  block _ d hd := ⟨d, hd, rfl⟩
  idxEnd := congrArg (recordsOff + ·) (extent_put hs)
  datEnd := rfl

theorem LocalTo.lookup (h : LocalTo I J o) {y : ℕ} {e' : Entry} (he : J.recs.lookup y = some e') :
    ∃ e, I.recs.lookup y = some e ∧ SameShape e e' := by
  by_cases hy : y = o
  · subst y
    cases ho : I.recs.lookup o with
    | none =>
      rw [h.none ho] at he
      cases he
    | some e =>
      obtain ⟨e₁, he₁, hs⟩ := h.entry e ho
      obtain rfl : e₁ = e' := Option.some.inj (he₁.symm.trans he)
      exact ⟨e, rfl, hs⟩
  · rw [h.recs y hy] at he
    exact ⟨e', he, SameShape.refl e'⟩

theorem LocalTo.shape (h : LocalTo I J o) {y : ℕ} {e : Entry} (he : I.recs.lookup y = some e) :
    ∃ e', J.recs.lookup y = some e' ∧ SameShape e e' := by
  by_cases hy : y = o
  · subst y
    exact h.entry e he
  · exact ⟨e, by rw [h.recs y hy, he], SameShape.refl e⟩

theorem LocalTo.blocksOK (h : LocalTo I J o) (hb : BlocksOK I) : BlocksOK J := by
  constructor
  · intro y e' he'
    obtain ⟨e, he, hs⟩ := h.lookup he'
    obtain ⟨d, hd, hl⟩ := hb.block y e he
    obtain ⟨d', hd', hl'⟩ := h.block _ d hd
    exact ⟨d', by rw [hs.datoff, hd'], by rw [hs.datlen, hl, hl']⟩
  · intro y z e' a' he' ha' heq
    obtain ⟨e, he, hs⟩ := h.lookup he'
    obtain ⟨a, ha, hs'⟩ := h.lookup ha'
    rw [hs.datoff, hs'.datoff] at heq
    exact hb.own y z e a he ha heq

theorem LocalTo.sameRec (h : LocalTo I J o) (hb : BlocksOK I) {y : ℕ} (hy : y ≠ o) :
    SameRec I J y := by
  refine ⟨h.ptr y hy, h.recs y hy, fun a ha => h.blocks _ fun e he heq => hy ?_⟩
  exact hb.own y o a e ha he heq

end LocalTo

/-- Process `p` writes into the cell `o` of a list that it holds. Records may change hands
between lists that it holds. -/
structure Local (p : ι) (x : Owner ι) (o : ℕ) (g g' : Ghost ι) : Prop where
  cell : o ∈ g.cells x
  excl : Excl g p x
  image : LocalTo g.img g'.img o
  locks : g'.locks = g.locks
  trace : ∃ c fd off bs, g'.trace = g.trace ++ [.wrote p c fd off bs]
  list : ∀ y, ¬ Excl g p y → g'.list y = g.list y
  map : g'.map = g.map
  pending : g'.pending = g.pending
  victim : ¬ Excl g p .free → g'.victim = g.victim
  keys : ¬ Excl g p .free → ∀ e, g.img.recs.lookup o = some e → isBlank e.key.1 = false →
    g'.img.recs.lookup o = some e

theorem Local.ne (hi : Inv S g) (h : Local p x o g g') (hy : ¬ Excl g p y) {z : ℕ}
    (hz : z ∈ g.cells y) : z ≠ o := by
  rintro rfl
  exact hy (hi.cells_apart h.cell hz ▸ h.excl)

theorem Local.sameRec (hi : Inv S g) (h : Local p x o g g') (hy : ¬ Excl g p y) {z : ℕ}
    (hz : z ∈ g.list y) : SameRec g.img g'.img z :=
  h.image.sameRec hi.blocks (h.ne hi hy (mem_cells_of_list hz))

theorem Local.rely (hi : Inv S g) (h : Local p x o g g') (hq : q ≠ p) : Rely q g g' := by
  have hex : ∀ {y}, Guards g q y → ¬ Excl g p y :=
    fun hg hp => excl_not_guards hi.exclusive hq hp hg
  obtain ⟨c, fd, off, bs, htr⟩ := h.trace
  exact {
    locks := congrFun h.locks q
    trace := ⟨_, htr, quietly_other rfl hq⟩
    list := fun y hy => h.list y (hex hy)
    ptr := fun y hy z hz => h.image.ptr z (h.ne hi (hex hy) hz)
    same := fun y hy z hz => h.sameRec hi (hex hy) hz
    map := fun k _ => congrFun h.map k
    victim := fun hf => h.victim (hex hf)
    keys := by
      intro hf z e he hb
      by_cases hz : z = o
      · subst z
        exact h.keys (hex hf) e he hb
      · rw [h.image.recs z hz, he]
    pending := congrFun h.pending q
    block := fun b hb => h.image.blocks b fun e he => ((hi.pending q b hb).2 o e he).symm
    idxEnd := fun _ => h.image.idxEnd
    datEnd := fun _ => h.image.datEnd
    shape := fun z e he => h.image.shape he
    grows := Or.inl h.image.idxEnd }

theorem excl_congr (h : g'.locks = g.locks) : Excl g' p x ↔ Excl g p x := by
  cases x with
  | chain i => simp only [Excl, h]
  | free => simp only [Excl, h]
  | proc q => exact Iff.rfl

theorem quiet_congr (h : g'.locks = g.locks) : Quiet g' x ↔ Quiet g x :=
  forall_congr' fun _ => not_congr (excl_congr h)

theorem Local.inv (hi : Inv S g) (h : Local p x o g g')
    (present : ∀ y, ∀ z ∈ g'.list y, ∃ e, g.img.recs.lookup z = some e)
    (apart : ∀ y z u, u ∈ g'.list y → u ∈ g'.list z → y = z)
    (clean : ∀ e, g'.img.recs.lookup o = some e → sep ∉ e.key.1)
    (blank : ∀ e, g'.img.recs.lookup o = some e → isBlank e.key.1 = true → o ≤ ptrMax ∨ S.ok e.key)
    (stored : ∀ e d, g'.img.recs.lookup o = some e → g'.victim ≠ some o →
      isBlank e.key.1 = false → g'.img.blocks.lookup e.datoff = some d → Source S g'.trace e.key d)
    (vict : ∀ z, z ≠ o → g.victim = some z → g'.victim = some z) : Inv S g' := by
  obtain ⟨c, fd, off, bs, htr⟩ := h.trace
  exact {
    exclusive := by
      rw [h.locks]
      exact hi.exclusive
    chains := by
      intro i hq
      have hq := (quiet_congr h.locks).mp hq
      obtain ⟨hc, hm⟩ := hi.chains i hq
      have hrec : ∀ z ∈ g.list (.chain i), SameRec g.img g'.img z :=
        fun z hz => h.sameRec hi (hq p) hz
      rw [h.list _ (hq p), h.map]
      refine ⟨chainOK_congr hc ?_ (fun z hz => (hrec z hz).ptr) fun z hz => (hrec z hz).entry, ?_⟩
      · exact h.image.ptr _ (h.ne hi (hq p) List.mem_cons_self)
      · intro k d hk
        rw [hm k d hk]
        exact (holds_congr (fun z hz => (hrec z hz).entry) fun z hz => (hrec z hz).block).symm
    freeList := by
      intro hq
      have hq := (quiet_congr h.locks).mp hq
      obtain ⟨hf, hv⟩ := hi.freeList hq
      rw [h.list _ (hq p), h.victim (hq p)]
      refine ⟨freeOK_congr hf ?_ fun z hz => h.sameRec hi (hq p) hz, hv⟩
      exact h.image.ptr _ (h.ne hi (hq p) List.mem_cons_self)
    blocks := h.image.blocksOK hi.blocks
    present := by
      intro y z hz
      obtain ⟨e, he⟩ := present y z hz
      obtain ⟨e', he', -⟩ := h.image.shape he
      exact ⟨e', he'⟩
    apart := apart
    pending := by
      intro r b hb
      rw [h.pending] at hb
      obtain ⟨⟨d, hd⟩, hn⟩ := hi.pending r b hb
      obtain ⟨d', hd', -⟩ := h.image.block b d hd
      refine ⟨⟨d', hd'⟩, fun z e' he' => ?_⟩
      obtain ⟨e, he, hs⟩ := h.image.lookup he'
      rw [hs.datoff]
      exact hn z e he
    pendingOwn := by
      rw [h.pending]
      exact hi.pendingOwn
    clean := by
      intro z e he
      by_cases hz : z = o
      · subst z
        exact clean e he
      · rw [h.image.recs z hz] at he
        exact hi.clean z e he
    blank := by
      intro z e he
      by_cases hz : z = o
      · subst z
        exact blank e he
      · rw [h.image.recs z hz] at he
        exact hi.blank z e he
    stored := by
      intro z e d he hv hb hd
      by_cases hz : z = o
      · subst z
        exact stored e d he hv hb hd
      · have hsame := h.image.sameRec hi.blocks hz
        rw [hsame.entry] at he
        rw [hsame.block e he] at hd
        refine source_mono (hi.stored z e d he (fun hv' => hv (vict z hz hv')) hb hd) ?_
        exact htr ▸ List.prefix_append _ _
    trace := by
      refine traceOK_silent hi.trace ?_ htr h.locks h.map
      trivial }

/-! ## Writes by kind -/

/-- A write into one cell, with the lists and the victim as its process sees them then. -/
def wrote (g : Ghost ι) (p : ι) (c : Call) (fd : Fd) (off : ℕ) (bs : List Byte) (J : Image)
    (ls : Owner ι → List ℕ) (vic : Option ℕ) : Ghost ι :=
  { g with
    img := J
    trace := g.trace ++ [.wrote p c fd off bs]
    list := ls
    victim := vic }

/-- The record `o` goes from the list `x`, of which `l` is left, to the list `y`. -/
def moveRec (g : Ghost ι) (x y : Owner ι) (l : List ℕ) (o : ℕ) : Owner ι → List ℕ :=
  Function.update (Function.update g.list x l) y (o :: g.list y)

structure Moves (g : Ghost ι) (p : ι) (ls : Owner ι → List ℕ) : Prop where
  held : ∀ y, ¬ Excl g p y → ls y = g.list y
  present : ∀ y, ∀ z ∈ ls y, ∃ e, g.img.recs.lookup z = some e
  apart : ∀ y z u, u ∈ ls y → u ∈ ls z → y = z

theorem moves_same (hi : Layout S g) : Moves g p g.list := ⟨fun _ _ => rfl, hi.present, hi.apart⟩

theorem moveRec_from {l : List ℕ} (hxy : x ≠ y) : moveRec g x y l o x = l := by
  rw [moveRec, update_of_ne hxy, update_self]

theorem moveRec_to {l : List ℕ} : moveRec g x y l o y = o :: g.list y := update_self _ _ _

theorem moveRec_other {l : List ℕ} {z : Owner ι} (hx : z ≠ x) (hy : z ≠ y) :
    moveRec g x y l o z = g.list z := by
  rw [moveRec, update_of_ne hy, update_of_ne hx]

theorem mem_moveRec {l : List ℕ} {z : Owner ι} {u : ℕ} (hi : Layout S g) (ho : o ∈ g.list x)
    (hxy : x ≠ y) (hl : ∀ w ∈ l, w ∈ g.list x ∧ w ≠ o) (hu : u ∈ moveRec g x y l o z) :
    (u = o ∧ z = y) ∨ (u ≠ o ∧ u ∈ g.list z) := by
  have other : ∀ {w}, u ∈ g.list w → w ≠ x → u ≠ o := by
    rintro w hw hwx rfl
    exact hwx (hi.apart w x u hw ho)
  by_cases hzy : z = y
  · subst z
    rw [moveRec_to] at hu
    rcases List.mem_cons.mp hu with rfl | hu
    · exact Or.inl ⟨rfl, rfl⟩
    · exact Or.inr ⟨other hu hxy.symm, hu⟩
  · by_cases hzx : z = x
    · subst z
      rw [moveRec_from hxy] at hu
      exact Or.inr (hl u hu).symm
    · rw [moveRec_other hzx hzy] at hu
      exact Or.inr ⟨other hu hzx, hu⟩

theorem moves_moveRec {l : List ℕ} (hi : Layout S g) (hx : Excl g p x) (hy : Excl g p y)
    (ho : o ∈ g.list x) (hxy : x ≠ y) (hl : ∀ w ∈ l, w ∈ g.list x ∧ w ≠ o) :
    Moves g p (moveRec g x y l o) := by
  refine ⟨fun z hz => moveRec_other ?_ ?_, fun z u hu => ?_, fun a b u ha hb => ?_⟩
  · rintro rfl
    exact hz hx
  · rintro rfl
    exact hz hy
  · rcases mem_moveRec hi ho hxy hl hu with ⟨rfl, -⟩ | ⟨-, hu⟩
    · exact hi.present x u ho
    · exact hi.present z u hu
  · rcases mem_moveRec hi ho hxy hl ha with ⟨rfl, rfl⟩ | ⟨hne, ha⟩
    · rcases mem_moveRec hi ho hxy hl hb with ⟨-, rfl⟩ | ⟨hne, -⟩
      · rfl
      · exact absurd rfl hne
    · rcases mem_moveRec hi ho hxy hl hb with ⟨heq, -⟩ | ⟨-, hb⟩
      · exact absurd heq hne
      · exact hi.apart a b u ha hb

section Kinds

variable {c : Call} {ls : Owner ι → List ℕ} {e e' : Entry} {d d' : CString} {v : ℕ}

theorem wrote_ptr (hi : Inv S g) (hc : o ∈ g.cells x) (hx : Excl g p x) (hm : Moves g p ls)
    (hv : v ≤ ptrMax) (bs : List Byte) :
    Local p x o g (wrote g p c .idx o bs (g.img.setPtr o v hv) ls g.victim) ∧
      Inv S (wrote g p c .idx o bs (g.img.setPtr o v hv) ls g.victim) := by
  have hloc : Local p x o g (wrote g p c .idx o bs (g.img.setPtr o v hv) ls g.victim) :=
    ⟨hc, hx, localTo_setPtr hv, rfl, ⟨c, _, _, _, rfl⟩, hm.held, rfl, rfl, fun _ => rfl,
      fun _ _ he _ => he⟩
  refine ⟨hloc, hloc.inv hi hm.present hm.apart (hi.clean o) (hi.blank o) ?_ fun _ _ h => h⟩
  intro e d he hvic hb hd
  exact source_mono (hi.stored o e d he hvic hb hd) (List.prefix_append _ _)

theorem wrote_block {vic : Option ℕ} (hi : Inv S g) (ho : o ∈ g.list x) (hx : Excl g p x)
    (he : g.img.recs.lookup o = some e) (hd : g.img.blocks.lookup e.datoff = some d)
    (hs : ∀ c, (e.datoff, c) ∈ g.img.blocks → blockSize c = blockSize d')
    (hvic : vic = g.victim ∨ (Excl g p .free ∧ g.victim = none ∧ vic = some o))
    (hsrc : vic ≠ some o → isBlank e.key.1 = false →
      Source S (g.trace ++ [.wrote p c .dat e.datoff (d'.1 ++ [newline])]) e.key d') :
    Local p x o g (wrote g p c .dat e.datoff (d'.1 ++ [newline]) (g.img.setBlock e.datoff d' hs)
        g.list vic) ∧
      Inv S (wrote g p c .dat e.datoff (d'.1 ++ [newline]) (g.img.setBlock e.datoff d' hs)
        g.list vic) := by
  have hloc : Local p x o g (wrote g p c .dat e.datoff (d'.1 ++ [newline])
      (g.img.setBlock e.datoff d' hs) g.list vic) := by
    refine ⟨mem_cells_of_list ho, hx, localTo_setBlock he hd hs, rfl, ⟨c, _, _, _, rfl⟩,
      fun _ _ => rfl, rfl, rfl, fun hf => ?_, fun _ _ he _ => he⟩
    rcases hvic with hvic | ⟨hfree, -⟩
    · exact hvic
    · exact absurd hfree hf
  refine ⟨hloc, hloc.inv hi hi.present hi.apart (hi.clean o) (hi.blank o) ?_ ?_⟩
  · intro a b ha hv hb hbl
    obtain rfl : e = a := Option.some.inj (he.symm.trans ha)
    obtain rfl : d' = b := Option.some.inj ((setBlock_lookup_self hd hs).symm.trans hbl)
    exact hsrc hv hb
  · intro z hz hv
    rcases hvic with hvic | ⟨-, hnone, -⟩
    · exact hvic.trans hv
    · rw [hnone] at hv
      cases hv

theorem wrote_entry {vic : Option ℕ} (hi : Inv S g) (ho : o ∈ g.list x) (hx : Excl g p x)
    (he : g.img.recs.lookup o = some e) (hsh : SameShape e e')
    (hs : ∀ c, (o, c) ∈ g.img.recs → c.size = e'.size) (hv : v ≤ ptrMax) (hm : Moves g p ls)
    (hvic : vic = g.victim ∨ (Excl g p .free ∧ g.victim = some o ∧ vic = none))
    (hkey : Excl g p .free ∨ isBlank e.key.1 = true) (hclean : sep ∉ e'.key.1)
    (hblank : isBlank e'.key.1 = true → o ≤ ptrMax ∨ S.ok e'.key)
    (hsrc : ∀ d, isBlank e'.key.1 = false → g.img.blocks.lookup e.datoff = some d →
      Source S g.trace e'.key d) (bs : List Byte) :
    Local p x o g (wrote g p c .idx o bs ((g.img.setEntry o e' hs).setPtr o v hv) ls vic) ∧
      Inv S (wrote g p c .idx o bs ((g.img.setEntry o e' hs).setPtr o v hv) ls vic) := by
  have hloc : Local p x o g
      (wrote g p c .idx o bs ((g.img.setEntry o e' hs).setPtr o v hv) ls vic) := by
    refine ⟨mem_cells_of_list ho, hx, localTo_setEntry he hsh hs hv, rfl, ⟨c, _, _, _, rfl⟩,
      hm.held, rfl, rfl, fun hf => ?_, fun hf a ha hb => ?_⟩
    · rcases hvic with hvic | ⟨hfree, -⟩
      · exact hvic
      · exact absurd hfree hf
    · obtain rfl : e = a := Option.some.inj (he.symm.trans ha)
      rcases hkey with hfree | hkey
      · exact absurd hfree hf
      · rw [hkey] at hb
        cases hb
  have hnew : ((g.img.setEntry o e' hs).setPtr o v hv).recs.lookup o = some e' :=
    setEntry_lookup_self he hs
  have only : ∀ {a}, ((g.img.setEntry o e' hs).setPtr o v hv).recs.lookup o = some a → e' = a :=
    fun ha => Option.some.inj (hnew.symm.trans ha)
  refine ⟨hloc, hloc.inv hi hm.present hm.apart ?_ ?_ ?_ ?_⟩
  · intro a ha
    rw [← only ha]
    exact hclean
  · intro a ha
    rw [← only ha]
    exact hblank
  · intro a d ha _ hb hd
    obtain rfl := only ha
    rw [hsh.datoff] at hd
    exact source_mono (hsrc d hb hd) (List.prefix_append _ _)
  · intro z hz hvz
    rcases hvic with hvic | ⟨-, hvo, -⟩
    · exact hvic.trans hvz
    · exact absurd (Option.some.inj (hvz.symm.trans hvo)) hz

end Kinds

/-! ## Appending -/

section Append

variable {c : Call} {d : CString} {e : Entry} {v : ℕ}

theorem excl_lock {fd : Fd} {b : ℕ} (he : Exclusive g.locks) (hq : q ≠ p)
    (hp : g.locks p fd b = some .write) : g.locks q fd b = none := by
  have hc := he p q fd b .write hq.symm hp
  cases hl : g.locks q fd b with
  | none => rfl
  | some m =>
    rw [hl] at hc
    cases m <;> exact hc.elim

def addedBlock (g : Ghost ι) (p : ι) (c : Call) (d : CString) : Ghost ι :=
  { g with
    img := g.img.addBlock d
    trace := g.trace ++ [.wrote p c .dat g.img.datEnd (d.1 ++ [newline])]
    pending := Function.update g.pending p (some g.img.datEnd) }

theorem addedBlock_pending_self : (addedBlock g p c d).pending p = some g.img.datEnd :=
  update_self _ _ _

theorem addedBlock_pending_other (h : q ≠ p) : (addedBlock g p c d).pending q = g.pending q :=
  update_of_ne h _ _

theorem addedBlock_new : (addedBlock g p c d).img.blocks.lookup g.img.datEnd = some d := by
  rw [addedBlock, addBlock_lookup, if_pos rfl]

theorem addBlock_old {b : ℕ} {d' : CString} (hb : g.img.blocks.lookup b = some d') :
    (g.img.addBlock d).blocks.lookup b = g.img.blocks.lookup b := by
  rw [addBlock_lookup, if_neg]
  rintro rfl
  rw [lookup_datEnd] at hb
  cases hb

theorem addBlock_sameRec (hi : Layout S g) : SameRec g.img (g.img.addBlock d) o := by
  refine ⟨rfl, rfl, fun e he => ?_⟩
  obtain ⟨d', hd', -⟩ := hi.blocks.block o e he
  exact addBlock_old hd'

theorem addedBlock_rely (hi : Layout S g) (hl : g.locks p .dat 0 = some .write) (hq : q ≠ p) :
    Rely q g (addedBlock g p c d) where
  locks := rfl
  trace := ⟨_, rfl, quietly_other rfl hq⟩
  list _ _ := rfl
  ptr _ _ _ _ := rfl
  same _ _ _ _ := addBlock_sameRec hi
  map _ _ := rfl
  victim _ := rfl
  keys _ _ _ he _ := he
  pending := addedBlock_pending_other hq
  block b hb := by
    obtain ⟨⟨d', hd'⟩, -⟩ := hi.pending q b hb
    exact addBlock_old hd'
  idxEnd _ := rfl
  datEnd hg := absurd (excl_lock hi.exclusive hq hl) hg
  shape _ e he := ⟨e, he, SameShape.refl e⟩
  grows := Or.inl rfl

theorem addedBlock_inv (hi : Inv S g) : Inv S (addedBlock g p c d) where
  exclusive := hi.exclusive
  chains h hq := by
    obtain ⟨hc, hm⟩ := hi.chains h hq
    refine ⟨⟨hc.linked, hc.entry, hc.keys⟩, fun k d' hk => (hm k d' hk).trans (Iff.symm ?_)⟩
    exact holds_congr (fun _ _ => rfl) fun z _ => (addBlock_sameRec hi.toLayout).block
  freeList hq := by
    obtain ⟨hf, hv⟩ := hi.freeList hq
    exact ⟨freeOK_congr hf rfl fun z _ => addBlock_sameRec hi.toLayout, hv⟩
  blocks := blocksOK_addBlock hi.blocks d
  present := hi.present
  apart := hi.apart
  pending r b hb := by
    by_cases hr : r = p
    · subst r
      obtain rfl := Option.some.inj (addedBlock_pending_self.symm.trans hb)
      exact ⟨⟨d, addedBlock_new⟩, fun z e he => datEnd_unnamed hi.blocks he⟩
    · obtain ⟨⟨d', hd'⟩, hn⟩ := hi.pending r b ((addedBlock_pending_other hr).symm.trans hb)
      exact ⟨⟨d', (addBlock_old hd').trans hd'⟩, hn⟩
  pendingOwn r t b hr ht := by
    have fresh : ∀ u, g.pending u ≠ some g.img.datEnd := by
      intro u hu
      obtain ⟨⟨d', hd'⟩, -⟩ := hi.pending u _ hu
      rw [lookup_datEnd] at hd'
      cases hd'
    by_cases hrp : r = p
    · by_cases htp : t = p
      · rw [hrp, htp]
      · subst r
        obtain rfl := Option.some.inj (addedBlock_pending_self.symm.trans hr)
        exact absurd ((addedBlock_pending_other htp).symm.trans ht) (fresh t)
    · have hr' := (addedBlock_pending_other hrp).symm.trans hr
      by_cases htp : t = p
      · subst t
        obtain rfl := Option.some.inj (addedBlock_pending_self.symm.trans ht)
        exact absurd hr' (fresh r)
      · exact hi.pendingOwn r t b hr' ((addedBlock_pending_other htp).symm.trans ht)
  clean := hi.clean
  blank := hi.blank
  stored z a d' ha hv hb hd' := by
    have hd' : g.img.blocks.lookup a.datoff = some d' :=
      ((addBlock_sameRec hi.toLayout).block a ha).symm.trans hd'
    exact source_mono (hi.stored z a d' ha hv hb hd') (List.prefix_append _ _)
  trace := by
    refine traceOK_silent hi.trace (e := .wrote p c .dat g.img.datEnd (d.1 ++ [newline])) ?_ rfl rfl rfl
    trivial

/-- A new index record, at first in the hands of the process that appends it. -/
def addedEntry (g : Ghost ι) (p : ι) (c : Call) (e : Entry) (v : ℕ) (hv : v ≤ ptrMax) : Ghost ι :=
  { g with
    img := g.img.addEntry e v hv
    trace := g.trace ++ [.wrote p c .idx g.img.idxEnd (e.bytes v)]
    list := Function.update g.list (.proc p) [g.img.idxEnd]
    pending := Function.update g.pending p none }

variable {hv : v ≤ ptrMax}

theorem addedEntry_list_self : (addedEntry g p c e v hv).list (.proc p) = [g.img.idxEnd] :=
  update_self _ _ _

theorem addedEntry_list_other (h : x ≠ .proc p) : (addedEntry g p c e v hv).list x = g.list x :=
  update_of_ne h _ _

theorem addedEntry_pending_self : (addedEntry g p c e v hv).pending p = none :=
  update_self _ _ _

theorem addedEntry_pending_other (h : q ≠ p) :
    (addedEntry g p c e v hv).pending q = g.pending q := update_of_ne h _ _

theorem addedEntry_new : (addedEntry g p c e v hv).img.recs.lookup g.img.idxEnd = some e := by
  rw [addedEntry, addEntry_lookup, if_pos rfl]

theorem addedEntry_new_ptr : (addedEntry g p c e v hv).img.ptr g.img.idxEnd = v := by
  rw [addedEntry, addEntry_ptr, if_pos rfl]

theorem ne_idxEnd {I : Image} {a : Entry} (ha : I.recs.lookup o = some a) : o ≠ I.idxEnd := by
  rintro rfl
  rw [lookup_idxEnd] at ha
  cases ha

variable (hv) in
theorem addEntry_sameRec {a : Entry} (ha : g.img.recs.lookup o = some a) :
    SameRec g.img (g.img.addEntry e v hv) o := by
  have ho := ne_idxEnd ha
  refine ⟨?_, ?_, fun _ _ => rfl⟩
  · rw [addEntry_ptr, if_neg ho]
  · rw [addEntry_lookup, if_neg ho]

theorem addedEntry_old {a : Entry} (ha : g.img.recs.lookup o = some a) :
    (addedEntry g p c e v hv).img.recs.lookup o = some a := by
  have hs : SameRec g.img (g.img.addEntry e v hv) o := addEntry_sameRec hv ha
  exact hs.entry.trans ha

variable (hv) in
theorem addEntry_cell_ptr (hi : Layout S g) (ho : o ∈ g.cells x) :
    (g.img.addEntry e v hv).ptr o = g.img.ptr o := by
  rcases List.mem_append.mp ho with ho | ho
  · have hne : o ≠ g.img.idxEnd := by
      have hlt : o < recordsOff := by
        cases x with
        | chain h =>
          rw [List.mem_singleton.mp ho]
          exact slotOff_lt h.2
        | free =>
          rw [List.mem_singleton.mp ho]
          exact freeOff_lt
        | proc r => cases ho
      have := recordsOff_le_idxEnd g.img
      omega
    rw [addEntry_ptr, if_neg hne]
  · obtain ⟨a, ha⟩ := hi.present x o ho
    exact (addEntry_sameRec hv ha).ptr

variable (hv) in
theorem addEntry_list_sameRec (hi : Layout S g) (ho : o ∈ g.list x) :
    SameRec g.img (g.img.addEntry e v hv) o := by
  obtain ⟨a, ha⟩ := hi.present x o ho
  exact addEntry_sameRec hv ha

theorem addedEntry_rely (hi : Layout S g) (hl : g.locks p .idx recordsOff = some .write)
    (hq : q ≠ p) : Rely q g (addedEntry g p c e v hv) where
  locks := rfl
  trace := ⟨_, rfl, quietly_other rfl hq⟩
  list y hy := by
    refine addedEntry_list_other ?_
    rintro rfl
    exact hq (Eq.symm hy)
  ptr _ _ _ hz := addEntry_cell_ptr hv hi hz
  same _ _ _ hz := addEntry_list_sameRec hv hi hz
  map _ _ := rfl
  victim _ := rfl
  keys _ _ _ he _ := addedEntry_old he
  pending := addedEntry_pending_other hq
  block _ _ := rfl
  idxEnd hg := absurd (excl_lock hi.exclusive hq hl) hg
  datEnd _ := rfl
  shape _ a ha := ⟨a, addedEntry_old ha, SameShape.refl a⟩
  grows := Or.inr ⟨e, addedEntry_new⟩

theorem addedEntry_lookup {z : ℕ} {a : Entry}
    (ha : (addedEntry g p c e v hv).img.recs.lookup z = some a) :
    (z = g.img.idxEnd ∧ a = e) ∨ g.img.recs.lookup z = some a := by
  rw [addedEntry, addEntry_lookup] at ha
  split at ha
  · exact Or.inl ⟨‹_›, (Option.some.inj ha).symm⟩
  · exact Or.inr ha

theorem addedEntry_inv (hi : Inv S g) (hb : g.pending p = some e.datoff)
    (hd : g.img.blocks.lookup e.datoff = some d) (hlen : e.datlen = d.1.length + 1)
    (hok : S.ok e.key) (hsrc : Source S g.trace e.key d) :
    Inv S (addedEntry g p c e v hv) where
  exclusive := hi.exclusive
  chains h hq := by
    obtain ⟨hc, hm⟩ := hi.chains h hq
    rw [addedEntry_list_other (by simp)]
    have hrec : ∀ z ∈ g.list (.chain h), SameRec g.img (g.img.addEntry e v hv) z :=
      fun z hz => addEntry_list_sameRec hv hi.toLayout hz
    refine ⟨chainOK_congr hc ?_ (fun z hz => (hrec z hz).ptr) fun z hz => (hrec z hz).entry, ?_⟩
    · exact addEntry_cell_ptr hv hi.toLayout (x := .chain h) List.mem_cons_self
    · intro k d' hk
      refine (hm k d' hk).trans (Iff.symm ?_)
      exact holds_congr (fun z hz => (hrec z hz).entry) fun z hz => (hrec z hz).block
  freeList hq := by
    obtain ⟨hf, hvic⟩ := hi.freeList hq
    rw [addedEntry_list_other (by simp)]
    refine ⟨freeOK_congr hf ?_ fun z hz => addEntry_list_sameRec hv hi.toLayout hz, hvic⟩
    exact addEntry_cell_ptr hv hi.toLayout (x := .free) List.mem_cons_self
  blocks := blocksOK_addEntry hi.blocks hv hd hlen (hi.pending p _ hb).2
  present y z hz := by
    by_cases hy : y = .proc p
    · subst y
      rw [addedEntry_list_self] at hz
      obtain rfl := List.mem_singleton.mp hz
      exact ⟨e, addedEntry_new⟩
    · rw [addedEntry_list_other hy] at hz
      obtain ⟨a, ha⟩ := hi.present y z hz
      exact ⟨a, addedEntry_old ha⟩
  apart y z u hy hz := by
    have fresh : ∀ w, g.img.idxEnd ∉ g.list w := by
      intro w hw
      obtain ⟨a, ha⟩ := hi.present w _ hw
      exact ne_idxEnd ha rfl
    by_cases hyp : y = .proc p
    · by_cases hzp : z = .proc p
      · rw [hyp, hzp]
      · subst y
        rw [addedEntry_list_self] at hy
        rw [addedEntry_list_other hzp, List.mem_singleton.mp hy] at hz
        exact absurd hz (fresh z)
    · rw [addedEntry_list_other hyp] at hy
      by_cases hzp : z = .proc p
      · subst z
        rw [addedEntry_list_self] at hz
        rw [List.mem_singleton.mp hz] at hy
        exact absurd hy (fresh y)
      · rw [addedEntry_list_other hzp] at hz
        exact hi.apart y z u hy hz
  pending r b hr := by
    by_cases hrp : r = p
    · subst r
      rw [addedEntry_pending_self] at hr
      cases hr
    · rw [addedEntry_pending_other hrp] at hr
      obtain ⟨hd', hn⟩ := hi.pending r b hr
      refine ⟨hd', fun z a ha => ?_⟩
      rcases addedEntry_lookup ha with ⟨-, rfl⟩ | ha
      · intro heq
        rw [heq] at hb
        exact hrp (hi.pendingOwn r p b hr hb)
      · exact hn z a ha
  pendingOwn r t b hr ht := by
    have old : ∀ u, (addedEntry g p c e v hv).pending u = some b → g.pending u = some b := by
      intro u hu
      by_cases hup : u = p
      · subst u
        rw [addedEntry_pending_self] at hu
        cases hu
      · rwa [addedEntry_pending_other hup] at hu
    exact hi.pendingOwn r t b (old r hr) (old t ht)
  clean z a ha := by
    rcases addedEntry_lookup ha with ⟨-, rfl⟩ | ha
    · exact S.clean _ hok
    · exact hi.clean z a ha
  blank z a ha hbl := by
    rcases addedEntry_lookup ha with ⟨-, rfl⟩ | ha
    · exact Or.inr hok
    · exact hi.blank z a ha hbl
  stored z a d' ha hvic hbl hd' := by
    refine source_mono ?_ (List.prefix_append _ _)
    rcases addedEntry_lookup ha with ⟨-, rfl⟩ | ha
    · obtain rfl : d = d' := Option.some.inj (hd.symm.trans hd')
      exact hsrc
    · exact hi.stored z a d' ha hvic hbl hd'
  trace := by
    refine traceOK_silent hi.trace (e := .wrote p c .idx g.img.idxEnd (e.bytes v)) ?_ rfl rfl rfl
    trivial

end Append

/-! ## Locks -/

section Locks

variable {fd : Fd} {md : LockMode} {s l : ℕ} {m : KeyMap}

def tookLock (g : Ghost ι) (p : ι) (fd : Fd) (md : LockMode) (s l : ℕ) : Ghost ι :=
  { g with
    locks := setRange g.locks p fd s l (some md)
    trace := g.trace ++ [.locked p fd md s l] }

/-- A lock released and, at the end of a call, the effect of the call on the map. -/
def released (g : Ghost ι) (p : ι) (fd : Fd) (s l : ℕ) (m : KeyMap) : Ghost ι :=
  { g with
    locks := setRange g.locks p fd s l none
    trace := g.trace ++ [.unlocked p fd s l]
    map := m }

theorem tookLock_rely (hq : q ≠ p) : Rely q g (tookLock g p fd md s l) where
  locks := setRange_other hq fd s l _
  trace := ⟨_, rfl, quietly_other rfl hq⟩
  list _ _ := rfl
  ptr _ _ _ _ := rfl
  same _ _ o _ := SameRec.refl g.img o
  map _ _ := rfl
  victim _ := rfl
  keys _ _ _ he _ := he
  pending := rfl
  block _ _ := rfl
  idxEnd _ := rfl
  datEnd _ := rfl
  shape _ e he := ⟨e, he, SameShape.refl e⟩
  grows := Or.inl rfl

theorem released_rely (hi : Layout S g) (hq : q ≠ p)
    (hm : ∀ k, Excl g p (.chain (hashOf k)) ∨ m k = g.map k) :
    Rely q g (released g p fd s l m) where
  locks := setRange_other hq fd s l _
  trace := ⟨_, rfl, quietly_other rfl hq⟩
  list _ _ := rfl
  ptr _ _ _ _ := rfl
  same _ _ o _ := SameRec.refl g.img o
  map k hg := by
    rcases hm k with he | he
    · exact absurd hg (excl_not_guards hi.exclusive hq he)
    · exact he
  victim _ := rfl
  keys _ _ _ he _ := he
  pending := rfl
  block _ _ := rfl
  idxEnd _ := rfl
  datEnd _ := rfl
  shape _ e he := ⟨e, he, SameShape.refl e⟩
  grows := Or.inl rfl

/-- A lock that does not overlap what the process holds takes no writer away. -/
theorem quiet_of_tookLock (hn : ∀ b, InRange s l b → g.locks p fd b = none)
    (hq : Quiet (tookLock g p fd md s l) x) : Quiet g x := by
  have keep : ∀ r b, g.locks r .idx b = some .write →
      (tookLock g p fd md s l).locks r .idx b = some .write := by
    intro r b hb
    by_cases hr : r = p
    · subst r
      change setRange g.locks p fd s l _ p .idx b = _
      rw [setRange_self, if_neg]
      · exact hb
      · rintro ⟨rfl, hin⟩
        rw [hn b hin] at hb
        cases hb
    · change setRange g.locks p fd s l _ r .idx b = _
      rw [setRange_other hr]
      exact hb
  intro r he
  cases x with
  | chain h => exact hq r (keep r _ he)
  | free => exact hq r (keep r _ he)
  | proc t => exact hq r he

theorem tookLock_inv (hi : Inv S g) (hg : Grantable g.locks p fd md s l)
    (hn : ∀ b, InRange s l b → g.locks p fd b = none) : Inv S (tookLock g p fd md s l) where
  exclusive := exclusive_grant hi.exclusive hg
  chains h hq := hi.chains h (quiet_of_tookLock hn hq)
  freeList hq := hi.freeList (quiet_of_tookLock hn hq)
  blocks := hi.blocks
  present := hi.present
  apart := hi.apart
  pending := hi.pending
  pendingOwn := hi.pendingOwn
  clean := hi.clean
  blank := hi.blank
  stored z a d ha hv hb hd := source_mono (hi.stored z a d ha hv hb hd) (List.prefix_append _ _)
  trace := by
    refine traceOK_silent hi.trace (e := .locked p fd md s l) ?_ rfl rfl rfl
    trivial

def Covers (fd : Fd) (s l : ℕ) : Owner ι → Prop
  | .chain h => fd = .idx ∧ InRange s l (slotOff h)
  | .free => fd = .idx ∧ InRange s l freeOff
  | .proc _ => False

theorem quiet_of_released (hx : ¬ Covers fd s l x) (hq : Quiet (released g p fd s l m) x) :
    Quiet g x := by
  have keep : ∀ r b, ¬ (fd = .idx ∧ InRange s l b) → g.locks r .idx b = some .write →
      (released g p fd s l m).locks r .idx b = some .write := by
    intro r b hb he
    change setRange g.locks p fd s l none r .idx b = _
    rw [setRange, if_neg]
    · exact he
    · rintro ⟨-, rfl, hin⟩
      exact hb ⟨rfl, hin⟩
  intro r he
  cases x with
  | chain h => exact hq r (keep r _ hx he)
  | free => exact hq r (keep r _ hx he)
  | proc t => exact hq r he

theorem released_layout (hi : Layout S g)
    (hc : ∀ h : Fin nhash, Covers fd s l (.chain h : Owner ι) →
      ChainOK g.img h (g.list (.chain h)) ∧ Content g.img h (g.list (.chain h)) m)
    (hf : Covers fd s l (.free : Owner ι) → FreeOK g.img (g.list .free) ∧ g.victim = none)
    (hm : ∀ k, ¬ Covers fd s l (.chain (hashOf k) : Owner ι) → m k = g.map k) :
    Layout S (released g p fd s l m) where
  exclusive := exclusive_release hi.exclusive p fd s l
  chains h hq := by
    by_cases hcov : Covers fd s l (.chain h : Owner ι)
    · exact hc h hcov
    · obtain ⟨hch, hcon⟩ := hi.chains h (quiet_of_released hcov hq)
      refine ⟨hch, fun k d hk => ?_⟩
      have hh : hashOf k = h := Fin.ext hk
      change m k = some d ↔ _
      rw [hm k (by rwa [hh])]
      exact hcon k d hk
  freeList hq := by
    by_cases hcov : Covers fd s l (.free : Owner ι)
    · exact hf hcov
    · exact hi.freeList (quiet_of_released hcov hq)
  blocks := hi.blocks
  present := hi.present
  apart := hi.apart
  pending := hi.pending
  pendingOwn := hi.pendingOwn
  clean := hi.clean
  blank := hi.blank
  stored z a d ha hv hb hd := source_mono (hi.stored z a d ha hv hb hd) (List.prefix_append _ _)

theorem released_inv (hi : Inv S g)
    (hc : ∀ h : Fin nhash, Covers fd s l (.chain h : Owner ι) →
      ChainOK g.img h (g.list (.chain h)) ∧ Content g.img h (g.list (.chain h)) g.map)
    (hf : Covers fd s l (.free : Owner ι) → FreeOK g.img (g.list .free) ∧ g.victim = none) :
    Inv S (released g p fd s l g.map) where
  toLayout := released_layout hi.toLayout hc hf fun _ _ => rfl
  trace := by
    refine traceOK_silent hi.trace (e := .unlocked p fd s l) ?_ rfl rfl rfl
    trivial

end Locks

end DbSharedSteps
