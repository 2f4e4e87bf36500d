import LinuxProgramming.DbSharedFind

/-! # Deleting among other processes

_db_dodelete takes the byte of the free list under the byte of the chain. Its five system
calls take the record apart in between: first its data, then its key together with its
pointer, then the two links. -/
namespace DbSharedDelete

set_option linter.unusedSectionVars false

open CStrings ByteFiles SyscallPrograms RelyGuarantee LinkedChains DbLibrary DbImage DbRecords
  DbLists DbInvariant DbOperations DbStore DbRefinement DbShared DbSharedSteps DbSharedCalls
  DbSharedFind

variable {ι : Type} [DecidableEq ι] {S : Setting ι} {g₀ g : Ghost ι} {p : ι} {c : Call} {db : DB}
  {h : Fin nhash} {k d : CString} {fuel : ℕ} {own : List ℕ} {pend : Option ℕ} {M m : KeyMap}

/-! ## Working on a chain -/

/-- The process holds the chain for writing. The chain keeps `m`, the map still says `M`. -/
structure Working (p : ι) (h : Fin nhash) (own : List ℕ) (pend : Option ℕ) (M m : KeyMap)
    (g : Ghost ι) : Prop where
  seat : Seat p (only h .write) own pend g
  chain : ChainOK g.img h (g.list (.chain h))
  content : Content g.img h (g.list (.chain h)) m
  map : ∀ k, hashOf k = h → g.map k = M k

theorem Held.working (hh : Held p h .write g) : Working p h [] none g.map g.map g :=
  ⟨hh.seat, hh.chain, hh.content, fun _ _ => rfl⟩

theorem Working.guards (w : Working p h own pend M m g) : Guards g p (.chain h) :=
  w.seat.guards only_ne_none

theorem Working.excl (w : Working p h own pend M m g) : Excl g p (.chain h) := by
  change g.locks p .idx (slotOff h) = _
  rw [w.seat.locks]
  exact only_slot

theorem Working.kept {g' : Ghost ι} {own' : List ℕ} {pend' : Option ℕ}
    (w : Working p h own pend M m g) (hk : Kept h g g')
    (seat : Seat p (only h .write) own' pend' g') : Working p h own' pend' M m g' :=
  ⟨seat, hk.chainOK w.chain, hk.content w.content, fun k hh => (hk.map k hh).trans (w.map k hh)⟩

theorem Working.stable {g' : Ghost ι} (w : Working p h own pend M m g) (hr : Rely p g g') :
    Working p h own pend M m g' := w.kept (rely_kept hr w.guards) (w.seat.stable hr)

theorem Working.mine {o : ℕ} (w : Working p h (o :: own) pend M m g) : o ∈ g.list (.proc p) := by
  rw [w.seat.own]
  exact List.mem_cons_self

/-! ## The free list -/

/-- The lock table of a process that holds a chain and the free list. -/
def withFree (h : Fin nhash) : Fd → ℕ → Option LockMode :=
  lend (only h .write) .idx .write freeOff 1

theorem withFree_slot : withFree h .idx (slotOff h) = some .write := by
  unfold withFree lend
  split
  · rfl
  · exact only_slot

theorem withFree_free : withFree h .idx freeOff = some .write :=
  lend_in ⟨le_rfl, Or.inr (Nat.lt_succ_self _)⟩

theorem guards_of_excl {x : Owner ι} (he : Excl g p x) : Guards g p x := by
  cases x with
  | chain i =>
    change g.locks p .idx (slotOff i) ≠ none
    rw [he]
    exact Option.some_ne_none _
  | free =>
    change g.locks p .idx freeOff ≠ none
    rw [he]
    exact Option.some_ne_none _
  | proc r => exact he

theorem seat_exclChain (seat : Seat p (withFree h) own pend g) : Excl g p (.chain h) := by
  change g.locks p .idx (slotOff h) = _
  rw [seat.locks, withFree_slot]

theorem seat_exclFree (seat : Seat p (withFree h) own pend g) : Excl g p .free := by
  change g.locks p .idx freeOff = _
  rw [seat.locks, withFree_free]

theorem freeOK_stable {g' : Ghost ι} (hr : Rely p g g') (hg : Guards g p .free)
    (hf : FreeOK g.img (g.list .free)) : FreeOK g'.img (g'.list .free) := by
  rw [hr.list _ hg]
  exact freeOK_congr hf (hr.ptr _ hg _ List.mem_cons_self) (hr.same _ hg)

theorem covers_free {i : Fin nhash} : ¬ Covers .idx freeOff 1 (.chain i : Owner ι) := by
  rintro ⟨-, h₁, h₂⟩
  have := slotOff_ne_free i
  simp only [freeOff] at *
  omega

theorem shared_withFree {α : Type} {Ψ : α → Ghost ι → Prop} {body : Act α} (hr : Rely p g₀ g)
    (hi : Inv S g) (seat : Seat p (only h .write) own pend g₀)
    (hbody : ∀ g₁, Kept h g₀ g₁ → Seat p (withFree h) own pend g₁ →
      FreeOK g₁.img (g₁.list .free) → g₁.victim = none → Inv S g₁ →
      Safe (protocol S) p c (fun a g₂ => Inv S g₂ ∧ ∃ own' pend', Seat p (withFree h) own' pend' g₂ ∧
        FreeOK g₂.img (g₂.list .free) ∧ g₂.victim = none ∧
        ∀ g₃, Kept h g₂ g₃ → Seat p (only h .write) own' pend' g₃ → Inv S g₃ →
          (∀ o ∈ own', SameRec g₂.img g₃.img o) → Ψ a g₃) body g₁) :
    Safe (protocol S) p c Ψ (withLock .idx .write freeOff 1 body) g := by
  refine shared_lock hr hi seat.locks (fun b hb => only_free hb) fun g₁ h₁ hi₁ hq hi₁' => ?_
  have hself : InRange freeOff 1 freeOff := ⟨le_rfl, Or.inr (Nat.lt_succ_self _)⟩
  obtain ⟨hf, hvic⟩ := hi₁.freeList (hq .free ⟨rfl, hself⟩)
  apply safe_bind
  apply safe_ret
  apply safe_bind
  refine safe_mono ?_ _ _ (hbody _ ((rely_kept h₁ (seat.guards only_ne_none)).trans tookLock_kept)
    (seat.stable h₁).tookLock ⟨hf.linked, hf.entry⟩ hvic hi₁')
  rintro a g₂ ⟨hi₂, own', pend', seat₂, hf₂, hvic₂, hΨ⟩
  apply safe_bind
  refine shared_unlock (Rely.refl p g₂) hi₂ fun g₃ h₃ hi₃ => ?_
  have hfree := guards_of_excl (seat_exclFree seat₂)
  have hchain := guards_of_excl (seat_exclChain seat₂)
  refine ⟨fun i => covers_free, fun _ => ⟨freeOK_stable h₃ hfree hf₂, (h₃.victim hfree).trans hvic₂⟩,
    fun hi₄ => safe_ret (safe_ret ?_)⟩
  refine hΨ _ ((rely_kept h₃ hchain).trans released_kept)
    ((seat₂.stable h₃).released fun b hb => only_free hb) hi₄ fun o ho => ?_
  rw [← seat₂.own] at ho
  exact h₃.same (.proc p) rfl o ho

/-! ## The writes of a deletion -/

/-- Between two writes of a deletion: the lists as the deletion has left them so far, and
the other records and the slot of the chain as they were in `I`. -/
structure Stage (p : ι) (h : Fin nhash) (I : Image) (rest cl fl own : List ℕ) (vic : Option ℕ)
    (M : KeyMap) (g : Ghost ι) : Prop where
  seat : Seat p (withFree h) own none g
  chainList : g.list (.chain h) = cl
  freeList : g.list .free = fl
  victim : g.victim = vic
  map : ∀ k, hashOf k = h → g.map k = M k
  same : ∀ z ∈ rest, SameRec I g.img z
  slot : g.img.ptr (slotOff h) = I.ptr (slotOff h)

section Stage

variable {I J : Image} {rest cl fl : List ℕ} {vic : Option ℕ} {o : ℕ} {e : Entry} {l₁ l₂ : List ℕ}

theorem Stage.exclChain (s : Stage p h I rest cl fl own vic M g) : Excl g p (.chain h) :=
  seat_exclChain s.seat

theorem Stage.exclFree (s : Stage p h I rest cl fl own vic M g) : Excl g p .free :=
  seat_exclFree s.seat

theorem Stage.stable {g' : Ghost ι} (s : Stage p h I rest cl fl own vic M g)
    (hz : ∀ z ∈ rest, z ∈ cl ∨ z ∈ fl) (hr : Rely p g g') :
    Stage p h I rest cl fl own vic M g' := by
  have hc := guards_of_excl s.exclChain
  have hf := guards_of_excl s.exclFree
  refine ⟨s.seat.stable hr, (hr.list _ hc).trans s.chainList, (hr.list _ hf).trans s.freeList,
    (hr.victim hf).trans s.victim, fun k hk => ?_, fun z hzr => ?_, ?_⟩
  · exact ((rely_kept hr hc).map k hk).trans (s.map k hk)
  · rcases hz z hzr with hzc | hzf
    · exact (s.same z hzr).trans (hr.same _ hc z (s.chainList ▸ hzc))
    · exact (s.same z hzr).trans (hr.same _ hf z (s.freeList ▸ hzf))
  · exact (hr.ptr _ hc _ List.mem_cons_self).trans s.slot

theorem Stage.wrote {fd : Fd} {off : ℕ} {bs : List Byte} {ls : Owner ι → List ℕ}
    {cl' fl' own' : List ℕ} {vic' : Option ℕ} (s : Stage p h I rest cl fl own vic M g)
    (hb : BlocksOK g.img) (hJ : LocalTo g.img J o) (hrest : o ∉ rest) (hslot : o ≠ slotOff h)
    (hcl : ls (.chain h) = cl') (hfl : ls .free = fl') (hown : ls (.proc p) = own') :
    Stage p h I rest cl' fl' own' vic' M (wrote g p c fd off bs J ls vic') := by
  refine ⟨⟨s.seat.locks, hown, s.seat.pending⟩, hcl, hfl, rfl, s.map, fun z hz => ?_, ?_⟩
  · refine (s.same z hz).trans (hJ.sameRec hb ?_)
    rintro rfl
    exact hrest hz
  · exact (hJ.ptr _ hslot.symm).trans s.slot

theorem content_remove {os : List ℕ} (hc : ChainOK I h (l₁ ++ o :: l₂))
    (hm : Content I h (l₁ ++ o :: l₂) m) (he : I.recs.lookup o = some e)
    (hos : os = l₁ ++ l₂) (hrec : ∀ z ∈ os, J.recs.lookup z = I.recs.lookup z)
    (hblk : ∀ z ∈ os, ∀ a, I.recs.lookup z = some a →
      J.blocks.lookup a.datoff = I.blocks.lookup a.datoff) :
    Content J h os (Function.update m e.key none) := by
  intro k d hk
  rw [holds_congr hrec hblk, hos, holds_remove hc he, ← hm k d hk]
  by_cases hke : k = e.key
  · simp [hke]
  · simp [hke]

/-- The record is off its chain and on the free list; both are in order again. -/
structure Detached (p : ι) (h : Fin nhash) (M m : KeyMap) (g : Ghost ι) : Prop where
  seat : Seat p (withFree h) [] none g
  freeList : FreeOK g.img (g.list .free)
  victim : g.victim = none
  chain : ChainOK g.img h (g.list (.chain h))
  content : Content g.img h (g.list (.chain h)) m
  map : ∀ k, hashOf k = h → g.map k = M k

variable {fr : List ℕ} {v : ℕ} {Ψ : DB → Ghost ι → Prop}

theorem shared_wipe (hr : Rely p g₀ g) (hi : Inv S g)
    (s : Stage p h I rest (l₁ ++ o :: l₂) fr [] none M g₀) (hrest : o ∉ rest)
    (hz : ∀ z ∈ rest, z ∈ l₁ ++ o :: l₂ ∨ z ∈ fr) (he : g₀.img.recs.lookup o = some e)
    (hd : g₀.img.blocks.lookup e.datoff = some d)
    (hΨ : ∀ g', Stage p h I rest (l₁ ++ o :: l₂) fr [] (some o) M g' → Inv S g' →
      g'.img.recs.lookup o = some e → g'.img.ptr o = g₀.img.ptr o →
      g'.img.ptr freeOff = g₀.img.ptr freeOff →
      g'.img.blocks.lookup e.datoff = some (blankString d.1.length) →
      Ψ (wroteDat db e.datoff (blankString d.1.length).1) g') :
    Safe (protocol S) p c Ψ (dbWritedat db (blankString d.1.length).1 e.datoff .set) g := by
  refine shared_writedat_set hr hi fun g₁ h₁ hi₁ => ?_
  have s₁ := s.stable hz h₁
  have hmem : o ∈ g₀.list (.chain h) := by
    rw [s.chainList]
    simp
  have hsame := h₁.same _ (guards_of_excl s.exclChain) o hmem
  have he₁ := hsame.entry.trans he
  have hd₁ := (hsame.block e he).trans hd
  have hslot : o ≠ slotOff h := entry_ne_head he (slotOff_lt h.2)
  refine ⟨.chain h, o, e, d, some o, ?_, s₁.exclChain, he₁, hd₁, rfl, length_blankString _,
    Or.inr ⟨s₁.exclFree, s₁.victim, rfl⟩, fun hne => absurd rfl hne, fun hs hi₂ => ?_⟩
  · rw [s₁.chainList]
    simp
  · have hJ := localTo_setBlock he₁ hd₁ hs
    refine hΨ _ (s₁.wrote hi₁.blocks hJ hrest hslot s₁.chainList s₁.freeList s₁.seat.own) hi₂ he₁
      hsame.ptr (h₁.ptr _ (guards_of_excl s.exclFree) _ List.mem_cons_self) ?_
    exact setBlock_lookup_self hd₁ hs

/-- The second write: the key becomes blanks and the pointer that of the free list. From
here on the record belongs to neither list. -/
theorem shared_blankEntry (hr : Rely p g₀ g) (hi : Inv S g)
    (s : Stage p h I rest (l₁ ++ o :: l₂) fr [] (some o) M g₀) (hrest : o ∉ rest)
    (hz : ∀ z ∈ rest, z ∈ l₁ ++ o :: l₂ ∨ z ∈ fr) (hnd : (l₁ ++ o :: l₂).Nodup)
    (ho : o ≤ ptrMax) (he : g₀.img.recs.lookup o = some e)
    (hd : g₀.img.blocks.lookup e.datoff = some d) (hdo : db.datoff = e.datoff)
    (hdl : db.datlen = e.datlen) (hv : v ≤ ptrMax)
    (hΨ : ∀ g', Stage p h I rest (l₁ ++ l₂) fr [o] none M g' → Inv S g' →
      g'.img.recs.lookup o = some (blanked e) → g'.img.ptr o = v →
      g'.img.blocks.lookup e.datoff = some d → Ψ (wroteIdx db (blanked e).key.1 o v) g') :
    Safe (protocol S) p c Ψ (dbWriteidx db (blanked e).key.1 o .set v) g := by
  refine shared_writeidx_set (blanked e) hr hi hdo hdl hv fun g₁ h₁ hi₁ => ?_
  have s₁ := s.stable hz h₁
  have hmem : o ∈ g₀.list (.chain h) := by
    rw [s.chainList]
    simp
  have hsame := h₁.same _ (guards_of_excl s.exclChain) o hmem
  have he₁ := hsame.entry.trans he
  have hslot : o ≠ slotOff h := entry_ne_head he (slotOff_lt h.2)
  have hne : (.chain h : Owner ι) ≠ .proc p := by simp
  have hmem₁ : o ∈ g₁.list (.chain h) := by
    rw [s₁.chainList]
    simp
  have hshape : SameShape e (blanked e) := ⟨rfl, rfl, length_blankString _⟩
  have hblank : isBlank (blanked e).key.1 = true := isBlank_blankString _
  refine ⟨.chain h, e, moveRec g₁ (.chain h) (.proc p) (l₁ ++ l₂) o, none, hmem₁, s₁.exclChain, he₁,
    hshape, ?_, Or.inr ⟨s₁.exclFree, s₁.victim, rfl⟩, Or.inl s₁.exclFree, sep_notMem_blank hblank,
    fun _ => Or.inl ho, fun d hb => ?_, fun hs hi₂ => ?_⟩
  · refine moves_moveRec hi₁.toLayout s₁.exclChain rfl hmem₁ hne fun z hzl => ?_
    rw [s₁.chainList]
    exact mem_remove hnd hzl
  · rw [hblank] at hb
    cases hb
  · have hJ := localTo_setEntry he₁ hshape hs hv
    have hlist : moveRec g₁ (.chain h) (.proc p) (l₁ ++ l₂) o (.proc p) = [o] := by
      rw [moveRec_to, s₁.seat.own]
    refine hΨ _ (s₁.wrote hi₁.blocks hJ hrest hslot (moveRec_from hne)
      ((moveRec_other (by simp) (by simp)).trans s₁.freeList) hlist) hi₂
      (setEntry_lookup_self he₁ hs) (setPtr_ptr_self hv) ((hsame.block e he).trans hd)

theorem shared_linkFree (hr : Rely p g₀ g) (hi : Inv S g)
    (s : Stage p h I (l₁ ++ l₂ ++ fr) (l₁ ++ l₂) fr [o] none M g₀) (hf : FreeOK I fr)
    (ho : o ≤ ptrMax) (he : g₀.img.recs.lookup o = some e) (hb : isBlank e.key.1 = true)
    (hd : g₀.img.blocks.lookup e.datoff = some d) (hbd : isBlank d.1 = true)
    (hp : g₀.img.ptr o = I.ptr freeOff)
    (hΨ : ∀ g', Stage p h I (l₁ ++ l₂ ++ fr) (l₁ ++ l₂) (o :: fr) [] none M g' → Inv S g' →
      FreeOK g'.img (g'.list .free) → Ψ { db with idxpos := freeOff + ptrSz } g') :
    Safe (protocol S) p c Ψ (dbWriteptr db freeOff o) g := by
  refine shared_writeptr hr hi ho fun g₁ h₁ hi₁ => ?_
  have hz : ∀ z ∈ l₁ ++ l₂ ++ fr, z ∈ l₁ ++ l₂ ∨ z ∈ fr := fun z hzr => List.mem_append.mp hzr
  have s₁ := s.stable hz h₁
  have hsame := h₁.same (.proc p) rfl o (by rw [s.seat.own]; exact List.mem_cons_self)
  have hne : (.proc p : Owner ι) ≠ .free := by simp
  have hmem : o ∈ g₁.list (.proc p) := by
    rw [s₁.seat.own]
    exact List.mem_cons_self
  have hslot : freeOff ≠ slotOff h := (slotOff_ne_free h).symm
  have hrest : freeOff ∉ l₁ ++ l₂ ++ fr := by
    intro hzr
    have hin : freeOff ∈ g₁.list (.chain h) ∨ freeOff ∈ g₁.list .free := by
      rw [s₁.chainList, s₁.freeList]
      exact hz _ hzr
    rcases hin with hin | hin
    · obtain ⟨a, ha⟩ := hi₁.present _ _ hin
      exact entry_ne_head ha freeOff_lt rfl
    · obtain ⟨a, ha⟩ := hi₁.present _ _ hin
      exact entry_ne_head ha freeOff_lt rfl
  have hof : o ≠ freeOff := entry_ne_head he freeOff_lt
  refine ⟨.free, moveRec g₁ (.proc p) .free [] o, List.mem_cons_self, s₁.exclFree, ?_, fun hi₂ => ?_⟩
  · exact moves_moveRec hi₁.toLayout rfl s₁.exclFree hmem hne fun z hzl => by cases hzl
  · have hJ : LocalTo g₁.img (g₁.img.setPtr freeOff o ho) freeOff := localTo_setPtr ho
    have hlist : moveRec g₁ (.proc p) .free [] o .free = o :: fr := by
      rw [moveRec_to, s₁.freeList]
    have s₂ : Stage p h I (l₁ ++ l₂ ++ fr) (l₁ ++ l₂) (o :: fr) [] g₁.victim M
        (wrote g₁ p c .idx freeOff (pointerText o) (g₁.img.setPtr freeOff o ho)
          (moveRec g₁ (.proc p) .free [] o) g₁.victim) :=
      s₁.wrote hi₁.blocks hJ hrest hslot
        ((moveRec_other (by simp) (by simp)).trans s₁.chainList) hlist (moveRec_from hne)
    rw [s₁.victim] at s₂ hi₂ ⊢
    refine hΨ _ s₂ hi₂ ?_
    rw [s₂.freeList]
    refine freeOK_push hf (setPtr_ptr_self ho) ?_
      (fun z hzf => s₂.same z (List.mem_append_right _ hzf)) (hsame.entry.trans he) hb
      ((hsame.block e he).trans hd) hbd
    exact (hJ.ptr o hof).trans (hsame.ptr.trans hp)

/-- The last write: the predecessor is linked to what came behind the record. -/
theorem shared_unlinkPred (hr : Rely p g₀ g) (hi : Inv S g)
    (s : Stage p h I (l₁ ++ l₂ ++ fr) (l₁ ++ l₂) (o :: fr) [] none M g₀)
    (hfree : FreeOK g₀.img (g₀.list .free)) (hc : ChainOK I h (l₁ ++ o :: l₂))
    (hm : Content I h (l₁ ++ o :: l₂) m) (he : I.recs.lookup o = some e)
    (hΨ : ∀ g' db', Detached p h M (Function.update m e.key none) g' → Inv S g' →
      db'.chainoff = db.chainoff → Ψ db' g') :
    Safe (protocol S) p c Ψ (dbWriteptr db (l₁.getLastD (slotOff h) : ℕ) (I.ptr o)) g := by
  refine shared_writeptr hr hi (I.ptr_le o) fun g₁ h₁ hi₁ => ?_
  have hz : ∀ z ∈ l₁ ++ l₂ ++ fr, z ∈ l₁ ++ l₂ ∨ z ∈ o :: fr := by
    intro z hzr
    rcases List.mem_append.mp hzr with hzc | hzf
    · exact Or.inl hzc
    · exact Or.inr (List.mem_cons_of_mem o hzf)
  have s₁ := s.stable hz h₁
  have hcell : l₁.getLastD (slotOff h) ∈ g₁.cells (.chain h) := pred_mem_cells rfl s₁.chainList
  refine ⟨.chain h, g₁.list, hcell, s₁.exclChain, moves_same hi₁.toLayout, fun hi₂ => ?_⟩
  have hfree₁ := freeOK_stable h₁ (guards_of_excl s.exclFree) hfree
  have hpred : ∀ z, z ≠ l₁.getLastD (slotOff h) →
      (g₁.img.setPtr (l₁.getLastD (slotOff h)) (I.ptr o) (I.ptr_le o)).ptr z = g₁.img.ptr z :=
    fun z hne => setPtr_ptr_other (I.ptr_le o) hne
  have hrec : ∀ z ∈ g₁.list (.chain h), SameRec I g₁.img z := by
    rw [s₁.chainList]
    exact fun z hzc => s₁.same z (List.mem_append_left _ hzc)
  refine hΨ _ _ ⟨⟨s₁.seat.locks, s₁.seat.own, s₁.seat.pending⟩, ?_, s₁.victim, ?_, ?_, s₁.map⟩ hi₂ rfl
  · refine freeOK_congr hfree₁ (hpred _ ?_) fun z hzf => (localTo_setPtr (I.ptr_le o)).sameRec hi₁.blocks ?_
    · intro heq
      cases hi₁.cells_apart (x := .free) (y := .chain h) List.mem_cons_self (heq ▸ hcell)
    · rintro rfl
      cases hi₁.cells_apart (x := .free) (y := .chain h) (mem_cells_of_list hzf) hcell
  · change ChainOK _ h (g₁.list (.chain h))
    rw [s₁.chainList] at hrec ⊢
    refine chainOK_remove hc (setPtr_ptr_self (I.ptr_le o)) (fun z hzc hne => ?_)
      fun z hzc => (hrec z hzc).entry
    refine (hpred z hne).trans ?_
    rcases List.mem_cons.mp hzc with rfl | hzc
    · exact s₁.slot
    · exact (hrec z hzc).ptr
  · exact content_remove hc hm he s₁.chainList (fun z hzc => (hrec z hzc).entry)
      fun z hzc => (hrec z hzc).block

theorem shared_dodelete (hr : Rely p g₀ g) (hi : Inv S g) (w : Working p h [] none M m g₀)
    (hos : g₀.list (.chain h) = l₁ ++ o :: l₂) (he : g₀.img.recs.lookup o = some e)
    (hn : Names db g₀.img o e) (hp : db.ptroff = l₁.getLastD (slotOff h))
    (hΨ : ∀ g' db', Working p h [] none M (Function.update m e.key none) g' → Inv S g' →
      db'.chainoff = db.chainoff → Ψ db' g') :
    Safe (protocol S) p c Ψ (dbDodelete db) g := by
  have hmem : o ∈ g₀.list (.chain h) := by simp [hos]
  unfold dbDodelete
  refine shared_withFree hr hi w.seat fun g₁ hk seat hf hvic hi₁ => ?_
  have hsame := hk.same o hmem
  have he₁ := hsame.entry.trans he
  obtain ⟨d, hd, hl⟩ := hi₁.blocks.block o e he₁
  have hlist := hk.list.trans hos
  have hch := hk.chainOK w.chain
  have hcon := hk.content w.content
  rw [hlist] at hch hcon
  have ho : o ≤ ptrMax := linked_le_ptrMax hch.linked (by simp)
  have hnd := linked_nodup hch.linked
  have hz : ∀ z ∈ l₁ ++ l₂ ++ g₁.list .free, z ∈ l₁ ++ o :: l₂ ∨ z ∈ g₁.list .free := by
    intro z hzr
    rcases List.mem_append.mp hzr with hzc | hzf
    · exact Or.inl (mem_remove hnd hzc).1
    · exact Or.inr hzf
  have hrest : o ∉ l₁ ++ l₂ ++ g₁.list .free := by
    intro hzr
    rcases List.mem_append.mp hzr with hzc | hzf
    · exact (mem_remove hnd hzc).2 rfl
    · cases hi₁.apart _ _ _ (hk.list ▸ hmem : o ∈ g₁.list (.chain h)) hzf
  have s₁ : Stage p h g₁.img (l₁ ++ l₂ ++ g₁.list .free) (l₁ ++ o :: l₂) (g₁.list .free) [] none M
      g₁ :=
    ⟨seat, hlist, rfl, hvic, fun k hh => (hk.map k hh).trans (w.map k hh),
      fun z _ => SameRec.refl _ z, rfl⟩
  have hblanks : cstr (List.replicate (db.datlen - 1) space ++ [0]) = (blankString d.1.length).1 := by
    rw [cstr_blanks, hn.datlen, hl, Nat.add_sub_cancel]
  apply safe_bind
  dsimp only
  rw [hblanks, hn.datoff, hn.idxbuf]
  refine shared_wipe (Rely.refl p _) hi₁ s₁ hrest hz he₁ hd fun g₂ s₂ hi₂ he₂ _ hpf₂ hd₂ => ?_
  apply safe_bind
  refine shared_readptr (Rely.refl p _) hi₂ (guards_of_excl s₂.exclFree) List.mem_cons_self
    fun g₃ h₃ hi₃ => ?_
  dsimp only [wroteDat]
  rw [cstr_blankKey, hn.idxoff]
  apply safe_bind
  refine shared_blankEntry h₃ hi₃ s₂ hrest hz hnd ho he₂ hd₂ rfl ?_ (g₂.img.ptr_le freeOff)
    fun g₄ s₄ hi₄ he₄ hp₄ hd₄ => ?_
  · exact (congrArg (· + 1) (length_blankString _)).trans hl.symm
  apply safe_bind
  refine shared_linkFree (Rely.refl p _) hi₄ s₄ hf ho he₄ (isBlank_blankString _) hd₄
    (isBlank_blankString _) (hp₄.trans hpf₂) fun g₅ s₅ hi₅ hf₅ => ?_
  change Safe (protocol S) p c _ (dbWriteptr _ db.ptroff db.ptrval) g₅
  rw [hp, hn.ptrval, ← hsame.ptr]
  refine shared_unlinkPred (Rely.refl p _) hi₅ s₅ hf₅ hch hcon he₁ fun g₆ db' det hi₆ hcf => ?_
  refine ⟨hi₆, [], none, det.seat, det.freeList, det.victim, fun g₇ hk₇ seat₇ hi₇ _ => ?_⟩
  exact hΨ g₇ db' ⟨seat₇, hk₇.chainOK det.chain, hk₇.content det.content,
    fun k hh => (hk₇.map k hh).trans (det.map k hh)⟩ hi₇ hcf

end Stage

/-! ## The whole call -/

theorem Held.absent {md : LockMode} (hh : Held p (hashOf k) md g)
    (h : Absent g.img (g.list (.chain (hashOf k))) k) : g.map k = none := by
  cases hm : g.map k with
  | none => rfl
  | some d =>
    obtain ⟨o, ho, e, he, hk, -⟩ := (hh.content k d rfl).mp hm
    exact absurd hk (h o ho e he).1

/-- What an operation answers and leaves on a chain depends on that chain only. -/
theorem apply_congr {op : MapOp} (hm : ∀ k, hashOf k = hashOf op.key → m k = M k) :
    (op.apply m).1 = (op.apply M).1 ∧
      ∀ k, hashOf k = hashOf op.key → (op.apply m).2 k = (op.apply M).2 k := by
  have hkey := hm op.key rfl
  cases op with
  | fetch k' =>
    change m k' = M k' at hkey
    simp only [MapOp.apply, hkey]
    exact ⟨trivial, hm⟩
  | store k' d flag =>
    change m k' = M k' at hkey
    have hrc : storeRc m k' flag = storeRc M k' flag := by simp only [storeRc, hkey]
    simp only [MapOp.apply, storeMap, hrc]
    refine ⟨trivial, fun k hk => ?_⟩
    split
    · by_cases hkk : k = k'
      · simp [hkk]
      · simp [hkk, hm k hk]
    · exact hm k hk
  | delete k' =>
    change m k' = M k' at hkey
    simp only [MapOp.apply, hkey]
    refine ⟨trivial, fun k hk => ?_⟩
    by_cases hkk : k = k'
    · simp [hkk]
    · simp [hkk, hm k hk]

/-- A chain that holds what the operation leaves is handed back with the answer. -/
theorem shared_returns (op : MapOp) {rc : ℤ} (hns : ¬ S.scans p)
    (w : Working p (hashOf op.key) [] none M (op.apply M).2 g₀)
    (hans : Result.status rc = (op.apply M).1) (hcf : db.chainoff = chainOff op.key.1)
    (hr : Rely p g₀ g) (hi : Inv S g) :
    Safe (protocol S) p op.call (fun a g' => Safe (protocol S) p op.call
        (Completes (protocol S) p op.call) (.ret (.status a.1, a.2)) g')
      (unLock .idx db.chainoff.toNat 1 >>= fun _ => .ret (rc, db)) g := by
  rw [hcf]
  apply safe_bind
  refine safe_mono ?_ _ _ (shared_finish op (.status rc) db hns w.seat (Or.inl rfl)
    (fun g₁ h₁ hi₁ => ?_) hr hi)
  · exact fun _ _ hc => safe_ret (safe_ret hc)
  · have w₁ := w.stable h₁
    obtain ⟨hres, hmap⟩ := apply_congr w₁.map
    exact ⟨w₁.chain, content_congr w₁.content hmap, hans.trans hres.symm⟩

theorem shared_delete (hns : ¬ S.scans p) (hf : ptrMax ≤ fuel) (hi : Inv S g)
    (hrest : Resting S p db g) :
    CallSafe (protocol S) p (.delete k) (exec fuel (.delete k) db) g := by
  have seat : Seat p unlocked [] none g := ⟨hrest.locks, hrest.own, hrest.pending⟩
  apply safe_bind
  unfold dbDelete
  apply safe_bind
  refine shared_findAndLock (Rely.refl p g) hi seat hf ?_ ?_
  · intro g₁ g₂ held h₂ hi₂ l₁ o l₂ e db' hos he hk hn hp hcf
    have ho : o ∈ g₁.list (.chain (hashOf k)) := by simp [hos]
    have hsame := h₂.same _ held.guards o ho
    obtain ⟨d, hd, -⟩ := hi₂.blocks.block o e (hsame.entry.trans he)
    have hmap : g₁.map k = some d :=
      (held.content k d rfl).mpr ⟨o, ho, e, he, hk, (hsame.block e he).symm.trans hd⟩
    apply safe_bind
    apply safe_if_pos rfl
    apply safe_bind
    refine shared_dodelete h₂ hi₂ (Held.working held) hos he hn hp fun g₃ db₃ w hi₃ hcf₃ => ?_
    rw [hk] at w
    apply safe_ret
    refine shared_returns (.delete k) hns w ?_ (hcf₃.trans hcf) (Rely.refl p _) hi₃
    simp [MapOp.apply, hmap]
  · intro g₁ g₂ held h₂ hi₂ db' habs hcf
    have hmap := Held.absent held habs
    have w := Held.working held
    apply safe_bind
    apply safe_if_neg (by decide)
    apply safe_ret
    have hsame : (MapOp.apply g₁.map (.delete k)).2 = g₁.map := Function.update_eq_self_iff.mpr hmap.symm
    refine shared_returns (.delete k) hns ⟨w.seat, w.chain, ?_, w.map⟩ ?_ hcf h₂ hi₂
    · rw [hsame]
      exact w.content
    · simp [MapOp.apply, hmap]

end DbSharedDelete
