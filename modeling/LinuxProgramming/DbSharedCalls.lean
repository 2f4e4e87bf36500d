import LinuxProgramming.DbSharedSteps

/-! # The record functions of db.c among other processes

What a process reads from a list that it guards is what it knew of that list. What it
writes into a list that it holds becomes the new state, whatever the others have done to
the rest of the files in between. -/
namespace DbSharedCalls

set_option linter.unusedSectionVars false

open CStrings ByteFiles SyscallPrograms RelyGuarantee LinkedChains DbLibrary DbImage DbRecords
  DbLists DbInvariant DbOperations DbStore DbRefinement DbShared DbSharedSteps

variable {ι : Type} [DecidableEq ι] {S : Setting ι} {g₀ g : Ghost ι} {p : ι} {x : Owner ι}
  {o v : ℕ} {c : Call} {db : DB} {e : Entry} {d : CString}

/-! ## Reading -/

theorem cell_hasPtr (hi : Layout S g) (ho : o ∈ g.cells x) : g.img.HasPtr o := by
  rcases List.mem_append.mp ho with ho | ho
  · cases x with
    | chain h =>
      rw [List.mem_singleton.mp ho]
      exact slot_hasPtr h.2
    | free =>
      rw [List.mem_singleton.mp ho]
      exact free_hasPtr
    | proc r => cases ho
  · obtain ⟨e, he⟩ := hi.present x o ho
    exact hasPtr_entry he

theorem shared_read {α : Type} {Ψ : α → Ghost ι → Prop} {fd : Fd} {off n : ℕ}
    {k : List Byte → Act α} (hr : Rely p g₀ g) (hi : Inv S g)
    (h : ∀ g₁, Rely p g₀ g₁ → Inv S g₁ →
      (∃ tr, g₁.trace = tr ++ [.got p c fd off n (pread (g₁.img.files fd) off n)]) →
      Safe (protocol S) p c Ψ (k (pread (g₁.img.files fd) off n)) g₁) :
    Safe (protocol S) p c Ψ (.read fd off n k) g := by
  refine safe_read hr hi fun g₁ h₁ hi₁ => ?_
  have hown : Quietly p [.got p c fd off n (pread (g₁.img.files fd) off n)] :=
    quietly_one fun _ => trivial
  have hinv : Inv S (noted g₁ (.got p c fd off n (pread (g₁.img.files fd) off n))) := by
    refine ⟨noted_layout hi₁.toLayout, traceOK_silent hi₁.trace ?_ rfl rfl rfl⟩
    trivial
  refine ⟨noted g₁ _, rfl, fun q hq => noted_rely (quietly_other rfl hq), ?_⟩
  exact h _ (h₁.trans (noted_rely hown)) hinv ⟨g₁.trace, rfl⟩

theorem shared_readptr {Ψ : ℤ × DB → Ghost ι → Prop} (hr : Rely p g₀ g) (hi : Inv S g)
    (hx : Guards g₀ p x) (ho : o ∈ g₀.cells x)
    (h : ∀ g₁, Rely p g₀ g₁ → Inv S g₁ →
      Ψ (g₀.img.ptr o, { db with idxpos := o + ptrSz }) g₁) :
    Safe (protocol S) p c Ψ (dbReadptr db o) g := by
  rw [readptr_eq]
  refine shared_read hr hi fun g₁ h₁ hi₁ _ => ?_
  have hp : g₁.img.HasPtr o := cell_hasPtr hi₁.toLayout (x := x) (by rwa [h₁.cells hx])
  have hlen := length_pointerText (g₀.img.ptr_le o)
  rw [show g₁.img.files .idx = g₁.img.idx from rfl, pread_ptr hp, h₁.ptr x hx o ho]
  apply safe_if_neg (not_not_intro hlen)
  rw [hlen, pointerText, atol_padLeft]
  exact safe_ret (h g₁ h₁ hi₁)

theorem shared_readRecord {Ψ : ℤ × DB → Ghost ι → Prop} {off : ℤ} (hr : Rely p g₀ g)
    (hi : Inv S g) (hx : Guards g₀ p x) (ho : db.idxpos ∈ g₀.list x)
    (he : g₀.img.recs.lookup db.idxpos = some e)
    (h : ∀ g₁, Rely p g₀ g₁ → Inv S g₁ →
      Ψ (g₀.img.ptr db.idxpos, readBack db (g₀.img.ptr db.idxpos) e) g₁) :
    Safe (protocol S) p c Ψ (readRecord db off) g := by
  rw [readRecord_eq]
  refine shared_read hr hi fun g₁ h₁ hi₁ _ => ?_
  have hs₁ := h₁.same x hx _ ho
  rw [show g₁.img.files .idx = g₁.img.idx from rfl,
    pread_entry_front (hs₁.entry.trans he), readFront_entry db off (g₁.img.ptr_le _), hs₁.ptr]
  refine shared_read h₁ hi₁ fun g₂ h₂ hi₂ _ => ?_
  have he₂ := (h₂.same x hx _ ho).entry.trans he
  rw [show g₂.img.files .idx = g₂.img.idx from rfl, pread_entry_text he₂]
  apply safe_if_neg (not_not_intro rfl)
  rw [parseIdxbuf_clean rfl (hi₂.clean _ e he₂)]
  have hpos : db.idxpos + (ptrSz + idxlenSz) + e.text.length = db.idxpos + e.size := by
    rw [Entry.size, Nat.add_assoc]
  rw [hpos]
  exact safe_ret (h g₂ h₂ hi₂)

theorem shared_readidx {Ψ : ℤ × DB → Ghost ι → Prop} (hr : Rely p g₀ g) (hi : Inv S g)
    (hx : Guards g₀ p x) (ho : o ∈ g₀.list x) (he : g₀.img.recs.lookup o = some e)
    (h : ∀ g₁, Rely p g₀ g₁ → Inv S g₁ →
      Ψ (g₀.img.ptr o, readBack { db with idxpos := o } (g₀.img.ptr o) e) g₁) :
    Safe (protocol S) p c Ψ (dbReadidx db o) g := by
  rw [readidx_eq db (entry_ne_zero he)]
  exact shared_readRecord hr hi hx ho he h

theorem shared_readdat {Ψ : List Byte × DB → Ghost ι → Prop} (hr : Rely p g₀ g) (hi : Inv S g)
    (ho : db.datoff = o)
    (hd : ∀ g₁, Rely p g₀ g₁ → Inv S g₁ →
      ∃ d : CString, g₁.img.blocks.lookup o = some d ∧ db.datlen = d.1.length + 1)
    (h : ∀ (g₁ : Ghost ι) (d : CString) (db' : DB), Rely p g₀ g₁ → Inv S g₁ →
      g₁.img.blocks.lookup o = some d → db'.idxpos = db.idxpos → db'.chainoff = db.chainoff →
      Ψ (d.1, db') g₁) :
    Safe (protocol S) p c Ψ (dbReaddat db) g := by
  rw [readdat_eq db ho]
  refine shared_read hr hi fun g₁ h₁ hi₁ _ => ?_
  obtain ⟨d, hl, hdl⟩ := hd g₁ h₁ hi₁
  have hlen : (d.1 ++ [newline]).length = d.1.length + 1 := List.length_append
  rw [show g₁.img.files .dat = g₁.img.dat from rfl, hdl, pread_block hl]
  apply safe_if_neg (not_not_intro hlen)
  apply safe_if_neg (not_not_intro (block_newline d))
  rw [block_set, cstr_append_nul d.2, hlen]
  exact safe_ret (h g₁ d _ h₁ hi₁ hl rfl rfl)

/-! ## Writing into held lists -/

theorem view_wrote {g₁ : Ghost ι} {fd : Fd} {off : ℕ} {bs : List Byte} {J : Image}
    {ls : Owner ι → List ℕ} {vic : Option ℕ}
    (hf : Function.update g₁.img.files fd (pwrite (g₁.img.files fd) off bs) = J.files) :
    (wrote g₁ p c fd off bs J ls vic).view = { g₁.view with
      files := Function.update g₁.view.files fd (pwrite (g₁.view.files fd) off bs)
      trace := g₁.view.trace ++ [.wrote p c fd off bs] } := by
  simp only [Ghost.view, wrote, hf]

theorem shared_writeptr {Ψ : DB → Ghost ι → Prop} (hr : Rely p g₀ g) (hi : Inv S g)
    (hv : v ≤ ptrMax)
    (h : ∀ g₁, Rely p g₀ g₁ → Inv S g₁ → ∃ x ls, o ∈ g₁.cells x ∧ Excl g₁ p x ∧ Moves g₁ p ls ∧
      (Inv S (wrote g₁ p c .idx o (pointerText v) (g₁.img.setPtr o v hv) ls g₁.victim) →
        Ψ { db with idxpos := o + ptrSz }
          (wrote g₁ p c .idx o (pointerText v) (g₁.img.setPtr o v hv) ls g₁.victim))) :
    Safe (protocol S) p c Ψ (dbWriteptr db o v) g := by
  rw [writeptr_eq db o hv, length_pointerText hv]
  refine safe_write hr hi fun g₁ h₁ hi₁ => ?_
  obtain ⟨x, ls, hc, hx, hm, hΨ⟩ := h g₁ h₁ hi₁
  obtain ⟨hloc, hinv⟩ := wrote_ptr (c := c) hi₁ hc hx hm hv (pointerText v)
  refine ⟨_, view_wrote ?_, fun q hq => hloc.rely hi₁ hq, safe_ret (hΨ hinv)⟩
  exact files_setPtr (cell_hasPtr hi₁.toLayout hc) hv

theorem shared_writedat_set {Ψ : DB → Ghost ι → Prop} {d' : CString} (hr : Rely p g₀ g)
    (hi : Inv S g)
    (h : ∀ g₁, Rely p g₀ g₁ → Inv S g₁ → ∃ x o e d vic, o ∈ g₁.list x ∧ Excl g₁ p x ∧
      g₁.img.recs.lookup o = some e ∧ g₁.img.blocks.lookup e.datoff = some d ∧ e.datoff = v ∧
      d'.1.length = d.1.length ∧
      (vic = g₁.victim ∨ (Excl g₁ p .free ∧ g₁.victim = none ∧ vic = some o)) ∧
      (vic ≠ some o → isBlank e.key.1 = false → ∃ flag, c = .store e.key d' flag) ∧
      ∀ hs, Inv S (wrote g₁ p c .dat v (d'.1 ++ [newline]) (g₁.img.setBlock v d' hs) g₁.list vic) →
        Ψ (wroteDat db v d'.1)
          (wrote g₁ p c .dat v (d'.1 ++ [newline]) (g₁.img.setBlock v d' hs) g₁.list vic)) :
    Safe (protocol S) p c Ψ (dbWritedat db d'.1 v .set) g := by
  rw [writedat_set_eq]
  refine safe_write hr hi fun g₁ h₁ hi₁ => ?_
  obtain ⟨x, o, e, d, vic, ho, hx, he, hd, rfl, hlen, hvic, hsrc, hΨ⟩ := h g₁ h₁ hi₁
  have hs : ∀ c, (e.datoff, c) ∈ g₁.img.blocks → blockSize c = blockSize d' := by
    intro a ha
    obtain rfl : d = a := Option.some.inj (hd.symm.trans (lookup_block.mpr ha))
    rw [blockSize, blockSize, hlen]
  obtain ⟨hloc, hinv⟩ := wrote_block (c := c) hi₁ ho hx he hd hs hvic fun hv hb => by
    obtain ⟨flag, rfl⟩ := hsrc hv hb
    exact Or.inr ⟨p, flag, e.datoff, by simp⟩
  refine ⟨_, view_wrote ?_, fun q hq => hloc.rely hi₁ hq, safe_ret (hΨ hs hinv)⟩
  exact files_setBlock hd hs

theorem shared_writeidx_set {Ψ : DB → Ghost ι → Prop} (e' : Entry) (hr : Rely p g₀ g)
    (hi : Inv S g) (hdo : db.datoff = e'.datoff) (hdl : db.datlen = e'.datlen) (hv : v ≤ ptrMax)
    (h : ∀ g₁, Rely p g₀ g₁ → Inv S g₁ → ∃ x e ls vic, o ∈ g₁.list x ∧ Excl g₁ p x ∧
      g₁.img.recs.lookup o = some e ∧ SameShape e e' ∧ Moves g₁ p ls ∧
      (vic = g₁.victim ∨ (Excl g₁ p .free ∧ g₁.victim = some o ∧ vic = none)) ∧
      (Excl g₁ p .free ∨ isBlank e.key.1 = true) ∧ sep ∉ e'.key.1 ∧
      (isBlank e'.key.1 = true → o ≤ ptrMax ∨ S.ok e'.key) ∧
      (∀ d, isBlank e'.key.1 = false → g₁.img.blocks.lookup e.datoff = some d →
        Source S g₁.trace e'.key d) ∧
      ∀ hs, Inv S (wrote g₁ p c .idx o (e'.bytes v) ((g₁.img.setEntry o e' hs).setPtr o v hv) ls vic) →
        Ψ (wroteIdx db e'.key.1 o v)
          (wrote g₁ p c .idx o (e'.bytes v) ((g₁.img.setEntry o e' hs).setPtr o v hv) ls vic)) :
    Safe (protocol S) p c Ψ (dbWriteidx db e'.key.1 o .set v) g := by
  rw [writeidx_set_eq db _ o hv (entry_in_limits hdo hdl), recordBytes_entry hdo hdl]
  refine safe_write hr hi fun g₁ h₁ hi₁ => ?_
  obtain ⟨x, e, ls, vic, ho, hx, he, hsh, hm, hvic, hkey, hclean, hblank, hsrc, hΨ⟩ := h g₁ h₁ hi₁
  have hs : ∀ c, (o, c) ∈ g₁.img.recs → c.size = e'.size := by
    intro a ha
    obtain rfl : e = a := Option.some.inj (he.symm.trans (lookup_entry.mpr ha))
    exact hsh.size.symm
  obtain ⟨hloc, hinv⟩ := wrote_entry (c := c) hi₁ ho hx he hsh hs hv hm hvic hkey hclean hblank hsrc
    (e'.bytes v)
  refine ⟨_, view_wrote ?_, fun q hq => hloc.rely hi₁ hq, safe_ret (hΨ hs hinv)⟩
  exact files_setEntry he hs hv

/-! ## Locks -/

section Locks

variable {fd : Fd} {md : LockMode} {s l : ℕ} {T : Fd → ℕ → Option LockMode} {α : Type}
  {Ψ : α → Ghost ι → Prop} {k : Act α}

def lend (T : Fd → ℕ → Option LockMode) (fd : Fd) (md : LockMode) (s l : ℕ) :
    Fd → ℕ → Option LockMode :=
  fun f b => if f = fd ∧ InRange s l b then some md else T f b

theorem tookLock_locks (hT : g.locks p = T) :
    (tookLock g p fd md s l).locks p = lend T fd md s l := by
  funext f b
  change setRange g.locks p fd s l (some md) p f b = _
  rw [setRange_self, hT, lend]

theorem released_locks {m : KeyMap} (hT : g.locks p = lend T fd md s l)
    (hn : ∀ b, InRange s l b → T fd b = none) : (released g p fd s l m).locks p = T := by
  funext f b
  change setRange g.locks p fd s l none p f b = _
  rw [setRange_self, hT]
  by_cases hb : f = fd ∧ InRange s l b
  · obtain ⟨rfl, hb⟩ := hb
    rw [if_pos ⟨rfl, hb⟩, hn b hb]
  · rw [if_neg hb, lend, if_neg hb]

theorem quiet_of_grantable (hg : Grantable g.locks p fd md s l)
    (hn : ∀ b, InRange s l b → g.locks p fd b = none) (hc : Covers fd s l x) : Quiet g x := by
  have none_writes : ∀ b, fd = .idx → InRange s l b → ∀ r, g.locks r .idx b ≠ some .write := by
    rintro b rfl hb r hw
    by_cases hr : r = p
    · subst r
      rw [hn b hb] at hw
      cases hw
    · have := hg r hr b hb
      rw [hw] at this
      cases md <;> exact this
  intro r he
  cases x with
  | chain h => exact none_writes _ hc.1 hc.2 r he
  | free => exact none_writes _ hc.1 hc.2 r he
  | proc t => exact hc

theorem shared_lock (hr : Rely p g₀ g) (hi : Inv S g) (hT : g₀.locks p = T)
    (hn : ∀ b, InRange s l b → T fd b = none)
    (h : ∀ g₁, Rely p g₀ g₁ → Inv S g₁ → (∀ x, Covers fd s l x → Quiet g₁ x) →
      Inv S (tookLock g₁ p fd md s l) → Safe (protocol S) p c Ψ k (tookLock g₁ p fd md s l)) :
    Safe (protocol S) p c Ψ (.lock fd md s l k) g := by
  refine safe_lock hr hi fun g₁ h₁ hi₁ hg => ?_
  have hn₁ : ∀ b, InRange s l b → g₁.locks p fd b = none := by
    rw [h₁.locks, hT]
    exact hn
  refine ⟨tookLock g₁ p fd md s l, rfl, fun q hq => tookLock_rely hq, ?_⟩
  exact h g₁ h₁ hi₁ (fun x hx => quiet_of_grantable hg hn₁ hx) (tookLock_inv hi₁ hg hn₁)

theorem shared_unlock (hr : Rely p g₀ g) (hi : Inv S g)
    (h : ∀ g₁, Rely p g₀ g₁ → Inv S g₁ →
      (∀ h : Fin nhash, ¬ Covers fd s l (.chain h : Owner ι)) ∧
      (Covers fd s l (.free : Owner ι) → FreeOK g₁.img (g₁.list .free) ∧ g₁.victim = none) ∧
      (Inv S (released g₁ p fd s l g₁.map) →
        Safe (protocol S) p c Ψ k (released g₁ p fd s l g₁.map))) :
    Safe (protocol S) p c Ψ (.unlock fd s l k) g := by
  refine safe_unlock hr hi fun g₁ h₁ hi₁ => ?_
  obtain ⟨hc, hf, hk⟩ := h g₁ h₁ hi₁
  refine ⟨released g₁ p fd s l g₁.map, rfl, fun q hq => ?_, hk ?_⟩
  · exact released_rely hi₁.toLayout hq fun _ => Or.inr rfl
  · exact released_inv hi₁ (fun i hcov => absurd hcov (hc i)) hf

end Locks

/-! ## What a process keeps of its chain -/

/-- The chain `h` is as it was. -/
structure Kept (h : Fin nhash) (a b : Ghost ι) : Prop where
  trace : a.trace <+: b.trace
  list : b.list (.chain h) = a.list (.chain h)
  ptr : b.img.ptr (slotOff h) = a.img.ptr (slotOff h)
  same : ∀ o ∈ a.list (.chain h), SameRec a.img b.img o
  map : ∀ k, hashOf k = h → b.map k = a.map k

variable {h : Fin nhash} {a b : Ghost ι} {q : ι}

theorem Kept.trans {c : Ghost ι} (h₁ : Kept h a b) (h₂ : Kept h b c) : Kept h a c where
  trace := h₁.trace.trans h₂.trace
  list := h₂.list.trans h₁.list
  ptr := h₂.ptr.trans h₁.ptr
  same o ho := by
    refine (h₁.same o ho).trans (h₂.same o ?_)
    rwa [h₁.list]
  map k hk := (h₂.map k hk).trans (h₁.map k hk)

theorem rely_kept (hr : Rely p a b) (hg : Guards a p (.chain h)) : Kept h a b where
  trace := hr.grown
  list := hr.list _ hg
  ptr := hr.ptr _ hg _ List.mem_cons_self
  same := hr.same _ hg
  map k hk := hr.map k (by rwa [hk])

theorem tookLock_kept {fd : Fd} {md : LockMode} {s l : ℕ} : Kept h g (tookLock g p fd md s l) :=
  ⟨List.prefix_append _ _, rfl, rfl, fun o _ => SameRec.refl g.img o, fun _ _ => rfl⟩

theorem released_kept {fd : Fd} {s l : ℕ} : Kept h g (released g p fd s l g.map) :=
  ⟨List.prefix_append _ _, rfl, rfl, fun o _ => SameRec.refl g.img o, fun _ _ => rfl⟩

theorem addedBlock_kept (hi : Layout S g) : Kept h g (addedBlock g p c d) :=
  ⟨List.prefix_append _ _, rfl, rfl, fun _ _ => addBlock_sameRec hi, fun _ _ => rfl⟩

theorem addedEntry_kept {hv : v ≤ ptrMax} (hi : Layout S g) :
    Kept h g (addedEntry g p c e v hv) where
  trace := List.prefix_append _ _
  list := addedEntry_list_other (by simp)
  ptr := addEntry_cell_ptr hv hi (x := .chain h) List.mem_cons_self
  same _ ho := addEntry_list_sameRec hv hi ho
  map _ _ := rfl

/-- A write outside the chain, whatever records change hands between other lists. -/
theorem wrote_kept {fd : Fd} {off : ℕ} {bs : List Byte} {J : Image} {ls : Owner ι → List ℕ}
    {vic : Option ℕ} (hi : Inv S g) (hc : o ∈ g.cells x) (hx : x ≠ .chain h)
    (hJ : LocalTo g.img J o) (hlist : ls (.chain h) = g.list (.chain h)) :
    Kept h g (wrote g p c fd off bs J ls vic) := by
  have hne : ∀ z ∈ g.cells (.chain h), z ≠ o := by
    rintro z hz rfl
    exact hx (hi.cells_apart hc hz)
  exact {
    trace := List.prefix_append _ _
    list := hlist
    ptr := hJ.ptr _ (hne _ List.mem_cons_self)
    same := fun z hz => hJ.sameRec hi.blocks (hne z (mem_cells_of_list hz))
    map := fun _ _ => rfl }

theorem Kept.chainOK (hk : Kept h a b) (hc : ChainOK a.img h (a.list (.chain h))) :
    ChainOK b.img h (b.list (.chain h)) := by
  rw [hk.list]
  exact chainOK_congr hc hk.ptr (fun o ho => (hk.same o ho).ptr) fun o ho => (hk.same o ho).entry

theorem Kept.content {m : KeyMap} (hk : Kept h a b) (hc : Content a.img h (a.list (.chain h)) m) :
    Content b.img h (b.list (.chain h)) m := by
  intro k d hh
  rw [hk.list, hc k d hh]
  exact (holds_congr (fun o ho => (hk.same o ho).entry) fun o ho => (hk.same o ho).block).symm

/-! ## Appending -/

/-- What the ghost state keeps for a process alone. -/
structure Seat (p : ι) (T : Fd → ℕ → Option LockMode) (own : List ℕ) (pend : Option ℕ)
    (g : Ghost ι) : Prop where
  locks : g.locks p = T
  own : g.list (.proc p) = own
  pending : g.pending p = pend

section Appending

variable {T : Fd → ℕ → Option LockMode} {own : List ℕ} {pend : Option ℕ}

theorem Seat.stable (hs : Seat p T own pend a) (hr : Rely p a b) : Seat p T own pend b :=
  ⟨hr.locks.trans hs.locks, (hr.list (.proc p) rfl).trans hs.own, hr.pending.trans hs.pending⟩

theorem Seat.guards (hs : Seat p T own pend a) (hT : T .idx (slotOff h) ≠ none) :
    Guards a p (.chain h) := by
  change a.locks p .idx (slotOff h) ≠ none
  rwa [hs.locks]

theorem Seat.tookLock {fd : Fd} {md : LockMode} {s l : ℕ} (hs : Seat p T own pend a) :
    Seat p (lend T fd md s l) own pend (tookLock a p fd md s l) :=
  ⟨tookLock_locks hs.locks, hs.own, hs.pending⟩

theorem Seat.released {fd : Fd} {md : LockMode} {s l : ℕ}
    (hs : Seat p (lend T fd md s l) own pend a) (hn : ∀ b, InRange s l b → T fd b = none) :
    Seat p T own pend (released a p fd s l a.map) :=
  ⟨released_locks hs.locks hn, hs.own, hs.pending⟩

theorem lend_keeps {fd : Fd} {md : LockMode} {s l : ℕ} (hT : T .idx (slotOff h) ≠ none) :
    lend T fd md s l .idx (slotOff h) ≠ none := by
  unfold lend
  split
  · exact Option.some_ne_none md
  · exact hT

theorem lend_in {fd : Fd} {md : LockMode} {s l n : ℕ} (hn : InRange s l n) :
    lend T fd md s l fd n = some md := if_pos ⟨rfl, hn⟩

theorem dat_covers_nothing {s l : ℕ} : ¬ Covers .dat s l x := by
  cases x with
  | chain i => exact fun hc => Fd.noConfusion hc.1
  | free => exact fun hc => Fd.noConfusion hc.1
  | proc r => exact fun hc => hc

theorem tail_covers_nothing : ¬ Covers .idx recordsOff 0 x := by
  cases x with
  | chain i => exact fun hc => absurd hc.2.1 (Nat.not_le.mpr (slotOff_lt i.2))
  | free => exact fun hc => absurd hc.2.1 (Nat.not_le.mpr freeOff_lt)
  | proc r => exact fun hc => hc

theorem shared_writedat_end {Ψ : DB → Ghost ι → Prop} (hr : Rely p g₀ g) (hi : Inv S g)
    (seat : Seat p T own none g₀) (hT : T .idx (slotOff h) ≠ none) (hn : ∀ b, T .dat b = none)
    (hΨ : ∀ n g', Kept h g₀ g' → Inv S g' → Seat p T own (some n) g' →
      g'.img.blocks.lookup n = some d → Event.wrote p c .dat n (d.1 ++ [newline]) ∈ g'.trace →
      Ψ (wroteDat db n d.1) g') :
    Safe (protocol S) p c Ψ (dbWritedat db d.1 0 .fromEnd) g := by
  have hrange : InRange 0 0 0 := ⟨le_rfl, Or.inl rfl⟩
  rw [writedat_end_eq]
  refine shared_lock hr hi seat.locks (fun b _ => hn b) fun g₁ h₁ hi₁ _ hi₁' => ?_
  have seat₁ : Seat p (lend T .dat .write 0 0) own none (tookLock g₁ p .dat .write 0 0) :=
    (seat.stable h₁).tookLock
  refine safe_size (Rely.refl p _) hi₁' fun g₂ h₂ hi₂ => ?_
  refine safe_write h₂ hi₂ fun g₃ h₃ hi₃ => ?_
  have hlock : (tookLock g₁ p .dat .write 0 0).locks p .dat 0 = some .write := by
    rw [seat₁.locks]
    exact lend_in hrange
  have hguard : (tookLock g₁ p .dat .write 0 0).locks p .dat 0 ≠ none := by
    rw [hlock]
    exact Option.some_ne_none _
  -- Nobody else appends between the seek to the end and the write.
  have hend : ((protocol S).view g₂).files .dat = g₂.img.dat := rfl
  rw [hend, length_dat, h₂.datEnd hguard, ← h₃.datEnd hguard]
  refine ⟨addedBlock g₃ p c d, ?_, fun q hq => addedBlock_rely hi₃.toLayout ?_ hq, ?_⟩
  · change Shared.mk (g₃.img.addBlock d).files _ _ = _
    rw [← files_addBlock]
    rfl
  · rw [h₃.locks]
    exact hlock
  have seat₃ := seat₁.stable h₃
  refine shared_unlock (Rely.refl p _) (addedBlock_inv hi₃) fun g₄ h₄ hi₄ => ?_
  refine ⟨fun i => dat_covers_nothing, fun hc => absurd hc dat_covers_nothing, fun hi₅ => safe_ret ?_⟩
  have seat₃' : Seat p (lend T .dat .write 0 0) own (some g₃.img.datEnd) (addedBlock g₃ p c d) :=
    ⟨seat₃.locks, seat₃.own, addedBlock_pending_self⟩
  have seat₄ := seat₃'.stable h₄
  have hg₁ : Guards g₀ p (.chain h) := seat.guards hT
  have hg₃ : Guards (tookLock g₁ p .dat .write 0 0) p (.chain h) := seat₁.guards (lend_keeps hT)
  have hg₄ : Guards (addedBlock g₃ p c d) p (.chain h) := seat₃'.guards (lend_keeps hT)
  refine hΨ _ _ ?_ hi₅ (seat₄.released fun b _ => hn b) ?_ ?_
  · exact ((((rely_kept h₁ hg₁).trans tookLock_kept).trans (rely_kept h₃ hg₃)).trans
      (addedBlock_kept hi₃.toLayout)).trans ((rely_kept h₄ hg₄).trans released_kept)
  · exact (h₄.block _ addedBlock_pending_self).trans addedBlock_new
  · refine List.mem_append_left _ (h₄.grown.subset ?_)
    exact List.mem_append_right _ List.mem_cons_self

theorem shared_writeidx_end {Ψ : DB → Ghost ι → Prop} (hr : Rely p g₀ g) (hi : Inv S g)
    (seat : Seat p T own (some e.datoff) g₀) (hT : T .idx (slotOff h) ≠ none)
    (hn : ∀ b, recordsOff ≤ b → T .idx b = none) (hdo : db.datoff = e.datoff)
    (hdl : db.datlen = e.datlen) (hv : v ≤ ptrMax) (hd : g₀.img.blocks.lookup e.datoff = some d)
    (hlen : e.datlen = d.1.length + 1) (hok : S.ok e.key) (hsrc : Source S g₀.trace e.key d)
    (hΨ : ∀ n g', Kept h g₀ g' → Inv S g' → Seat p T [n] none g' →
      g'.img.recs.lookup n = some e → g'.img.ptr n = v → g'.img.blocks.lookup e.datoff = some d →
      Ψ (wroteIdx db e.key.1 n v) g') :
    Safe (protocol S) p c Ψ (dbWriteidx db e.key.1 0 .fromEnd v) g := by
  have hrange : InRange recordsOff 0 recordsOff := ⟨le_rfl, Or.inl rfl⟩
  have hn : ∀ b, InRange recordsOff 0 b → T .idx b = none := fun b hb => hn b hb.1
  rw [writeidx_end_eq db _ hv (entry_in_limits hdo hdl), recordBytes_entry hdo hdl]
  refine shared_lock hr hi seat.locks hn fun g₁ h₁ hi₁ _ hi₁' => ?_
  have seat₁ : Seat p (lend T .idx .write recordsOff 0) own (some e.datoff)
      (tookLock g₁ p .idx .write recordsOff 0) := (seat.stable h₁).tookLock
  refine safe_size (Rely.refl p _) hi₁' fun g₂ h₂ hi₂ => ?_
  refine safe_write h₂ hi₂ fun g₃ h₃ hi₃ => ?_
  have hlock : (tookLock g₁ p .idx .write recordsOff 0).locks p .idx recordsOff = some .write := by
    rw [seat₁.locks]
    exact lend_in hrange
  have hguard : (tookLock g₁ p .idx .write recordsOff 0).locks p .idx recordsOff ≠ none := by
    rw [hlock]
    exact Option.some_ne_none _
  have hend : ((protocol S).view g₂).files .idx = g₂.img.idx := rfl
  rw [hend, length_idx, h₂.idxEnd hguard, ← h₃.idxEnd hguard]
  have seat₃ := seat₁.stable h₃
  have hd₃ : g₃.img.blocks.lookup e.datoff = some d :=
    ((h₃.block _ seat₁.pending).trans (h₁.block _ seat.pending)).trans hd
  have hsrc₃ : Source S g₃.trace e.key d :=
    source_mono hsrc (h₁.grown.trans ((List.prefix_append _ _).trans h₃.grown))
  have hinv : Inv S (addedEntry g₃ p c e v hv) :=
    addedEntry_inv hi₃ seat₃.pending hd₃ hlen hok hsrc₃
  refine ⟨addedEntry g₃ p c e v hv, ?_, fun q hq => addedEntry_rely hi₃.toLayout ?_ hq, ?_⟩
  · change Shared.mk (g₃.img.addEntry e v hv).files _ _ = _
    rw [← files_addEntry]
    rfl
  · rw [h₃.locks]
    exact hlock
  refine shared_unlock (Rely.refl p _) hinv fun g₄ h₄ hi₄ => ?_
  refine ⟨fun i => tail_covers_nothing, fun hc => absurd hc tail_covers_nothing,
    fun hi₅ => safe_ret ?_⟩
  have seat₃' : Seat p (lend T .idx .write recordsOff 0) [g₃.img.idxEnd] none
      (addedEntry g₃ p c e v hv) :=
    ⟨seat₃.locks, addedEntry_list_self, addedEntry_pending_self⟩
  have hg₁ : Guards g₀ p (.chain h) := seat.guards hT
  have hg₃ : Guards (tookLock g₁ p .idx .write recordsOff 0) p (.chain h) :=
    seat₁.guards (lend_keeps hT)
  have hg₄ : Guards (addedEntry g₃ p c e v hv) p (.chain h) := seat₃'.guards (lend_keeps hT)
  have hmine : g₃.img.idxEnd ∈ (addedEntry g₃ p c e v hv).list (.proc p) := by
    rw [addedEntry_list_self]
    exact List.mem_cons_self
  have hsame := h₄.same (.proc p) rfl _ hmine
  refine hΨ _ _ ?_ hi₅ ((seat₃'.stable h₄).released hn) (hsame.entry.trans addedEntry_new)
    (hsame.ptr.trans addedEntry_new_ptr) ?_
  · exact ((((rely_kept h₁ hg₁).trans tookLock_kept).trans (rely_kept h₃ hg₃)).trans
      (addedEntry_kept hi₃.toLayout)).trans ((rely_kept h₄ hg₄).trans released_kept)
  · exact (hsame.block e addedEntry_new).trans hd₃

end Appending

end DbSharedCalls
