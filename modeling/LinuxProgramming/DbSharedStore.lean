import LinuxProgramming.DbSharedDelete

/-! # Storing among other processes

A store that needs a record takes one off the free list or appends one. Until the record is
linked in front of its chain it belongs to the storing process alone, so it may be filled
without the lock of the free list. -/
namespace DbSharedStore

set_option linter.unusedSectionVars false

open CStrings ByteFiles SyscallPrograms RelyGuarantee LinkedChains DbLibrary DbImage DbRecords
  DbLists DbInvariant DbOperations DbStore DbRefinement DbShared DbSharedSteps DbSharedCalls
  DbSharedFind DbSharedDelete

variable {ι : Type} [DecidableEq ι] {S : Setting ι} {g₀ g : Ghost ι} {p : ι} {c : Call} {db : DB}
  {h : Fin nhash} {k d : CString} {fuel o : ℕ} {e : Entry} {flag : ℤ} {M m : KeyMap}

/-! ## Taking a record off the free list -/

theorem shared_findfreeLoop {Ψ : ℤ × ℤ × DB → Ghost ι → Prop} {free : List ℕ} {cf : ℤ}
    {keylen datlen : ℕ} (hg : Guards g₀ p .free) (hlist : g₀.list .free = free)
    (hfl : FreeOK g₀.img free)
    (hfound : ∀ g₁, Rely p g₀ g₁ → Inv S g₁ → ∀ (l₁ : List ℕ) (o : ℕ) (l₂ : List ℕ) (e : Entry)
      (db' : DB), free = l₁ ++ o :: l₂ → g₀.img.recs.lookup o = some e →
      e.key.1.length = keylen → e.datlen = datlen → Names db' g₀.img o e → db'.chainoff = cf →
      Ψ (o, l₁.getLastD freeOff, db') g₁)
    (hnone : ∀ g₁, Rely p g₀ g₁ → Inv S g₁ → ∀ (so : ℤ) (db' : DB), db'.chainoff = cf →
      Ψ (0, so, db') g₁)
    (l₁ l₂ : List ℕ) (hos : free = l₁ ++ l₂) (fuel : ℕ) (db : DB) (hf : l₂.length ≤ fuel)
    (hcf : db.chainoff = cf) (hr : Rely p g₀ g) (hi : Inv S g) :
    Safe (protocol S) p c Ψ (findfreeLoop keylen datlen fuel db (l₁.getLastD freeOff)
      (g₀.img.ptr (l₁.getLastD freeOff))) g := by
  induction l₂ generalizing l₁ fuel db g with
  | nil =>
    rw [List.append_nil] at hos
    have hlink : Linked g₀.img.ptr freeOff l₁ := hos ▸ hfl.linked
    rw [path_last hlink]
    cases fuel with
    | zero => exact safe_if_pos rfl (safe_ret (hnone g hr hi _ db hcf))
    | succ fuel => exact safe_if_pos rfl (safe_ret (hnone g hr hi _ db hcf))
  | cons o l₂ ih =>
    obtain ⟨n, rfl⟩ : ∃ n, fuel = n + 1 := ⟨fuel - 1, by simp only [List.length_cons] at hf; omega⟩
    have hlink := hfl.linked
    rw [hos] at hlink
    obtain ⟨hpre, hne, -⟩ := path_append.mp hlink
    have ho : o ∈ free := by simp [hos]
    obtain ⟨e, -, he, -⟩ := hfl.entry o ho
    have hcstr : cstr (readBack { db with idxpos := o } (g₀.img.ptr o) e).idxbuf = e.key.1 :=
      cstr_parsed e
    rw [path_last hpre]
    apply safe_if_neg (by omega)
    apply safe_bind
    refine shared_readidx hr hi hg (by rwa [hlist]) he fun g₁ h₁ hi₁ => ?_
    apply safe_ite
    · rintro ⟨hk, hd⟩
      rw [hcstr] at hk
      apply safe_ret
      exact hfound g₁ h₁ hi₁ l₁ o l₂ e _ hos he hk hd
        (names_readBack { db with idxpos := o } g₀.img e) hcf
    · intro _
      have hnext := ih (l₁ ++ [o]) (by simp [hos]) n
        (readBack { db with idxpos := o } (g₀.img.ptr o) e)
        (by simp only [List.length_cons] at hf; omega) hcf h₁ hi₁
      rw [List.getLastD_concat] at hnext
      exact hnext

/-- A record in the hands of the process, with a blank key of the right length. -/
structure Taken (p : ι) (e : Entry) (o : ℕ) (g : Ghost ι) : Prop where
  entry : g.img.recs.lookup o = some e
  blank : isBlank e.key.1 = true
  near : o ≤ ptrMax

theorem shared_unlinkFree {Ψ : DB → Ghost ι → Prop} {l₁ l₂ : List ℕ} (hr : Rely p g₀ g)
    (hi : Inv S g) (seat : Seat p (withFree h) [] none g₀)
    (hf : FreeOK g₀.img (g₀.list .free)) (hvic : g₀.victim = none)
    (hos : g₀.list .free = l₁ ++ o :: l₂) (he : g₀.img.recs.lookup o = some e)
    (hΨ : ∀ g' db', Kept h g₀ g' → Seat p (withFree h) [o] none g' → Inv S g' →
      FreeOK g'.img (g'.list .free) → g'.victim = none → Taken p e o g' →
      db'.idxoff = db.idxoff → db'.datoff = db.datoff → db'.chainoff = db.chainoff → Ψ db' g') :
    Safe (protocol S) p c Ψ (dbWriteptr db (l₁.getLastD freeOff : ℕ) (g₀.img.ptr o)) g := by
  have hfree := guards_of_excl (seat_exclFree seat)
  have hchain := guards_of_excl (seat_exclChain seat)
  have hmem : o ∈ g₀.list .free := by simp [hos]
  have hnd := linked_nodup hf.linked
  refine shared_writeptr hr hi (g₀.img.ptr_le o) fun g₁ h₁ hi₁ => ?_
  have seat₁ := seat.stable h₁
  have hlist : g₁.list .free = l₁ ++ o :: l₂ := (h₁.list _ hfree).trans hos
  have hf₁ := freeOK_stable h₁ hfree hf
  have hmem₁ : o ∈ g₁.list .free := by simp [hlist]
  have hsame := h₁.same _ hfree o hmem
  have he₁ := hsame.entry.trans he
  rw [hos] at hnd
  have hcell : l₁.getLastD freeOff ∈ g₁.cells .free := pred_mem_cells rfl hlist
  have hne : (.free : Owner ι) ≠ .proc p := by simp
  have hmoves : Moves g₁ p (moveRec g₁ .free (.proc p) (l₁ ++ l₂) o) := by
    refine moves_moveRec hi₁.toLayout (seat_exclFree seat₁) rfl hmem₁ hne fun z hz => ?_
    rw [hlist]
    exact mem_remove hnd hz
  refine ⟨.free, _, hcell, seat_exclFree seat₁, hmoves, fun hi₂ => ?_⟩
  have hown : moveRec g₁ .free (.proc p) (l₁ ++ l₂) o (.proc p) = [o] := by
    rw [moveRec_to, seat₁.own]
  have hrest : moveRec g₁ .free (.proc p) (l₁ ++ l₂) o .free = l₁ ++ l₂ := moveRec_from hne
  refine hΨ _ _ ?_ ⟨seat₁.locks, hown, seat₁.pending⟩ hi₂ ?_ ((h₁.victim hfree).trans hvic) ?_
    rfl rfl rfl
  · refine (rely_kept h₁ hchain).trans (wrote_kept hi₁ hcell (by simp) (localTo_setPtr _) ?_)
    exact moveRec_other (by simp) (by simp)
  · change FreeOK _ (moveRec g₁ .free (.proc p) (l₁ ++ l₂) o .free)
    rw [hlist] at hf₁
    rw [hrest]
    refine freeOK_remove hf₁ ?_ (fun z _ hz => ?_) (fun _ _ => rfl) fun _ _ _ _ => rfl
    · exact (setPtr_ptr_self (g₀.img.ptr_le o)).trans hsame.ptr.symm
    · exact setPtr_ptr_other (g₀.img.ptr_le o) hz
  · obtain ⟨a, -, ha, hb, -⟩ := hf.entry o hmem
    obtain rfl : e = a := Option.some.inj (he.symm.trans ha)
    exact ⟨he₁, hb, linked_le_ptrMax hf.linked hmem⟩

theorem shared_findfree {Ψ : ℤ × DB → Ghost ι → Prop} {keylen datlen : ℕ} (hr : Rely p g₀ g)
    (hi : Inv S g) (w : Working p h [] none M m g₀) (hf : ptrMax ≤ fuel)
    (hfound : ∀ (o : ℕ) (e : Entry) (g' : Ghost ι) (db' : DB), Working p h [o] none M m g' →
      Inv S g' → Kept h g₀ g' → Taken p e o g' → e.key.1.length = keylen → e.datlen = datlen → db'.idxoff = o →
      db'.datoff = e.datoff → db'.chainoff = db.chainoff → Ψ (0, db') g')
    (hnone : ∀ (g' : Ghost ι) (db' : DB), Working p h [] none M m g' → Inv S g' → Kept h g₀ g' →
      db'.chainoff = db.chainoff → Ψ (-1, db') g') :
    Safe (protocol S) p c Ψ (dbFindfree fuel db keylen datlen) g := by
  unfold dbFindfree
  refine shared_withFree hr hi w.seat fun g₁ hk seat hfl hvic hi₁ => ?_
  have hguard := guards_of_excl (seat_exclFree seat)
  have hchain := guards_of_excl (seat_exclChain seat)
  apply safe_bind
  refine shared_readptr (Rely.refl p _) hi₁ hguard List.mem_cons_self fun g₂ h₂ hi₂ => ?_
  apply safe_bind
  refine shared_findfreeLoop hguard rfl hfl ?_ ?_ [] _ rfl fuel _
    ((linked_length_le hfl.linked).trans hf) (rfl : _ = db.chainoff) h₂ hi₂
  · intro g₃ h₃ hi₃ l₁ o l₂ e db' hos he hkl hdl hn hcf
    have hne := entry_ne_zero he
    apply safe_if_neg (by omega)
    apply safe_bind
    rw [hn.ptrval]
    refine shared_unlinkFree h₃ hi₃ seat hfl hvic hos he
      fun g₄ db₄ hk₄ seat₄ hi₄ hf₄ hvic₄ htk hio hdo hcf₄ => ?_
    apply safe_ret
    refine ⟨hi₄, [o], none, seat₄, hf₄, hvic₄, fun g₅ hk₅ seat₅ hi₅ hsame => ?_⟩
    have hkept := (hk.trans hk₄).trans hk₅
    have hs := hsame o List.mem_cons_self
    exact hfound o e g₅ db₄ (w.kept hkept seat₅) hi₅ hkept
      ⟨hs.entry.trans htk.entry, htk.blank, htk.near⟩ hkl hdl (hio.trans hn.idxoff)
      (hdo.trans hn.datoff) (hcf₄.trans hcf)
  · intro g₃ h₃ hi₃ so db' hcf
    apply safe_if_pos rfl
    apply safe_ret
    refine ⟨hi₃, [], none, seat.stable h₃, freeOK_stable h₃ hguard hfl, (h₃.victim hguard).trans hvic,
      fun g₄ hk₄ seat₄ hi₄ _ => ?_⟩
    have hkept := (hk.trans (rely_kept h₃ hchain)).trans hk₄
    exact hnone g₄ db' (w.kept hkept seat₄) hi₄ hkept hcf

/-! ## Linking a record -/

theorem content_update {I J : Image} {os os' : List ℕ} (hm : Content I h os m)
    (hh : ∀ k' d', Holds J os' k' d' ↔ (k' = k ∧ d' = d) ∨ (k' ≠ k ∧ Holds I os k' d')) :
    Content J h os' (Function.update m k (some d)) := by
  intro k' d' hk'
  rw [hh]
  by_cases hk : k' = k
  · subst k'
    simp [eq_comm]
  · simp [hk, hm k' d' hk']

theorem content_absent {I : Image} {os : List ℕ} (hm : Content I h os m) (hb : BlocksOK I)
    (hk : m k = none) (hh : hashOf k = h) :
    ∀ x ∈ os, ∀ a, I.recs.lookup x = some a → a.key ≠ k := by
  rintro x hx a ha rfl
  obtain ⟨d, hd, -⟩ := hb.block x a ha
  have hsome := (hm a.key d (congrArg Fin.val hh)).mpr ⟨x, hx, a, ha, rfl, hd⟩
  rw [hk] at hsome
  cases hsome

theorem chainOff_eq (k : CString) : chainOff k.1 = slotOff (hashOf k) := rfl

/-- The write that puts a record of the process first on its chain. -/
theorem shared_push {Ψ : DB → Ghost ι → Prop} (hr : Rely p g₀ g) (hi : Inv S g)
    (w : Working p h [o] none M m g₀) (ho : o ≤ ptrMax) (he : g₀.img.recs.lookup o = some e)
    (hkey : hashOf e.key = h) (hd : g₀.img.blocks.lookup e.datoff = some d)
    (hp : g₀.img.ptr o = g₀.img.ptr (slotOff h)) (hm : m e.key = none)
    (hΨ : ∀ g' db', Working p h [] none M (Function.update m e.key (some d)) g' → Inv S g' →
      db'.chainoff = db.chainoff → Ψ db' g') :
    Safe (protocol S) p c Ψ (dbWriteptr db (slotOff h : ℕ) o) g := by
  refine shared_writeptr hr hi ho fun g₁ h₁ hi₁ => ?_
  have w₁ := w.stable h₁
  have hsame := h₁.same (.proc p) rfl o w.mine
  have he₁ := hsame.entry.trans he
  have hd₁ := (hsame.block e he).trans hd
  have hne : (.proc p : Owner ι) ≠ .chain h := by simp
  have hslot : o ≠ slotOff h := entry_ne_head he (slotOff_lt h.2)
  have habs := content_absent w₁.content hi₁.blocks hm hkey
  have hJ : LocalTo g₁.img (g₁.img.setPtr (slotOff h) o ho) (slotOff h) := localTo_setPtr ho
  have hrec : ∀ x ∈ g₁.list (.chain h), SameRec g₁.img (g₁.img.setPtr (slotOff h) o ho) x := by
    intro x hx
    obtain ⟨a, ha⟩ := hi₁.present _ _ hx
    exact hJ.sameRec hi₁.blocks (entry_ne_head ha (slotOff_lt h.2))
  have hlist : moveRec g₁ (.proc p) (.chain h) [] o (.chain h) = o :: g₁.list (.chain h) :=
    moveRec_to
  have hown : moveRec g₁ (.proc p) (.chain h) [] o (.proc p) = [] := moveRec_from hne
  refine ⟨.chain h, moveRec g₁ (.proc p) (.chain h) [] o, List.mem_cons_self, w₁.excl, ?_,
    fun hi₂ => hΨ _ _ ⟨⟨w₁.seat.locks, hown, w₁.seat.pending⟩, ?_, ?_, w₁.map⟩ hi₂ rfl⟩
  · exact moves_moveRec hi₁.toLayout rfl w₁.excl w₁.mine hne fun z hz => by cases hz
  · change ChainOK _ h (moveRec g₁ (.proc p) (.chain h) [] o (.chain h))
    rw [hlist]
    refine chainOK_push w₁.chain (setPtr_ptr_self ho) ?_ (fun x hx => (hrec x hx).ptr)
      (fun x hx => (hrec x hx).entry) he₁ (congrArg Fin.val hkey) habs
    refine (setPtr_ptr_other ho hslot).trans (hsame.ptr.trans (hp.trans ?_))
    exact (h₁.ptr _ w.guards _ List.mem_cons_self).symm
  · change Content _ h (moveRec g₁ (.proc p) (.chain h) [] o (.chain h)) _
    rw [hlist]
    exact content_update w₁.content fun k' d' => holds_push he₁ hd₁ hrec habs

theorem shared_storeAppend {Ψ : DB → Ghost ι → Prop} (hc : c = .store k d flag)
    (hr : Rely p g₀ g) (hi : Inv S g) (w : Working p (hashOf k) [] none M m g₀) (hm : m k = none)
    (hd : d.1.length + 1 ≤ datlenMax) (hok : S.ok k) (hcf : db.chainoff = chainOff k.1)
    (hΨ : ∀ g' db', Working p (hashOf k) [] none M (Function.update m k (some d)) g' → Inv S g' →
      db'.chainoff = db.chainoff → Ψ db' g') :
    Safe (protocol S) p c Ψ (storeAppend db k.1 d.1 (g₀.img.ptr (slotOff (hashOf k)))) g := by
  subst hc
  have hv := g₀.img.ptr_le (slotOff (hashOf k))
  unfold storeAppend
  apply safe_bind
  refine shared_writedat_end hr hi w.seat only_ne_none only_dat
    fun n g₁ hk₁ hi₁ seat₁ hd₁ hev => ?_
  have w₁ := w.kept hk₁ seat₁
  apply safe_bind
  by_cases hf : FitsIndex k n d
  · have hsrc : Source S g₁.trace k d := Or.inr ⟨p, flag, n, hev⟩
    refine shared_writeidx_end (e := newEntry k n d hd hf) (Rely.refl p _) hi₁ seat₁ only_ne_none
      (fun b hb => only_tail hb) rfl rfl hv hd₁ rfl hok hsrc
      fun o g₂ hk₂ hi₂ seat₂ he₂ hp₂ hd₂ => ?_
    have w₂ := w₁.kept hk₂ seat₂
    change Safe (protocol S) p _ _ (dbWriteptr _ db.chainoff (o : ℕ)) g₂
    rw [hcf, chainOff_eq]
    by_cases ho : o ≤ ptrMax
    · refine shared_push (e := newEntry k n d hd hf) (Rely.refl p _) hi₂ w₂ ho he₂ rfl hd₂ ?_ hm
        fun g₃ db' w₃ hi₃ hcf₃ => hΨ g₃ db' w₃ hi₃ hcf₃
      exact hp₂.trans ((hk₁.trans hk₂).ptr).symm
    · rw [writeptr_long _ _ (by omega)]
      exact safe_abort ⟨⟨k, d, flag, rfl⟩, Or.inr (Or.inl rfl)⟩
  · rw [writeidx_long _ _ _ _ hv]
    · exact safe_abort ⟨⟨k, d, flag, rfl⟩, Or.inl rfl⟩
    · change _ < idxlenMin ∨ idxlenMax < (entryText k.1 n (d.1.length + 1)).length
      unfold FitsIndex at hf
      change (entryText k.1 n (d.1.length + 1)).length < idxlenMin ∨ _
      omega

/-! ## Filling a record that the process has taken off the free list -/

theorem shared_fillData {Ψ : DB → Ghost ι → Prop} (hr : Rely p g₀ g) (hi : Inv S g)
    (w : Working p h [o] none M m g₀) (ht : Taken p e o g₀) (hdl : e.datlen = d.1.length + 1)
    (hΨ : ∀ g', Working p h [o] none M m g' → Inv S g' → Kept h g₀ g' → Taken p e o g' →
      g'.img.blocks.lookup e.datoff = some d →
      Event.wrote p c .dat e.datoff (d.1 ++ [newline]) ∈ g'.trace →
      Ψ (wroteDat db e.datoff d.1) g') :
    Safe (protocol S) p c Ψ (dbWritedat db d.1 e.datoff .set) g := by
  refine shared_writedat_set hr hi fun g₁ h₁ hi₁ => ?_
  have w₁ := w.stable h₁
  have he₁ := (h₁.same (.proc p) rfl o w.mine).entry.trans ht.entry
  obtain ⟨d₀, hd₀, hl₀⟩ := hi₁.blocks.block o e he₁
  refine ⟨.proc p, o, e, d₀, g₁.victim, w₁.mine, rfl, he₁, hd₀, rfl, by omega, Or.inl rfl,
    fun _ hb => ?_, fun hs hi₂ => ?_⟩
  · rw [ht.blank] at hb
    cases hb
  · have hk : Kept h g₁ (wrote g₁ p c .dat e.datoff (d.1 ++ [newline])
        (g₁.img.setBlock e.datoff d hs) g₁.list g₁.victim) :=
      wrote_kept hi₁ (mem_cells_of_list w₁.mine) (by simp) (localTo_setBlock he₁ hd₀ hs) rfl
    refine hΨ _ (w₁.kept hk ⟨w₁.seat.locks, w₁.seat.own, w₁.seat.pending⟩) hi₂
      ((rely_kept h₁ w.guards).trans hk) ⟨he₁, ht.blank, ht.near⟩ (setBlock_lookup_self hd₀ hs) ?_
    exact List.mem_append_right _ List.mem_cons_self

theorem shared_fillEntry {Ψ : DB → Ghost ι → Prop} {v : ℕ} (hr : Rely p g₀ g) (hi : Inv S g)
    (w : Working p h [o] none M m g₀) (ht : Taken p e o g₀)
    (hkl : k.1.length = e.key.1.length) (hdo : db.datoff = e.datoff) (hdl : db.datlen = e.datlen)
    (hok : S.ok k) (hv : v ≤ ptrMax) (hd : g₀.img.blocks.lookup e.datoff = some d)
    (hsrc : Source S g₀.trace k d)
    (hΨ : ∀ g', Working p h [o] none M m g' → Inv S g' → Kept h g₀ g' →
      g'.img.recs.lookup o = some (withKey e k hkl) → g'.img.ptr o = v →
      g'.img.blocks.lookup e.datoff = some d → Ψ (wroteIdx db k.1 o v) g') :
    Safe (protocol S) p c Ψ (dbWriteidx db k.1 o .set v) g := by
  have hshape : SameShape e (withKey e k hkl) := ⟨rfl, rfl, hkl⟩
  refine shared_writeidx_set (withKey e k hkl) hr hi hdo hdl hv fun g₁ h₁ hi₁ => ?_
  have w₁ := w.stable h₁
  have hsame := h₁.same (.proc p) rfl o w.mine
  have he₁ := hsame.entry.trans ht.entry
  have hd₁ := (hsame.block e ht.entry).trans hd
  refine ⟨.proc p, e, g₁.list, g₁.victim, w₁.mine, rfl, he₁, hshape, moves_same hi₁.toLayout,
    Or.inl rfl, Or.inr ht.blank, S.clean k hok, fun _ => Or.inr hok, fun d' _ hd' => ?_,
    fun hs hi₂ => ?_⟩
  · obtain rfl : d = d' := Option.some.inj (hd₁.symm.trans hd')
    exact source_mono hsrc h₁.grown
  · have hk : Kept h g₁ (wrote g₁ p c .idx o ((withKey e k hkl).bytes v)
        ((g₁.img.setEntry o (withKey e k hkl) hs).setPtr o v hv) g₁.list g₁.victim) :=
      wrote_kept hi₁ (mem_cells_of_list w₁.mine) (by simp) (localTo_setEntry he₁ hshape hs hv) rfl
    exact hΨ _ (w₁.kept hk ⟨w₁.seat.locks, w₁.seat.own, w₁.seat.pending⟩) hi₂
      ((rely_kept h₁ w.guards).trans hk) (setEntry_lookup_self he₁ hs) (setPtr_ptr_self hv) hd₁

theorem shared_storeReuse {Ψ : DB → Ghost ι → Prop} (hc : c = .store k d flag)
    (hr : Rely p g₀ g) (hi : Inv S g) (w : Working p (hashOf k) [o] none M m g₀)
    (ht : Taken p e o g₀) (hkl : k.1.length = e.key.1.length) (hdl : e.datlen = d.1.length + 1)
    (hm : m k = none) (hok : S.ok k) (hio : db.idxoff = o) (hdo : db.datoff = e.datoff)
    (hcf : db.chainoff = chainOff k.1)
    (hΨ : ∀ g' db', Working p (hashOf k) [] none M (Function.update m k (some d)) g' → Inv S g' →
      db'.chainoff = db.chainoff → Ψ db' g') :
    Safe (protocol S) p c Ψ (storeReuse db k.1 d.1 (g₀.img.ptr (slotOff (hashOf k)))) g := by
  subst hc
  have hv := g₀.img.ptr_le (slotOff (hashOf k))
  unfold storeReuse
  apply safe_bind
  rw [hdo]
  refine shared_fillData hr hi w ht hdl fun g₁ w₁ hi₁ hk₁ ht₁ hd₁ hev => ?_
  change Safe (protocol S) p _ _ (dbWriteidx _ _ db.idxoff _ _ >>= _) _
  rw [hio]
  apply safe_bind
  refine shared_fillEntry (Rely.refl p _) hi₁ w₁ ht₁ hkl rfl hdl.symm hok hv hd₁
    (Or.inr ⟨p, flag, e.datoff, hev⟩) fun g₂ w₂ hi₂ hk₂ he₂ hp₂ hd₂ => ?_
  change Safe (protocol S) p _ _ (dbWriteptr _ db.chainoff (o : ℕ)) _
  rw [hcf, chainOff_eq]
  refine shared_push (e := withKey e k hkl) (Rely.refl p _) hi₂ w₂ ht.near he₂ rfl hd₂ ?_ hm
    fun g₃ db' w₃ hi₃ hcf₃ => hΨ g₃ db' w₃ hi₃ hcf₃
  exact hp₂.trans (hk₁.trans hk₂).ptr.symm

/-! ## The whole call -/

theorem shared_storeAbsent {Ψ : ℤ × DB → Ghost ι → Prop} (hc : c = .store k d flag)
    (hr : Rely p g₀ g) (hi : Inv S g) (w : Working p (hashOf k) [] none M M g₀) (hm : M k = none)
    (hf : ptrMax ≤ fuel) (hd : d.1.length + 1 ≤ datlenMax) (hok : S.ok k)
    (hcf : db.chainoff = chainOff k.1) (hvalid : ValidFlag flag)
    (hΨ : ∀ (g' : Ghost ι) (db' : DB), Working p (hashOf k) [] none M (storeMap M k d flag) g' →
      Inv S g' → db'.chainoff = chainOff k.1 → Ψ (storeRc M k flag, db') g') :
    Safe (protocol S) p c Ψ (storeAbsent fuel db k.1 d.1 flag) g := by
  unfold storeAbsent
  apply safe_ite
  · intro hflag
    have hrc : storeRc M k flag = -1 := by simp [storeRc, hm, hflag]
    rw [storeMap, hrc] at hΨ
    exact safe_ret (hΨ g _ (w.stable hr) hi hcf)
  intro hflag
  have hrc : storeRc M k flag = 0 := by simp [storeRc, hvalid, hm, hflag]
  rw [storeMap, hrc, if_pos rfl] at hΨ
  apply safe_bind
  rw [hcf, chainOff_eq]
  refine shared_readptr hr hi w.guards List.mem_cons_self fun g₁ h₁ hi₁ => ?_
  have w₁ := w.stable h₁
  have hslot := h₁.ptr _ w.guards (slotOff (hashOf k)) List.mem_cons_self
  apply safe_bind
  refine shared_findfree (Rely.refl p _) hi₁ w₁ hf ?_ ?_
  · intro o e g₂ db₂ w₂ hi₂ hk₂ ht hkl hdl hio hdo hcf₂
    apply safe_if_neg (by decide)
    apply safe_bind
    rw [← hslot, ← hk₂.ptr]
    refine shared_storeReuse hc (Rely.refl p _) hi₂ w₂ ht hkl.symm hdl hm hok hio hdo
      (hcf₂.trans hcf) fun g₃ db₃ w₃ hi₃ hcf₃ => ?_
    apply safe_ret
    exact hΨ g₃ _ w₃ hi₃ (hcf₃.trans (hcf₂.trans hcf))
  · intro g₂ db₂ w₂ hi₂ hk₂ hcf₂
    apply safe_if_pos (by decide)
    apply safe_bind
    rw [← hslot, ← hk₂.ptr]
    refine shared_storeAppend hc (Rely.refl p _) hi₂ w₂ hm hd hok (hcf₂.trans hcf)
      fun g₃ db₃ w₃ hi₃ hcf₃ => ?_
    apply safe_ret
    exact hΨ g₃ _ w₃ hi₃ (hcf₃.trans (hcf₂.trans hcf))

theorem shared_overwrite {Ψ : DB → Ghost ι → Prop} (hc : c = .store e.key d flag)
    (hr : Rely p g₀ g) (hi : Inv S g) (w : Working p h [] none M m g₀)
    (ho : o ∈ g₀.list (.chain h)) (he : g₀.img.recs.lookup o = some e)
    (hdl : e.datlen = d.1.length + 1)
    (hΨ : ∀ g', Working p h [] none M (Function.update m e.key (some d)) g' → Inv S g' →
      Ψ (wroteDat db e.datoff d.1) g') :
    Safe (protocol S) p c Ψ (dbWritedat db d.1 e.datoff .set) g := by
  refine shared_writedat_set hr hi fun g₁ h₁ hi₁ => ?_
  have w₁ := w.stable h₁
  have hlist := h₁.list _ w.guards
  have ho₁ : o ∈ g₁.list (.chain h) := by rwa [hlist]
  have he₁ := (h₁.same _ w.guards o ho).entry.trans he
  obtain ⟨d₀, hd₀, hl₀⟩ := hi₁.blocks.block o e he₁
  refine ⟨.chain h, o, e, d₀, g₁.victim, ho₁, w₁.excl, he₁, hd₀, rfl, by omega, Or.inl rfl,
    fun _ _ => ⟨flag, hc⟩, fun hs hi₂ => ?_⟩
  have hJ := localTo_setBlock he₁ hd₀ hs
  refine hΨ _ ⟨⟨w₁.seat.locks, w₁.seat.own, w₁.seat.pending⟩, ?_, ?_, w₁.map⟩ hi₂
  · exact ⟨w₁.chain.linked, w₁.chain.entry, w₁.chain.keys⟩
  · refine content_update w₁.content fun k' d' => ?_
    refine holds_overwrite w₁.chain ho₁ he₁ (fun _ _ => rfl) (setBlock_lookup_self hd₀ hs) ?_
    exact fun x _ hx a ha => (hJ.sameRec hi₁.blocks hx).block a ha

theorem shared_storePresent {Ψ : ℤ × DB → Ghost ι → Prop} {l₁ l₂ : List ℕ}
    (hc : c = .store k d flag) (hr : Rely p g₀ g) (hi : Inv S g)
    (w : Working p (hashOf k) [] none M M g₀) (hd : d.1.length + 1 ≤ datlenMax)
    (hos : g₀.list (.chain (hashOf k)) = l₁ ++ o :: l₂) (he : g₀.img.recs.lookup o = some e)
    (hk : e.key = k) (hn : Names db g₀.img o e)
    (hp : db.ptroff = l₁.getLastD (slotOff (hashOf k))) (hok : S.ok k)
    (hcf : db.chainoff = chainOff k.1) (hvalid : ValidFlag flag)
    (hΨ : ∀ (g' : Ghost ι) (db' : DB), Working p (hashOf k) [] none M (storeMap M k d flag) g' →
      Inv S g' → db'.chainoff = chainOff k.1 → Ψ (storeRc M k flag, db') g') :
    Safe (protocol S) p c Ψ (storePresent db k.1 d.1 flag) g := by
  have ho : o ∈ g₀.list (.chain (hashOf k)) := by simp [hos]
  have hsame := hr.same _ w.guards o ho
  obtain ⟨d₀, hd₀, hl₀⟩ := hi.blocks.block o e (hsame.entry.trans he)
  have hm : M k = some d₀ :=
    (w.content k d₀ rfl).mpr ⟨o, ho, e, he, hk, (hsame.block e he).symm.trans hd₀⟩
  unfold storePresent
  apply safe_ite
  · intro hflag
    have hrc : storeRc M k flag = 1 := by
      rw [storeRc, if_neg (not_not_intro hvalid), hm]
      exact if_pos hflag
    rw [storeMap, hrc] at hΨ
    exact safe_ret (hΨ g _ (w.stable hr) hi hcf)
  intro hflag
  have hrc : storeRc M k flag = 0 := by simp [storeRc, hvalid, hm, hflag]
  rw [storeMap, hrc, if_pos rfl] at hΨ
  apply safe_ite
  · intro _
    apply safe_bind
    refine shared_dodelete hr hi w hos he hn hp fun g₁ db₁ w₁ hi₁ hcf₁ => ?_
    rw [hk] at w₁
    have hset : Function.update (Function.update M k none) k (some d) =
        Function.update M k (some d) := Function.update_idem _ _ _
    apply safe_bind
    rw [hcf₁, hcf, chainOff_eq]
    refine shared_readptr (Rely.refl p _) hi₁ w₁.guards List.mem_cons_self fun g₂ h₂ hi₂ => ?_
    apply safe_bind
    refine shared_storeAppend hc h₂ hi₂ w₁ (Function.update_self _ _ _) hd hok (hcf₁.trans hcf)
      fun g₃ db₃ w₃ hi₃ hcf₃ => ?_
    rw [hset] at w₃
    apply safe_ret
    exact hΨ g₃ _ w₃ hi₃ (hcf₃.trans (hcf₁.trans hcf))
  · intro hlen
    rw [hn.datlen] at hlen
    apply safe_bind
    rw [hn.datoff]
    refine shared_overwrite (hk ▸ hc) hr hi w ho he (by omega) fun g₁ w₁ hi₁ => ?_
    rw [hk] at w₁
    apply safe_ret
    exact hΨ g₁ _ w₁ hi₁ hcf

theorem not_validFlag {flag : ℤ}
    (h : flag ≠ dbInsert ∧ flag ≠ dbReplace ∧ flag ≠ dbStoreFlag) : ¬ ValidFlag flag := by
  rintro (hf | hf | hf)
  · exact h.1 hf
  · exact h.2.1 hf
  · exact h.2.2 hf

theorem shared_refused (hns : ¬ S.scans p) (hflag : ¬ ValidFlag flag) (hi : Inv S g)
    (hrest : Resting S p db g) :
    Completes (protocol S) p (.store k d flag) (.status (-1), db) g := by
  have hrc : storeRc g.map k flag = -1 := by rw [storeRc, if_pos hflag]
  have hmap : storeMap g.map k d flag = g.map := by rw [storeMap, hrc, if_neg (by decide)]
  refine ⟨noted g (.returned p (.store k d flag) (.status (-1))), rfl,
    fun q hq => noted_rely (quietly_other rfl hq), ?_, ?_⟩
  · refine ⟨noted_layout hi.toLayout, traceOK_returned (.store k d flag) hi.trace rfl rfl ?_
      hmap.symm fun htl => absurd htl hflag⟩
    change _ = Result.status (storeRc g.map k flag)
    rw [hrc]
  · exact ⟨hrest.locks, hrest.own, hrest.pending, fun hs => absurd hs hns⟩

theorem shared_store (hns : ¬ S.scans p) (hf : ptrMax ≤ fuel) (hok : S.ok k) (hi : Inv S g)
    (hrest : Resting S p db g) :
    CallSafe (protocol S) p (.store k d flag) (exec fuel (.store k d flag) db) g := by
  have seat : Seat p unlocked [] none g := ⟨hrest.locks, hrest.own, hrest.pending⟩
  apply safe_bind
  unfold dbStore
  apply safe_ite
  · intro hflag
    exact safe_ret (safe_ret (shared_refused hns (not_validFlag hflag) hi hrest))
  intro hvalid
  have hvalid : ValidFlag flag := by
    unfold ValidFlag
    tauto
  apply safe_ite
  · exact fun _ => safe_abort ⟨⟨k, d, flag, rfl⟩, Or.inr (Or.inr rfl)⟩
  intro hdat
  have hd : d.1.length + 1 ≤ datlenMax := by omega
  apply safe_bind
  refine shared_findAndLock (Rely.refl p g) hi seat hf ?_ ?_
  · intro g₁ g₂ held h₂ hi₂ l₁ o l₂ e db' hos he hk hn hp hcf
    apply safe_bind
    apply safe_if_neg (by decide)
    refine shared_storePresent rfl h₂ hi₂ (Held.working held) hd hos he hk hn hp hok hcf hvalid
      fun g₃ db₃ w₃ hi₃ hcf₃ => ?_
    exact shared_returns (.store k d flag) hns w₃ rfl hcf₃ (Rely.refl p _) hi₃
  · intro g₁ g₂ held h₂ hi₂ db' habs hcf
    apply safe_bind
    apply safe_if_pos (by decide)
    refine shared_storeAbsent rfl h₂ hi₂ (Held.working held) (Held.absent held habs) hf hd hok hcf hvalid
      fun g₃ db₃ w₃ hi₃ hcf₃ => ?_
    exact shared_returns (.store k d flag) hns w₃ rfl hcf₃ (Rely.refl p _) hi₃

end DbSharedStore
