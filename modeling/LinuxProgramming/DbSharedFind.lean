import LinuxProgramming.DbSharedCalls

/-! # Finding, fetching and returning among other processes

A call locks the chain of its key, works on it and returns when it releases the chain. The
release is the moment at which the call takes its place among the others. -/
namespace DbSharedFind

set_option linter.unusedSectionVars false

open CStrings ByteFiles SyscallPrograms RelyGuarantee LinkedChains DbLibrary DbImage DbRecords
  DbLists DbInvariant DbOperations DbStore DbRefinement DbShared DbSharedSteps DbSharedCalls

variable {ι : Type} [DecidableEq ι] {S : Setting ι} {g₀ g : Ghost ι} {p : ι} {c : Call} {db : DB}
  {h : Fin nhash} {md : LockMode} {k : CString} {fuel : ℕ}

/-! ## Holding a chain -/

def only (h : Fin nhash) (md : LockMode) : Fd → ℕ → Option LockMode :=
  lend unlocked .idx md (slotOff h) 1

theorem only_slot : only h md .idx (slotOff h) = some md :=
  lend_in ⟨le_rfl, Or.inr (Nat.lt_succ_self _)⟩

theorem only_ne_none : only h md .idx (slotOff h) ≠ none := by
  rw [only_slot]
  exact Option.some_ne_none md

theorem only_other {f : Fd} {b : ℕ} (hb : f = .idx → b ≠ slotOff h) : only h md f b = none := by
  unfold only lend
  rw [if_neg]
  · rfl
  · rintro ⟨rfl, h₁, h₂⟩
    exact hb rfl (by omega)

theorem only_dat (b : ℕ) : only h md .dat b = none := only_other fun hf => Fd.noConfusion hf

theorem only_tail {b : ℕ} (hb : recordsOff ≤ b) : only h md .idx b = none := by
  refine only_other fun _ => ?_
  have := slotOff_lt h.2
  omega

theorem only_free {b : ℕ} (hb : InRange freeOff 1 b) : only h md .idx b = none := by
  refine only_other fun _ heq => ?_
  obtain ⟨-, hb⟩ := hb
  have := slotOff_ne_free h
  simp only [freeOff] at *
  omega

structure Held (p : ι) (h : Fin nhash) (md : LockMode) (g : Ghost ι) : Prop where
  seat : Seat p (only h md) [] none g
  chain : ChainOK g.img h (g.list (.chain h))
  content : Content g.img h (g.list (.chain h)) g.map

theorem Held.guards (hh : Held p h md g) : Guards g p (.chain h) := hh.seat.guards only_ne_none

theorem content_congr {I : Image} {os : List ℕ} {m m' : KeyMap} (hc : Content I h os m)
    (hm : ∀ k, hashOf k = h → m' k = m k) : Content I h os m' := by
  intro k d hk
  rw [hm k (Fin.ext hk)]
  exact hc k d hk

theorem Held.stable {g' : Ghost ι} (hh : Held p h md g) (hr : Rely p g g') : Held p h md g' := by
  have hk := rely_kept hr hh.guards
  exact ⟨hh.seat.stable hr, hk.chainOK hh.chain, content_congr (hk.content hh.content) hk.map⟩

/-! ## Finding a record -/

theorem shared_findLoop {Ψ : ℤ × DB → Ghost ι → Prop} {os : List ℕ} {cf : ℤ}
    (hg : Guards g₀ p (.chain h)) (hlist : g₀.list (.chain h) = os) (hc : ChainOK g₀.img h os)
    (hfound : ∀ g₁, Rely p g₀ g₁ → Inv S g₁ → ∀ (l₁ : List ℕ) (o : ℕ) (l₂ : List ℕ) (e : Entry)
      (db' : DB), os = l₁ ++ o :: l₂ → g₀.img.recs.lookup o = some e → e.key = k →
      Names db' g₀.img o e → db'.ptroff = l₁.getLastD (slotOff h) → db'.chainoff = cf →
      Ψ (0, db') g₁)
    (hnone : ∀ g₁, Rely p g₀ g₁ → Inv S g₁ → ∀ db' : DB, Absent g₀.img os k → db'.chainoff = cf →
      Ψ (-1, db') g₁)
    (l₁ l₂ : List ℕ) (hos : os = l₁ ++ l₂) (fuel : ℕ) (db : DB) (hf : l₂.length ≤ fuel)
    (hp : db.ptroff = l₁.getLastD (slotOff h)) (hcf : db.chainoff = cf)
    (habs : Absent g₀.img l₁ k) (hr : Rely p g₀ g) (hi : Inv S g) :
    Safe (protocol S) p c Ψ (findLoop k.1 fuel db (g₀.img.ptr (l₁.getLastD (slotOff h)))) g := by
  induction l₂ generalizing l₁ fuel db g with
  | nil =>
    rw [List.append_nil] at hos
    rw [← hos] at habs
    have hlink : Linked g₀.img.ptr (slotOff h) l₁ := hos ▸ hc.linked
    rw [path_last hlink]
    cases fuel with
    | zero => exact safe_if_pos rfl (safe_ret (hnone g hr hi db habs hcf))
    | succ fuel => exact safe_if_pos rfl (safe_ret (hnone g hr hi db habs hcf))
  | cons o l₂ ih =>
    obtain ⟨n, rfl⟩ : ∃ n, fuel = n + 1 := ⟨fuel - 1, by simp only [List.length_cons] at hf; omega⟩
    have hlink := hc.linked
    rw [hos] at hlink
    obtain ⟨hpre, hne, -⟩ := path_append.mp hlink
    have ho : o ∈ os := by simp [hos]
    obtain ⟨e, he, -⟩ := hc.entry o ho
    rw [path_last hpre]
    apply safe_if_neg (by omega)
    apply safe_bind
    refine shared_readidx hr hi hg (by rwa [hlist]) he fun g₁ h₁ hi₁ => ?_
    have hs : sep ∉ e.key.1 := by
      refine hi₁.clean o e ?_
      rw [(h₁.same _ hg o (by rwa [hlist])).entry, he]
    have hcstr : cstr (readBack { db with idxpos := o } (g₀.img.ptr o) e).idxbuf = e.key.1 :=
      cstr_parsed e
    apply safe_ite
    · intro hk
      have hk : e.key = k := Subtype.ext (hcstr.symm.trans hk)
      exact safe_ret (hfound g₁ h₁ hi₁ l₁ o l₂ e _ hos he hk
        (names_readBack { db with idxpos := o } g₀.img e) hp hcf)
    · intro hk
      have hnext := ih (l₁ ++ [o]) (by simp [hos]) n
        { readBack { db with idxpos := o } (g₀.img.ptr o) e with ptroff := o }
        (by simp only [List.length_cons] at hf; omega) (by simp) hcf ?_ h₁ hi₁
      · rw [List.getLastD_concat] at hnext
        exact hnext
      · intro x hx a ha
        rcases List.mem_append.mp hx with hx | hx
        · exact habs x hx a ha
        · obtain rfl := List.mem_singleton.mp hx
          obtain rfl : a = e := Option.some.inj (ha.symm.trans he)
          refine ⟨?_, hs⟩
          rintro rfl
          exact hk hcstr

theorem shared_findAndLock {Ψ : ℤ × DB → Ghost ι → Prop} {wl : Bool} (hr : Rely p g₀ g)
    (hi : Inv S g) (seat : Seat p unlocked [] none g₀) (hf : ptrMax ≤ fuel)
    (hfound : ∀ g₁ g₂, Held p (hashOf k) (if wl then .write else .read) g₁ → Rely p g₁ g₂ →
      Inv S g₂ → ∀ (l₁ : List ℕ) (o : ℕ) (l₂ : List ℕ) (e : Entry) (db' : DB),
      g₁.list (.chain (hashOf k)) = l₁ ++ o :: l₂ → g₁.img.recs.lookup o = some e → e.key = k →
      Names db' g₁.img o e → db'.ptroff = l₁.getLastD (slotOff (hashOf k)) →
      db'.chainoff = chainOff k.1 → Ψ (0, db') g₂)
    (hnone : ∀ g₁ g₂, Held p (hashOf k) (if wl then .write else .read) g₁ → Rely p g₁ g₂ →
      Inv S g₂ → ∀ db' : DB, Absent g₁.img (g₁.list (.chain (hashOf k))) k →
      db'.chainoff = chainOff k.1 → Ψ (-1, db') g₂) :
    Safe (protocol S) p c Ψ (dbFindAndLock fuel db k.1 wl) g := by
  rw [findAndLock_eq]
  refine shared_lock hr hi seat.locks (fun _ _ => rfl) fun g₁ h₁ hi₁ hq hi₁' => ?_
  obtain ⟨hch, hcon⟩ := hi₁.chains (hashOf k) (hq (.chain (hashOf k))
    ⟨rfl, le_rfl, Or.inr (Nat.lt_succ_self _)⟩)
  have held : Held p (hashOf k) (if wl then .write else .read)
      (tookLock g₁ p .idx (if wl then .write else .read) (chainOff k.1) 1) :=
    ⟨(seat.stable h₁).tookLock, ⟨hch.linked, hch.entry, hch.keys⟩, hcon⟩
  apply safe_bind
  refine shared_readptr (Rely.refl p _) hi₁' held.guards List.mem_cons_self fun g₂ h₂ hi₂ => ?_
  refine shared_findLoop held.guards rfl held.chain
    (fun g₃ h₃ hi₃ l₁ o l₂ e db' => hfound _ g₃ held h₃ hi₃ l₁ o l₂ e db')
    (fun g₃ h₃ hi₃ db' => hnone _ g₃ held h₃ hi₃ db') [] _ rfl fuel _
    ((linked_length_le held.chain.linked).trans hf) rfl rfl (fun x hx => by cases hx) h₂ hi₂

/-! ## Returning -/

theorem apply_other {op : MapOp} {m : KeyMap} (hk : k ≠ op.key) : (op.apply m).2 k = m k := by
  cases op with
  | fetch k' => rfl
  | store k' d flag =>
    simp only [MapOp.apply, storeMap]
    split
    · exact Function.update_of_ne hk _ _
    · rfl
  | delete k' => exact Function.update_of_ne hk _ _

theorem shared_finish (op : MapOp) (r : Result) (db' : DB) (hns : ¬ S.scans p)
    (seat : Seat p (only (hashOf op.key) md) [] none g₀)
    (hmd : md = .write ∨ ∀ m, (op.apply m).2 = m)
    (hres : ∀ g₁, Rely p g₀ g₁ → Inv S g₁ →
      ChainOK g₁.img (hashOf op.key) (g₁.list (.chain (hashOf op.key))) ∧
      Content g₁.img (hashOf op.key) (g₁.list (.chain (hashOf op.key))) (op.apply g₁.map).2 ∧
      r = (op.apply g₁.map).1)
    (hr : Rely p g₀ g) (hi : Inv S g) :
    Safe (protocol S) p op.call (fun _ g' => Completes (protocol S) p op.call (r, db') g')
      (unLock .idx (chainOff op.key.1) 1) g := by
  refine safe_unlock hr hi fun g₁ h₁ hi₁ => ?_
  obtain ⟨hch, hcon, hans⟩ := hres g₁ h₁ hi₁
  have seat₁ := seat.stable h₁
  have hself : InRange (chainOff op.key.1) 1 (chainOff op.key.1) :=
    ⟨le_rfl, Or.inr (Nat.lt_succ_self _)⟩
  have hslot : g₁.locks p .idx (chainOff op.key.1) = some md := by
    rw [seat₁.locks]
    exact only_slot
  have only_chain : ∀ i : Fin nhash,
      Covers .idx (chainOff op.key.1) 1 (.chain i : Owner ι) → i = hashOf op.key := by
    rintro i ⟨-, h₁, h₂⟩
    refine Fin.ext (slotOff_inj ?_)
    change slotOff i = chainOff op.key.1
    omega
  have hrely : ∀ q, q ≠ p →
      Rely q g₁ (released g₁ p .idx (chainOff op.key.1) 1 (op.apply g₁.map).2) := by
    intro q hq
    refine released_rely hi₁.toLayout hq fun k' => ?_
    by_cases hk : k' = op.key
    · rcases hmd with rfl | hmd
      · rw [hk]
        exact Or.inl hslot
      · rw [hmd]
        exact Or.inr rfl
    · exact Or.inr (apply_other hk)
  have hlayout : Layout S (released g₁ p .idx (chainOff op.key.1) 1 (op.apply g₁.map).2) := by
    refine released_layout hi₁.toLayout (fun i hcov => ?_) (fun hcov => ?_) fun k' hcov => ?_
    · obtain rfl := only_chain i hcov
      exact ⟨hch, hcon⟩
    · obtain ⟨-, h₁, h₂⟩ := hcov
      have hpos : chainOff op.key.1 ≠ freeOff := slotOff_ne_free (hashOf op.key)
      simp only [freeOff] at *
      omega
    · refine apply_other ?_
      rintro rfl
      exact hcov ⟨rfl, hself⟩
  have hmid : TraceOK S (released g₁ p .idx (chainOff op.key.1) 1 g₁.map) := by
    refine traceOK_silent hi₁.trace (e := .unlocked p .idx (chainOff op.key.1) 1) ?_ rfl rfl rfl
    trivial
  refine ⟨_, rfl, hrely, safe_ret ⟨noted _ (.returned p op.call r), rfl, fun q hq => noted_rely (quietly_other rfl hq), ?_, ?_⟩⟩
  · refine ⟨noted_layout hlayout, traceOK_returned op hmid rfl rfl hans rfl fun _ => ?_⟩
    refine ⟨g₁.trace, rfl, ?_⟩
    rw [← hi₁.trace.table, hslot]
    exact Option.some_ne_none md
  · refine ⟨?_, seat₁.own, seat₁.pending, fun hs => absurd hs hns⟩
    exact released_locks (m := (op.apply g₁.map).2) seat₁.locks fun _ _ => rfl

/-! ## Fetching -/

/-- The result of a fetch is what the map holds when the chain is released. -/
theorem content_get {g' : Ghost ι} {v : Option CString} (hh : Held p (hashOf k) md g)
    (hr : Rely p g g')
    (hv : ∀ d, v = some d ↔ Holds g.img (g.list (.chain (hashOf k))) k d) : g'.map k = v := by
  have hmap := (rely_kept hr hh.guards).map k rfl
  rw [hmap]
  cases v with
  | none =>
    cases hm : g.map k with
    | none => rfl
    | some d => cases (hv d).mpr ((hh.content k d rfl).mp hm)
  | some d => exact (hh.content k d rfl).mpr ((hv d).mp rfl)

theorem shared_fetch (hns : ¬ S.scans p) (hf : ptrMax ≤ fuel) (hi : Inv S g)
    (hrest : Resting S p db g) : CallSafe (protocol S) p (.fetch k) (exec fuel (.fetch k) db) g := by
  have seat : Seat p unlocked [] none g := ⟨hrest.locks, hrest.own, hrest.pending⟩
  have finish : ∀ (g₁ g₂ : Ghost ι) (v : Option CString) (db' : DB),
      Held p (hashOf k) .read g₁ → Rely p g₁ g₂ → Inv S g₂ →
      (∀ d, v = some d ↔ Holds g₁.img (g₁.list (.chain (hashOf k))) k d) →
      db'.chainoff = chainOff k.1 →
      Safe (protocol S) p (.fetch k) (fun a g' => Safe (protocol S) p (.fetch k)
        (Completes (protocol S) p (.fetch k)) (.ret (.data a.1, a.2)) g')
        (unLock .idx db'.chainoff.toNat 1 >>= fun _ => .ret (v.map Subtype.val, db')) g₂ := by
    intro g₁ g₂ v db' held h₂ hi₂ hv hcf
    rw [hcf]
    apply safe_bind
    refine safe_mono ?_ _ _ (shared_finish (.fetch k) (.data (v.map Subtype.val)) db' hns held.seat
      (Or.inr fun _ => rfl) (fun g₃ h₃ hi₃ => ?_) h₂ hi₂)
    · exact fun _ _ hc => safe_ret (safe_ret hc)
    · have held₃ := held.stable h₃
      refine ⟨held₃.chain, held₃.content, ?_⟩
      change _ = Result.data ((g₃.map k).map Subtype.val)
      rw [content_get held h₃ hv]
  apply safe_bind
  unfold dbFetch
  apply safe_bind
  refine shared_findAndLock (Rely.refl p g) hi seat hf ?_ ?_
  · intro g₁ g₂ held h₂ hi₂ l₁ o l₂ e db' hos he hk hn _ hcf
    have ho : o ∈ g₁.list (.chain (hashOf k)) := by simp [hos]
    have hsame := h₂.same _ held.guards o ho
    obtain ⟨d, hd, hl⟩ := hi₂.blocks.block o e (hsame.entry.trans he)
    have hd₁ : g₁.img.blocks.lookup e.datoff = some d := (hsame.block e he).symm.trans hd
    apply safe_bind
    apply safe_if_neg (by decide)
    apply safe_bind
    have hblock : ∀ {g₃ : Ghost ι}, Rely p g₁ g₃ → g₃.img.blocks.lookup e.datoff = some d :=
      fun h₃ => ((h₃.same _ held.guards o ho).block e he).trans hd₁
    refine shared_readdat h₂ hi₂ hn.datoff (fun g₃ h₃ _ => ⟨d, hblock h₃, hn.datlen.trans hl⟩)
      fun g₃ d₃ db₃ h₃ hi₃ hd₃ _ hcf₃ => ?_
    · obtain rfl : d = d₃ := Option.some.inj ((hblock h₃).symm.trans hd₃)
      apply safe_ret
      refine finish g₁ g₃ (some d) _ held h₃ hi₃ (fun d' => ?_) (hcf₃.trans hcf)
      constructor
      · intro heq
        cases heq
        exact ⟨o, ho, e, he, hk, hd₁⟩
      · intro hh
        exact congrArg some (holds_unique held.chain ⟨o, ho, e, he, hk, hd₁⟩ hh)
  · intro g₁ g₂ held h₂ hi₂ db' habs hcf
    apply safe_bind
    apply safe_if_pos (by decide)
    apply safe_ret
    refine finish g₁ g₂ none _ held h₂ hi₂ (fun d' => ?_) hcf
    constructor
    · exact fun hn => by cases hn
    · rintro ⟨o, ho, e, he, hk, -⟩
      exact absurd hk (habs o ho e he).1

end DbSharedFind
