import LinuxProgramming.DbInvariant
import LinuxProgramming.DbRecords

/-! # Fetching, deleting and storing, one process alone

What each function of the library does to the files of a well-formed image, case by case.
A record whose key holds a separator ends every walk that reaches it. -/
namespace DbOperations

open CStrings ByteFiles SyscallPrograms SoloRuns LinkedChains DbLibrary DbImage DbRecords
  DbLists DbInvariant

/-- The handle after a record has been read, as later calls use it. -/
structure Names (db : DB) (I : Image) (o : ℕ) (e : Entry) : Prop where
  idxoff : db.idxoff = o
  ptrval : db.ptrval = I.ptr o
  datoff : db.datoff = e.datoff
  datlen : db.datlen = e.datlen
  idxbuf : db.idxbuf = Parsed e

theorem names_readBack (db : DB) (I : Image) (e : Entry) :
    Names (readBack db (I.ptr db.idxpos) e) I db.idxpos e := ⟨rfl, rfl, rfl, rfl, rfl⟩

/-- A walk for the key `k` passes over all these records. -/
def Absent (I : Image) (os : List ℕ) (k : CString) : Prop :=
  ∀ x ∈ os, ∀ a, I.recs.lookup x = some a → a.key ≠ k ∧ sep ∉ a.key.1

/-- A walk for the key `k` meets a record that _db_readidx refuses. -/
def Poisoned (I : Image) (os : List ℕ) (k : CString) : Prop :=
  ∃ l₁ x l₂ a, os = l₁ ++ x :: l₂ ∧ Absent I l₁ k ∧ I.recs.lookup x = some a ∧ sep ∈ a.key.1

variable {E : Fatal → (Fd → List Byte) → Prop} {I : Image} {chain : ℕ → List ℕ}
  {free : List ℕ} {m : KeyMap} {h : ℕ} {k d : CString} {fuel : ℕ} {db : DB}

/-! ## Finding a record on its chain -/

theorem wp_findLoop {Q : ℤ × DB → (Fd → List Byte) → Prop} {os : List ℕ} (hc : ChainOK I h os)
    {c : ℤ}
    (hfound : ∀ (l₁ : List ℕ) (o : ℕ) (l₂ : List ℕ) (e : Entry) (db' : DB),
      os = l₁ ++ o :: l₂ → Absent I l₁ k → I.recs.lookup o = some e → e.key = k → sep ∉ k.1 →
      Names db' I o e → db'.ptroff = l₁.getLastD (slotOff h) → db'.chainoff = c →
      Q (0, db') I.files)
    (hnone : ∀ db' : DB, Absent I os k → db'.chainoff = c → Q (-1, db') I.files)
    (hE : Poisoned I os k → E tooMany I.files) (l₁ l₂ : List ℕ) (hos : os = l₁ ++ l₂)
    (fuel : ℕ) (db : DB) (hf : l₂.length ≤ fuel) (hp : db.ptroff = l₁.getLastD (slotOff h))
    (hcf : db.chainoff = c) (habs : Absent I l₁ k) :
    wp (findLoop k.1 fuel db (I.ptr (l₁.getLastD (slotOff h)))) Q E I.files := by
  induction l₂ generalizing l₁ fuel db with
  | nil =>
    rw [List.append_nil] at hos
    rw [← hos] at habs
    have hlink : Linked I.ptr (slotOff h) l₁ := hos ▸ hc.linked
    rw [path_last hlink]
    cases fuel with
    | zero => exact wp_if_pos rfl (wp_ret (hnone db habs hcf))
    | succ fuel => exact wp_if_pos rfl (wp_ret (hnone db habs hcf))
  | cons o l₂ ih =>
    obtain ⟨n, rfl⟩ : ∃ n, fuel = n + 1 := ⟨fuel - 1, by simp only [List.length_cons] at hf; omega⟩
    have hlink := hc.linked
    rw [hos] at hlink
    obtain ⟨hpre, hne, -⟩ := path_append.mp hlink
    have ho : o ∈ os := by simp [hos]
    obtain ⟨e, he, -⟩ := hc.entry o ho
    rw [path_last hpre]
    apply wp_if_neg (by omega)
    apply wp_bind
    refine wp_readidx he (fun hs => ?_) fun hs => hE ⟨l₁, o, l₂, e, hos, habs, he, hs⟩
    have hcstr : cstr (readBack { db with idxpos := o } (I.ptr o) e).idxbuf = e.key.1 :=
      cstr_parsed e
    apply wp_ite
    · intro hk
      have hk : e.key = k := Subtype.ext (hcstr.symm.trans hk)
      exact wp_ret (hfound l₁ o l₂ e _ hos habs he hk (hk ▸ hs)
        (names_readBack { db with idxpos := o } I e) hp hcf)
    · intro hk
      have hnext := ih (l₁ ++ [o]) (by simp [hos]) n
        { readBack { db with idxpos := o } (I.ptr o) e with ptroff := o }
        (by simp only [List.length_cons] at hf; omega) (by simp) hcf ?_
      · rw [List.getLastD_concat] at hnext
        exact hnext
      · intro x hx a ha
        rcases List.mem_append.mp hx with hx | hx
        · exact habs x hx a ha
        · obtain rfl := List.mem_singleton.mp hx
          obtain rfl : a = e := Option.some.inj (ha.symm.trans he)
          refine ⟨?_, hs⟩
          rintro rfl
          exact hk hcstr

theorem findAndLock_eq (fuel : ℕ) (db : DB) (key : List Byte) (wl : Bool) :
    dbFindAndLock fuel db key wl =
      .lock .idx (if wl then .write else .read) (chainOff key) 1
        (dbReadptr { db with chainoff := chainOff key, ptroff := chainOff key } (chainOff key)
          >>= fun r => findLoop key fuel r.2 r.1) := rfl

theorem wp_findAndLock {Q : ℤ × DB → (Fd → List Byte) → Prop} {os : List ℕ} {wl : Bool}
    (hc : ChainOK I (dbHash k.1) os) (hf : ptrMax ≤ fuel)
    (hfound : ∀ (l₁ : List ℕ) (o : ℕ) (l₂ : List ℕ) (e : Entry) (db' : DB),
      os = l₁ ++ o :: l₂ → Absent I l₁ k → I.recs.lookup o = some e → e.key = k → sep ∉ k.1 →
      Names db' I o e → db'.ptroff = l₁.getLastD (slotOff (dbHash k.1)) →
      db'.chainoff = chainOff k.1 → Q (0, db') I.files)
    (hnone : ∀ db' : DB, Absent I os k → db'.chainoff = chainOff k.1 → Q (-1, db') I.files)
    (hE : Poisoned I os k → E tooMany I.files) :
    wp (dbFindAndLock fuel db k.1 wl) Q E I.files := by
  have hlen := linked_length_le hc.linked
  rw [findAndLock_eq]
  apply wp_lock
  apply wp_bind
  refine wp_readptr (slot_hasPtr (dbHash_lt k.1)) ?_
  exact wp_findLoop hc hfound hnone hE [] os rfl fuel _ (hlen.trans hf) rfl rfl fun x hx => by cases hx

theorem wp_unLock {Q : Unit → (Fd → List Byte) → Prop} {fs : Fd → List Byte} {fd : Fd} {o l : ℕ}
    (hQ : Q () fs) : wp (unLock fd o l) Q E fs := wp_unlock (wp_ret hQ)

theorem wp_withLock {α : Type} {Q : α → (Fd → List Byte) → Prop} {fs : Fd → List Byte} {fd : Fd}
    {lm : LockMode} {o l : ℕ} {body : Act α} (h : wp body Q E fs) :
    wp (withLock fd lm o l body) Q E fs := by
  apply wp_lock
  apply wp_bind
  apply wp_ret
  apply wp_bind
  refine wp_mono h (fun a fs' hq => ?_) fun _ _ he => he
  exact wp_bind (wp_unLock (wp_ret hq))

theorem stores_get_found (s : Stores I chain free m) {o : ℕ} {e : Entry}
    (ho : o ∈ chain (dbHash k.1)) (he : I.recs.lookup o = some e) (hk : e.key = k) :
    ∃ d, I.blocks.lookup e.datoff = some d ∧ e.datlen = d.1.length + 1 ∧ m k = some d := by
  obtain ⟨d, hd, hl⟩ := s.blocks.block o e he
  exact ⟨d, hd, hl, (s.maps k d).mpr ⟨o, ho, e, he, hk, hd⟩⟩

theorem stores_get_absent (s : Stores I chain free m) (h : Absent I (chain (dbHash k.1)) k) :
    m k = none := by
  cases hm : m k with
  | none => rfl
  | some d =>
    obtain ⟨o, ho, e, he, hk, -⟩ := (s.maps k d).mp hm
    exact absurd hk (h o ho e he).1

/-- What a walk for a key finds on its chain. -/
inductive Found (I : Image) (os : List ℕ) (k : CString) : Option CString → Prop where
  | absent (h : Absent I os k) : Found I os k none
  | present {l₁ l₂ : List ℕ} {o : ℕ} {e : Entry} {d : CString} (hos : os = l₁ ++ o :: l₂)
      (habs : Absent I l₁ k) (he : I.recs.lookup o = some e) (hk : e.key = k) (hs : sep ∉ k.1)
      (hd : I.blocks.lookup e.datoff = some d) : Found I os k (some d)

theorem Found.stored {v : Option CString} (s : Stores I chain free m)
    (h : Found I (chain (dbHash k.1)) k v) : m k = v := by
  cases h with
  | absent habs => exact stores_get_absent s habs
  | @present l₁ l₂ o e d hos habs he hk hs hd =>
    obtain ⟨d', hd', -, hm⟩ := stores_get_found s (by simp [hos]) he hk
    rw [hm, ← hd', hd]

theorem wp_fetch {Q : Option (List Byte) × DB → (Fd → List Byte) → Prop}
    (s : Stores I chain free m) (hf : ptrMax ≤ fuel)
    (hQ : ∀ v db', Found I (chain (dbHash k.1)) k v → Q (v.map Subtype.val, db') I.files)
    (hE : Poisoned I (chain (dbHash k.1)) k → E tooMany I.files) :
    wp (dbFetch fuel db k.1) Q E I.files := by
  apply wp_bind
  refine wp_findAndLock (s.chains _ (dbHash_lt _)) hf ?_ ?_ hE
  · intro l₁ o l₂ e db' hos habs he hk hs hn _ _
    obtain ⟨d, hd, hl, hm⟩ := stores_get_found s (by simp [hos]) he hk
    apply wp_bind
    apply wp_if_neg (by decide)
    apply wp_bind
    refine wp_readdat hn.datoff (hn.datlen.trans hl) hd ?_
    apply wp_ret
    apply wp_bind
    apply wp_unLock
    apply wp_ret
    exact hQ (some d) _ (.present hos habs he hk hs hd)
  · intro db' habs _
    apply wp_bind
    apply wp_if_pos (by decide)
    apply wp_ret
    apply wp_bind
    apply wp_unLock
    apply wp_ret
    exact hQ none _ (.absent habs)

/-! ## Deleting -/

theorem cstr_blanks (n : ℕ) : cstr (List.replicate n space ++ [0]) = (blankString n).1 :=
  cstr_append_nul (blankString n).2 []

theorem cstr_blankKey (e : Entry) : cstr (blankKey (Parsed e)) = (blanked e).key.1 := by
  have hdrop : (Parsed e).drop e.key.1.length =
      0 :: (decimal e.datoff ++ 0 :: (decimal e.datlen ++ [0])) := List.drop_left
  rw [blankKey, cstr_parsed, hdrop]
  exact cstr_append_nul (blankString _).2 _

theorem wp_dodelete {Q : DB → (Fd → List Byte) → Prop} {pred o : ℕ} {e : Entry}
    (hb : BlocksOK I) (he : I.recs.lookup o = some e) (hd : I.blocks.lookup e.datoff = some d)
    (hn : Names db I o e) (hp : db.ptroff = pred) (hpred : I.HasPtr pred) (hpo : pred ≠ o)
    (hpf : pred ≠ freeOff) (ho : o ≤ ptrMax)
    (hQ : ∀ J db', Freed I J pred o e d → FreedFiles I J pred o e d → db'.chainoff = db.chainoff →
      Q db' J.files) :
    wp (dbDodelete db) Q E I.files := by
  obtain ⟨d₀, hd₀, hl⟩ := hb.block o e he
  obtain rfl : d = d₀ := Option.some.inj (hd.symm.trans hd₀)
  have hof := entry_ne_head he freeOff_lt
  have hblanks : cstr (List.replicate (db.datlen - 1) space ++ [0]) = (blankString d.1.length).1 := by
    rw [cstr_blanks, hn.datlen, hl, Nat.add_sub_cancel]
  have hsize : ∀ c, (e.datoff, c) ∈ I.blocks → blockSize c = blockSize (blankString d.1.length) := by
    intro c hc
    obtain rfl : d = c := Option.some.inj (hd.symm.trans (lookup_block.mpr hc))
    rw [blockSize, blockSize, length_blankString]
  have hz : ∀ c, (o, c) ∈ I.recs → c.size = (blanked e).size := by
    intro c hc
    obtain rfl : e = c := Option.some.inj (he.symm.trans (lookup_entry.mpr hc))
    exact (size_withKey e _ _).symm
  unfold dbDodelete
  apply wp_withLock
  apply wp_bind
  dsimp only
  rw [hblanks, hn.datoff, hn.idxbuf]
  refine wp_writedat_set hd hsize ?_
  apply wp_bind
  refine wp_readptr free_hasPtr ?_
  dsimp only [wroteDat]
  rw [cstr_blankKey, hn.idxoff]
  apply wp_bind
  refine wp_writeidx_set (blanked e) he rfl ?_ hz (I.ptr_le freeOff) ?_
  · exact (congrArg (· + 1) (length_blankString _)).trans hl.symm
  apply wp_bind
  refine wp_writeptr free_hasPtr ho ?_
  change wp (dbWriteptr _ db.ptroff db.ptrval) _ _ _
  rw [hp, hn.ptrval]
  refine wp_writeptr (hasPtr_setEntry hz hpred) (I.ptr_le o) ?_
  exact hQ _ _ (freed_writes he hd hpo hpf ho hsize hz) (freed_files he hd hpred ho hsize hz) rfl

theorem wp_remove {Q : DB → (Fd → List Byte) → Prop} {o : ℕ} {e : Entry} {l₁ l₂ : List ℕ}
    (s : Stores I chain free m) (hh : h < nhash) (hc : chain h = l₁ ++ o :: l₂)
    (he : I.recs.lookup o = some e) (hn : Names db I o e)
    (hp : db.ptroff = l₁.getLastD (slotOff h))
    (hQ : ∀ J db' d, I.blocks.lookup e.datoff = some d →
      Freed I J (l₁.getLastD (slotOff h)) o e d → FreedFiles I J (l₁.getLastD (slotOff h)) o e d →
      Stores J (Function.update chain h (l₁ ++ l₂)) (o :: free) (Function.update m e.key none) →
      db'.chainoff = db.chainoff → Q db' J.files) :
    wp (dbDodelete db) Q E I.files := by
  have hch := s.chains h hh
  rw [hc] at hch
  obtain ⟨d, hd, -⟩ := s.blocks.block o e he
  have hnot : o ∉ l₁ := fun ho =>
    (mem_remove (linked_nodup hch.linked) (List.mem_append_left _ ho)).2 rfl
  have hfree : freeOff ∉ l₁ := by
    intro hx
    obtain ⟨a, ha, -⟩ := hch.entry _ (List.mem_append_left _ hx)
    exact entry_ne_zero ha rfl
  have hhas : I.HasPtr (l₁.getLastD (slotOff h)) := by
    rcases List.mem_cons.mp (getLastD_mem l₁ (slotOff h)) with hx | hx
    · rw [hx]
      exact slot_hasPtr hh
    · exact chain_hasPtr hch (List.mem_append_left _ hx)
  have hpo : l₁.getLastD (slotOff h) ≠ o :=
    (ne_getLastD (entry_ne_head he (slotOff_lt hh)) hnot).symm
  have hpf : l₁.getLastD (slotOff h) ≠ freeOff :=
    (ne_getLastD (slotOff_ne_free h).symm hfree).symm
  have ho : o ≤ ptrMax := linked_le_ptrMax hch.linked (by simp)
  refine wp_dodelete s.blocks he hd hn hp hhas hpo hpf ho fun J db' f hw hcf => ?_
  exact hQ J db' d hd f hw (s.delete hh hc he hd f) hcf

theorem wp_delete {Q : ℤ × DB → (Fd → List Byte) → Prop} (s : Stores I chain free m)
    (hf : ptrMax ≤ fuel)
    (hfound : ∀ l₁ o l₂ e d J db', chain (dbHash k.1) = l₁ ++ o :: l₂ → I.recs.lookup o = some e →
      e.key = k → Freed I J (l₁.getLastD (slotOff (dbHash k.1))) o e d →
      Stores J (Function.update chain (dbHash k.1) (l₁ ++ l₂)) (o :: free)
        (Function.update m k none) → m k = some d → Q (0, db') J.files)
    (hnone : ∀ db', m k = none → Q (-1, db') I.files)
    (hE : Poisoned I (chain (dbHash k.1)) k → E tooMany I.files) :
    wp (dbDelete fuel db k.1) Q E I.files := by
  apply wp_bind
  refine wp_findAndLock (s.chains _ (dbHash_lt _)) hf ?_ ?_ hE
  · intro l₁ o l₂ e db' hos _ he hk _ hn hp _
    obtain ⟨d, hd, -, hm⟩ := stores_get_found s (by simp [hos]) he hk
    apply wp_bind
    apply wp_if_pos rfl
    apply wp_bind
    refine wp_remove s (dbHash_lt _) hos he hn hp fun J db₂ d' hd' f _ st _ => ?_
    obtain rfl : d = d' := Option.some.inj (hd.symm.trans hd')
    apply wp_ret
    apply wp_bind
    apply wp_unLock
    apply wp_ret
    rw [hk] at st
    exact hfound l₁ o l₂ e d J _ hos he hk f st hm
  · intro db' habs _
    apply wp_bind
    apply wp_if_neg (by decide)
    apply wp_ret
    apply wp_bind
    apply wp_unLock
    apply wp_ret
    exact hnone _ (stores_get_absent s habs)

/-! ## Searching the free list -/

def Fits (I : Image) (keylen datlen : ℕ) (o : ℕ) : Prop :=
  ∃ e, I.recs.lookup o = some e ∧ e.key.1.length = keylen ∧ e.datlen = datlen

theorem sep_notMem_blank {key : List Byte} (h : isBlank key = true) : sep ∉ key := by
  intro hs
  have := List.all_eq_true.mp h sep hs
  exact absurd this (by decide)

theorem wp_findfreeLoop {Q : ℤ × ℤ × DB → (Fd → List Byte) → Prop} (hfl : FreeOK I free)
    {c : ℤ} {keylen datlen : ℕ}
    (hfound : ∀ (l₁ : List ℕ) (o : ℕ) (l₂ : List ℕ) (e : Entry) (db' : DB),
      free = l₁ ++ o :: l₂ → (∀ x ∈ l₁, ¬ Fits I keylen datlen x) → I.recs.lookup o = some e →
      e.key.1.length = keylen → e.datlen = datlen → Names db' I o e → db'.chainoff = c →
      Q (o, l₁.getLastD freeOff, db') I.files)
    (hnone : ∀ (so : ℤ) (db' : DB), (∀ x ∈ free, ¬ Fits I keylen datlen x) →
      db'.chainoff = c → Q (0, so, db') I.files)
    (l₁ l₂ : List ℕ) (hos : free = l₁ ++ l₂) (fuel : ℕ) (db : DB) (hf : l₂.length ≤ fuel)
    (hcf : db.chainoff = c) (habs : ∀ x ∈ l₁, ¬ Fits I keylen datlen x) :
    wp (findfreeLoop keylen datlen fuel db (l₁.getLastD freeOff) (I.ptr (l₁.getLastD freeOff)))
      Q E I.files := by
  induction l₂ generalizing l₁ fuel db with
  | nil =>
    rw [List.append_nil] at hos
    rw [← hos] at habs
    have hlink : Linked I.ptr freeOff l₁ := hos ▸ hfl.linked
    rw [path_last hlink]
    cases fuel with
    | zero => exact wp_if_pos rfl (wp_ret (hnone _ db habs hcf))
    | succ fuel => exact wp_if_pos rfl (wp_ret (hnone _ db habs hcf))
  | cons o l₂ ih =>
    obtain ⟨n, rfl⟩ : ∃ n, fuel = n + 1 := ⟨fuel - 1, by simp only [List.length_cons] at hf; omega⟩
    have hlink := hfl.linked
    rw [hos] at hlink
    obtain ⟨hpre, hne, -⟩ := path_append.mp hlink
    obtain ⟨e, -, he, hblank, -⟩ := hfl.entry o (by simp [hos])
    have hcstr : cstr (readBack { db with idxpos := o } (I.ptr o) e).idxbuf = e.key.1 :=
      cstr_parsed e
    rw [path_last hpre]
    apply wp_if_neg (by omega)
    apply wp_bind
    refine wp_readidx he (fun _ => ?_) fun hs => absurd hs (sep_notMem_blank hblank)
    apply wp_ite
    · rintro ⟨hk, hd⟩
      rw [hcstr] at hk
      apply wp_ret
      exact hfound l₁ o l₂ e _ hos habs he hk hd (names_readBack { db with idxpos := o } I e) hcf
    · intro hno
      rw [hcstr] at hno
      have hnext := ih (l₁ ++ [o]) (by simp [hos]) n (readBack { db with idxpos := o } (I.ptr o) e)
        (by simp only [List.length_cons] at hf; omega) hcf ?_
      · rw [List.getLastD_concat] at hnext
        exact hnext
      · intro x hx
        rcases List.mem_append.mp hx with hx | hx
        · exact habs x hx
        · obtain rfl := List.mem_singleton.mp hx
          rintro ⟨a, ha, h₁, h₂⟩
          obtain rfl : a = e := Option.some.inj (ha.symm.trans he)
          exact hno ⟨h₁, h₂⟩

theorem wp_findfree {Q : ℤ × DB → (Fd → List Byte) → Prop} (hfl : FreeOK I free)
    (hf : ptrMax ≤ fuel) {keylen datlen : ℕ}
    (hfound : ∀ (l₁ : List ℕ) (o : ℕ) (l₂ : List ℕ) (e : Entry) (db' : DB),
      free = l₁ ++ o :: l₂ → (∀ x ∈ l₁, ¬ Fits I keylen datlen x) → I.recs.lookup o = some e →
      e.key.1.length = keylen → e.datlen = datlen → db'.idxoff = o → db'.datoff = e.datoff →
      db'.chainoff = db.chainoff →
      Q (0, db') (I.setPtr (l₁.getLastD freeOff) (I.ptr o) (I.ptr_le o)).files)
    (hnone : ∀ db' : DB, (∀ x ∈ free, ¬ Fits I keylen datlen x) → db'.chainoff = db.chainoff →
      Q (-1, db') I.files) :
    wp (dbFindfree fuel db keylen datlen) Q E I.files := by
  have hlen := linked_length_le hfl.linked
  unfold dbFindfree
  apply wp_withLock
  apply wp_bind
  refine wp_readptr free_hasPtr ?_
  apply wp_bind
  refine wp_findfreeLoop hfl (c := db.chainoff) ?_ ?_ [] free rfl fuel _ (hlen.trans hf) rfl
    fun x hx => by cases hx
  · intro l₁ o l₂ e db' hos hfirst he hk hd hn hcf
    have hpred : I.HasPtr (l₁.getLastD freeOff) := free_pred_hasPtr (hos ▸ hfl)
    have hne := entry_ne_zero he
    apply wp_if_neg (by omega)
    apply wp_bind
    rw [hn.ptrval]
    refine wp_writeptr hpred (I.ptr_le o) ?_
    apply wp_ret
    exact hfound l₁ o l₂ e _ hos hfirst he hk hd hn.idxoff hn.datoff hcf
  · intro so db' hno hcf
    apply wp_if_pos rfl
    apply wp_ret
    exact hnone db' hno hcf

end DbOperations
