import LinuxProgramming.DbLibrary
import LinuxProgramming.LockOrder

/-! # The record locks of the database cannot deadlock

A call takes the byte of its hash chain first. Under it, one after the other, it may take
the free-list byte, the whole data file or the append region of the index file, never two
of these together. Chain bytes have rank 0 and everything else has rank 1. -/
namespace DbDeadlock

open CStrings ByteFiles SyscallPrograms LockOrder DbLibrary

def rank : Fd → ℕ → ℕ
  | .idx, b => if hashOff ≤ b ∧ b < recordsOff then 0 else 1
  | .dat, _ => 1

/-- At most the chain byte `c` is held. -/
def Only (c : ℕ) (H : Held Fd) : Prop := ∀ f b, H f b → f = .idx ∧ b = c

theorem chainOff_bounds (key : List Byte) : hashOff ≤ chainOff key ∧ chainOff key < recordsOff := by
  have h : dbHash key < nhash := Nat.mod_lt _ (by decide)
  simp only [chainOff, hashOff, recordsOff, nhash, ptrSz] at *
  omega

theorem only_above {c : ℕ} (hc : hashOff ≤ c ∧ c < recordsOff) {H : Held Fd} (hH : Only c H)
    {fd : Fd} {s l : ℕ} (hr : ∀ b, InRange s l b → rank fd b = 1) : Above rank H fd s l := by
  constructor
  · intro f b hb b' hb'
    obtain ⟨rfl, rfl⟩ := hH f b hb
    rw [hr b' hb']
    simp [rank, hc]
  · intro b b' hb hb'
    rw [hr b hb, hr b' hb']

theorem only_with_without {c : ℕ} {H : Held Fd} (hH : Only c H) (fd : Fd) (s l : ℕ) :
    Only c ((H.with fd s l).without fd s l) := by
  rintro f b ⟨hb | hb, hn⟩
  · exact hH f b hb
  · exact absurd hb hn

theorem rank_free {b : ℕ} (h : InRange freeOff 1 b) : rank .idx b = 1 := by
  obtain ⟨-, h⟩ := h
  have : b = 0 := by simp only [freeOff] at h; omega
  subst b
  decide

theorem rank_append {b : ℕ} (h : InRange recordsOff 0 b) : rank .idx b = 1 := by
  have : ¬ b < recordsOff := Nat.not_lt.mpr h.1
  simp [rank, this]

/-! ## Functions that take no lock -/

section LockFree

variable {I : Held Fd → Prop}

def Same (db db' : DB) : Prop := db'.chainoff = db.chainoff

theorem seekTo_chainoff (db : DB) (fd : Fd) (n : ℕ) : (db.seekTo fd n).chainoff = db.chainoff := by
  cases fd <;> rfl

theorem lseek_set_keeping (db : DB) (fd : Fd) (off : ℤ) (fn : DbFn) (t : String) :
    Keeping rank I (Same db) (lseek db fd off .set fn t) := by
  apply keeping_ite
  · exact fun _ => keeping_abort _
  · exact fun _ => keeping_ret (seekTo_chainoff db fd _)

theorem lseek_end_keeping (db : DB) (fd : Fd) (off : ℤ) (fn : DbFn) (t : String) :
    Keeping rank I (Same db) (lseek db fd off .fromEnd fn t) := by
  apply keeping_size
  intro n
  apply keeping_ite
  · exact fun _ => keeping_abort _
  · exact fun _ => keeping_ret (seekTo_chainoff db fd _)

theorem lseek_keeping (db : DB) (fd : Fd) (off : ℤ) (w : Whence) (fn : DbFn) (t : String) :
    Keeping rank I (Same db) (lseek db fd off w fn t) := by
  cases w
  · exact lseek_set_keeping db fd off fn t
  · exact lseek_end_keeping db fd off fn t

theorem readFd_keeping (db : DB) (fd : Fd) (n : ℕ) :
    Keeping rank I (fun r => Same db r.2) (readFd db fd n) :=
  keeping_read fun _ => keeping_ret (seekTo_chainoff db fd _)

theorem writeFd_keeping (db : DB) (fd : Fd) (bs : List Byte) :
    Keeping rank I (Same db) (writeFd db fd bs) :=
  keeping_write (keeping_ret (seekTo_chainoff db fd _))

theorem readptr_keeping (db : DB) (off : ℤ) :
    Keeping rank I (fun r => Same db r.2) (dbReadptr db off) := by
  refine keeping_bind (lseek_set_keeping db .idx off _ _) fun db₁ h₁ => ?_
  refine keeping_bind (readFd_keeping db₁ .idx _) fun r h₂ => ?_
  apply keeping_ite
  · exact fun _ => keeping_abort _
  · exact fun _ => keeping_ret (h₂.trans h₁)

theorem parseIdxbuf_keeping (db : DB) (buf : List Byte) :
    Keeping rank I (fun r => Same db r.2) (parseIdxbuf db buf) := by
  unfold parseIdxbuf
  apply keeping_ite
  · exact fun _ => keeping_abort _
  intro _
  dsimp only
  split
  · exact keeping_abort _
  split
  · exact keeping_abort _
  apply keeping_ite
  · exact fun _ => keeping_abort _
  intro _
  apply keeping_ite
  · exact fun _ => keeping_abort _
  intro _
  apply keeping_ite
  · exact fun _ => keeping_abort _
  · exact fun _ => keeping_ret rfl

theorem readRecord_keeping (db : DB) (off : ℤ) :
    Keeping rank I (fun r => Same db r.2) (readRecord db off) := by
  refine keeping_bind (readFd_keeping _ .idx _) fun r h₂ => ?_
  have h₂ : Same db r.2 := h₂
  apply keeping_ite
  · intro _
    apply keeping_ite
    · exact fun _ => keeping_ret h₂
    · exact fun _ => keeping_abort _
  intro _
  apply keeping_ite
  · exact fun _ => keeping_abort _
  intro _
  refine keeping_bind (readFd_keeping _ .idx _) fun r' h₃ => ?_
  have h₃ : Same db r'.2 := Eq.trans h₃ h₂
  apply keeping_ite
  · exact fun _ => keeping_abort _
  intro _ Q H hH hQ
  exact parseIdxbuf_keeping r'.2 r'.1 Q H hH fun a H' ha => hQ a H' (Eq.trans ha h₃)

theorem readidx_keeping (db : DB) (off : ℤ) :
    Keeping rank I (fun r => Same db r.2) (dbReadidx db off) := by
  have hseek : Keeping rank I (Same db)
      (if off = 0 then .ret db else lseek db .idx off .set .readidx "lseek error") := by
    apply keeping_ite
    · exact fun _ => keeping_ret rfl
    · exact fun _ => lseek_set_keeping db .idx off _ _
  refine keeping_bind hseek fun db₁ h₁ => ?_
  intro Q H hH hQ
  exact readRecord_keeping db₁ off Q H hH fun a H' ha => hQ a H' (Eq.trans ha h₁)

theorem readdat_keeping (db : DB) : Keeping rank I (fun r => Same db r.2) (dbReaddat db) := by
  refine keeping_bind (lseek_set_keeping db .dat _ _ _) fun db₁ h₁ => ?_
  refine keeping_bind (readFd_keeping db₁ .dat _) fun r h₂ => ?_
  have h₂ : Same db r.2 := Eq.trans h₂ h₁
  apply keeping_ite
  · exact fun _ => keeping_abort _
  intro _
  apply keeping_ite
  · exact fun _ => keeping_abort _
  · exact fun _ => keeping_ret h₂

theorem writeptr_keeping (db : DB) (off v : ℤ) :
    Keeping rank I (Same db) (dbWriteptr db off v) := by
  apply keeping_ite
  · exact fun _ => keeping_abort _
  intro _
  refine keeping_bind (lseek_set_keeping db .idx _ _ _) fun db₁ h₁ => ?_
  intro Q H hH hQ
  exact writeFd_keeping db₁ .idx _ Q H hH fun a H' ha => hQ a H' (Eq.trans ha h₁)

theorem findLoop_keeping (key : List Byte) (fuel : ℕ) (db : DB) (off : ℤ) :
    Keeping rank I (fun r => Same db r.2) (findLoop key fuel db off) := by
  induction fuel generalizing db off with
  | zero =>
    apply keeping_ite
    · exact fun _ => keeping_ret rfl
    · exact fun _ => keeping_hang
  | succ fuel ih =>
    apply keeping_ite
    · exact fun _ => keeping_ret rfl
    intro _
    refine keeping_bind (readidx_keeping db off) fun r h₁ => ?_
    apply keeping_ite
    · exact fun _ => keeping_ret h₁
    intro _ Q H hH hQ
    exact ih _ _ Q H hH fun a H' ha => hQ a H' (Eq.trans ha h₁)

theorem findfreeLoop_keeping (keylen datlen fuel : ℕ) (db : DB) (save off : ℤ) :
    Keeping rank I (fun r => Same db r.2.2) (findfreeLoop keylen datlen fuel db save off) := by
  induction fuel generalizing db save off with
  | zero =>
    apply keeping_ite
    · exact fun _ => keeping_ret rfl
    · exact fun _ => keeping_hang
  | succ fuel ih =>
    apply keeping_ite
    · exact fun _ => keeping_ret rfl
    intro _
    refine keeping_bind (readidx_keeping db off) fun r h₁ => ?_
    apply keeping_ite
    · exact fun _ => keeping_ret h₁
    intro _ Q H hH hQ
    exact ih _ _ _ Q H hH fun a H' ha => hQ a H' (Eq.trans ha h₁)

theorem datRecord_keeping {db₀ db : DB} (h₀ : Same db₀ db) (data : List Byte) (off : ℤ)
    (w : Whence) : Keeping rank I (Same db₀) (do
      let db ← lseek db .dat off w .writedat "lseek error"
      let db := { db with datoff := db.datpos, datlen := data.length + 1 }
      writeFd db .dat (data ++ [newline])) := by
  refine keeping_bind (lseek_keeping db .dat off w _ _) fun db₁ h₁ => ?_
  intro Q H hH hQ
  exact writeFd_keeping _ .dat _ Q H hH fun a H' ha => hQ a H' (Eq.trans ha (Eq.trans h₁ h₀))

theorem idxRecord_keeping {db₀ db : DB} (h₀ : Same db₀ db) (text : List Byte) (off : ℤ)
    (w : Whence) : Keeping rank I (Same db₀) (do
      let db ← lseek db .idx off w .writeidx "lseek error"
      let db := { db with idxoff := db.idxpos }
      writeFd db .idx text) := by
  refine keeping_bind (lseek_keeping db .idx off w _ _) fun db₁ h₁ => ?_
  intro Q H hH hQ
  exact writeFd_keeping _ .idx _ Q H hH fun a H' ha => hQ a H' (Eq.trans ha (Eq.trans h₁ h₀))

theorem writeidx_set_keeping (db : DB) (key : List Byte) (off v : ℤ) :
    Keeping rank I (Same db) (dbWriteidx db key off .set v) := by
  apply keeping_ite
  · exact fun _ => keeping_abort _
  intro _
  apply keeping_ite
  · exact fun _ => keeping_abort _
  · intro _
    refine idxRecord_keeping ?_ _ off .set
    rfl

end LockFree

/-! ## Functions that take one lock under the chain byte -/

section UnderChain

variable {c : ℕ} (hc : hashOff ≤ c ∧ c < recordsOff)
include hc

theorem appendLocked_keeping {α : Type} {R : α → Prop} {w : Whence} {fd : Fd} {start : ℕ}
    {body : Act α} (hr : ∀ b, InRange start 0 b → rank fd b = 1)
    (hb : ∀ J, Keeping rank J R body) :
    Keeping rank (Only c) R (appendLocked w fd start body) := by
  cases w with
  | set => exact hb _
  | fromEnd =>
    exact keeping_locked (fun _ hH => only_above hc hH hr)
      (fun _ hH => only_with_without hH _ _ _) hb

theorem writedat_keeping (db : DB) (data : List Byte) (off : ℤ) (w : Whence) :
    Keeping rank (Only c) (Same db) (dbWritedat db data off w) :=
  appendLocked_keeping hc (fun _ _ => rfl) fun _ => datRecord_keeping rfl data off w

theorem writeidx_keeping (db : DB) (key : List Byte) (off : ℤ) (w : Whence) (v : ℤ) :
    Keeping rank (Only c) (Same db) (dbWriteidx db key off w v) := by
  apply keeping_ite
  · exact fun _ => keeping_abort _
  intro _
  apply keeping_ite
  · exact fun _ => keeping_abort _
  · intro _
    refine appendLocked_keeping hc (fun _ => rank_append) fun _ => idxRecord_keeping ?_ _ off w
    rfl

theorem withFreeLock_keeping {α : Type} {R : α → Prop} {m : LockMode} {body : Act α}
    (hb : ∀ J, Keeping rank J R body) :
    Keeping rank (Only c) R (withLock .idx m freeOff 1 body) :=
  keeping_locked (fun _ hH => only_above hc hH fun _ => rank_free)
    (fun _ hH => only_with_without hH _ _ _) hb

theorem dodelete_keeping (db : DB) : Keeping rank (Only c) (Same db) (dbDodelete db) := by
  refine withFreeLock_keeping hc fun J => ?_
  have hdat : Keeping rank J (Same db) (dbWritedat
      { db with datbuf := List.replicate (db.datlen - 1) space ++ [0], idxbuf := blankKey db.idxbuf }
      (cstr (List.replicate (db.datlen - 1) space ++ [0])) db.datoff .set) := by
    refine datRecord_keeping ?_ _ _ .set
    rfl
  refine keeping_bind hdat fun db₁ h₁ => ?_
  refine keeping_bind (readptr_keeping db₁ freeOff) fun r h₂ => ?_
  have h₂ : Same db r.2 := Eq.trans h₂ h₁
  refine keeping_bind (writeidx_set_keeping r.2 _ _ _) fun db₃ h₃ => ?_
  refine keeping_bind (writeptr_keeping db₃ _ _) fun db₄ h₄ => ?_
  intro Q H hH hQ
  exact writeptr_keeping db₄ _ _ Q H hH fun a H' ha =>
    hQ a H' (Eq.trans ha (Eq.trans h₄ (Eq.trans h₃ h₂)))

theorem findfree_keeping (fuel : ℕ) (db : DB) (keylen datlen : ℕ) :
    Keeping rank (Only c) (fun r => Same db r.2) (dbFindfree fuel db keylen datlen) := by
  refine withFreeLock_keeping hc fun J => ?_
  refine keeping_bind (readptr_keeping db freeOff) fun r h₁ => ?_
  refine keeping_bind (findfreeLoop_keeping keylen datlen fuel r.2 freeOff r.1) fun r₂ h₂ => ?_
  have h₂ : Same db r₂.2.2 := Eq.trans h₂ h₁
  apply keeping_ite
  · exact fun _ => keeping_ret h₂
  intro _
  refine keeping_bind (writeptr_keeping r₂.2.2 _ _) fun db₃ h₃ => ?_
  exact keeping_ret (Eq.trans h₃ h₂)

theorem storeAppend_keeping (db : DB) (key data : List Byte) (v : ℤ) :
    Keeping rank (Only c) (Same db) (storeAppend db key data v) := by
  refine keeping_bind (writedat_keeping hc db data 0 .fromEnd) fun db₁ h₁ => ?_
  refine keeping_bind (writeidx_keeping hc db₁ key 0 .fromEnd v) fun db₂ h₂ => ?_
  intro Q H hH hQ
  exact writeptr_keeping db₂ _ _ Q H hH fun a H' ha => hQ a H' (Eq.trans ha (Eq.trans h₂ h₁))

theorem storeReuse_keeping (db : DB) (key data : List Byte) (v : ℤ) :
    Keeping rank (Only c) (Same db) (storeReuse db key data v) := by
  refine keeping_bind (writedat_keeping hc db data _ .set) fun db₁ h₁ => ?_
  refine keeping_bind (writeidx_keeping hc db₁ key _ .set v) fun db₂ h₂ => ?_
  intro Q H hH hQ
  exact writeptr_keeping db₂ _ _ Q H hH fun a H' ha => hQ a H' (Eq.trans ha (Eq.trans h₂ h₁))

theorem storeAbsent_keeping (fuel : ℕ) (db : DB) (key data : List Byte) (flag : ℤ) :
    Keeping rank (Only c) (fun r => Same db r.2) (storeAbsent fuel db key data flag) := by
  apply keeping_ite
  · exact fun _ => keeping_ret rfl
  intro _
  refine keeping_bind (readptr_keeping db _) fun r h₁ => ?_
  refine keeping_bind (findfree_keeping hc fuel r.2 _ _) fun r₂ h₂ => ?_
  have h₂ : Same db r₂.2 := Eq.trans h₂ h₁
  apply keeping_ite
  · intro _
    refine keeping_bind (storeAppend_keeping hc r₂.2 key data _) fun db₃ h₃ => ?_
    exact keeping_ret (Eq.trans h₃ h₂)
  · intro _
    refine keeping_bind (storeReuse_keeping hc r₂.2 key data _) fun db₃ h₃ => ?_
    exact keeping_ret (Eq.trans h₃ h₂)

theorem storePresent_keeping (db : DB) (key data : List Byte) (flag : ℤ) :
    Keeping rank (Only c) (fun r => Same db r.2) (storePresent db key data flag) := by
  apply keeping_ite
  · exact fun _ => keeping_ret rfl
  intro _
  apply keeping_ite
  · intro _
    refine keeping_bind (dodelete_keeping hc db) fun db₁ h₁ => ?_
    refine keeping_bind (readptr_keeping db₁ _) fun r h₂ => ?_
    refine keeping_bind (storeAppend_keeping hc r.2 key data _) fun db₃ h₃ => ?_
    exact keeping_ret (Eq.trans h₃ (Eq.trans h₂ h₁))
  · intro _
    refine keeping_bind (writedat_keeping hc db data _ .set) fun db₁ h₁ => ?_
    exact keeping_ret h₁

end UnderChain

/-! ## Whole calls -/

theorem findAndLock_disciplined (fuel : ℕ) (db : DB) (key : List Byte) (wl : Bool)
    {Q : ℤ × DB → Held Fd → Prop}
    (hQ : ∀ (r : ℤ × DB) H, Only (chainOff key) H → r.2.chainoff = chainOff key → Q r H) :
    Disciplined rank Q (dbFindAndLock fuel db key wl) nothing := by
  have hone : ∀ b, InRange (chainOff key) 1 b → b = chainOff key := by
    rintro b ⟨h₁, h₂⟩
    omega
  refine ⟨⟨fun _ _ hb => hb.elim, ?_⟩, ?_⟩
  · intro b b' hb hb'
    rw [hone b hb, hone b' hb']
  · have honly : Only (chainOff key) (nothing.with .idx (chainOff key) 1) := by
      rintro f b (hb | ⟨rfl, hb⟩)
      · exact hb.elim
      · exact ⟨rfl, hone b hb⟩
    have hrest : Keeping rank (Only (chainOff key))
        (Same { db with chainoff := chainOff key, ptroff := chainOff key } ∘ Prod.snd) (do
          let r ← dbReadptr
            { db with chainoff := chainOff key, ptroff := chainOff key } (chainOff key)
          findLoop key fuel r.2 r.1) := by
      refine keeping_bind (readptr_keeping _ _) fun r h₁ => ?_
      intro Q' H hH hQ'
      exact findLoop_keeping key fuel _ _ Q' H hH fun a H' ha => hQ' a H' (Eq.trans ha h₁)
    exact hrest Q _ honly fun a H' ha hH' => hQ a H' hH' ha

/-- The end of every call on a chain: the chain byte was the only lock left. -/
theorem unlockChain_disciplined {α : Type} {c : ℕ} {H : Held Fd} (hH : Only c H) {off : ℤ}
    (ho : off = c) {a : α} {Q : α → Held Fd → Prop} (hQ : ∀ H', (∀ f b, ¬ H' f b) → Q a H') :
    Disciplined rank Q (unLock .idx off.toNat 1 >>= fun _ => (.ret a : Act α)) H := by
  apply hQ
  rintro f b ⟨hb, hn⟩
  obtain ⟨rfl, rfl⟩ := hH f b hb
  exact hn ⟨rfl, by simp [ho, InRange]⟩

variable (fuel : ℕ) (db : DB) (key data : List Byte)

theorem fetch_disciplined {Q : Option (List Byte) × DB → Held Fd → Prop}
    (hQ : ∀ a H, (∀ f b, ¬ H f b) → Q a H) :
    Disciplined rank Q (dbFetch fuel db key) nothing := by
  apply disciplined_bind
  refine findAndLock_disciplined fuel db key false fun r H hH hr => ?_
  apply disciplined_bind
  have hk : Keeping rank (Only (chainOff key)) (fun a => Same r.2 a.2) (
      if r.1 < 0 then .ret (none, { r.2 with cntFetcherr := r.2.cntFetcherr + 1 })
      else do
        let a ← dbReaddat r.2
        return (some a.1, { a.2 with cntFetchok := a.2.cntFetchok + 1 }) :
      Act (Option (List Byte) × DB)) := by
    apply keeping_ite
    · exact fun _ => keeping_ret rfl
    · exact fun _ => keeping_bind (readdat_keeping r.2) fun a ha => keeping_ret ha
  exact hk _ H hH fun a H' ha hH' =>
    unlockChain_disciplined hH' (Eq.trans ha hr) fun H'' he => hQ _ H'' he

theorem delete_disciplined {Q : ℤ × DB → Held Fd → Prop}
    (hQ : ∀ a H, (∀ f b, ¬ H f b) → Q a H) :
    Disciplined rank Q (dbDelete fuel db key) nothing := by
  apply disciplined_bind
  refine findAndLock_disciplined fuel db key true fun r H hH hr => ?_
  apply disciplined_bind
  have hk : Keeping rank (Only (chainOff key)) (fun a => Same r.2 a.2) (
      if r.1 = 0 then do
        let db ← dbDodelete r.2
        return ((0 : ℤ), { db with cntDelok := db.cntDelok + 1 })
      else .ret (-1, { r.2 with cntDelerr := r.2.cntDelerr + 1 }) : Act (ℤ × DB)) := by
    apply keeping_ite
    · exact fun _ => keeping_bind (dodelete_keeping (chainOff_bounds key) r.2)
        fun a ha => keeping_ret ha
    · exact fun _ => keeping_ret rfl
  exact hk _ H hH fun a H' ha hH' =>
    unlockChain_disciplined hH' (Eq.trans ha hr) fun H'' he => hQ _ H'' he

theorem store_disciplined (flag : ℤ) {Q : ℤ × DB → Held Fd → Prop}
    (hQ : ∀ a H, (∀ f b, ¬ H f b) → Q a H) :
    Disciplined rank Q (dbStore fuel db key data flag) nothing := by
  unfold dbStore
  split
  · exact hQ _ _ fun _ _ h => h
  split
  · trivial
  apply disciplined_bind
  refine findAndLock_disciplined fuel db key true fun r H hH hr => ?_
  apply disciplined_bind
  have hk : Keeping rank (Only (chainOff key)) (fun a => Same r.2 a.2) (
      if r.1 < 0 then storeAbsent fuel r.2 key data flag else storePresent r.2 key data flag) := by
    apply keeping_ite
    · exact fun _ => storeAbsent_keeping (chainOff_bounds key) fuel r.2 key data flag
    · exact fun _ => storePresent_keeping (chainOff_bounds key) r.2 key data flag
  exact hk _ H hH fun a H' ha hH' =>
    unlockChain_disciplined hH' (Eq.trans ha hr) fun H'' he => hQ _ H'' he

theorem nextrecLoop_keeping {I : Held Fd → Prop} :
    Keeping rank I (fun _ => True) (nextrecLoop fuel db) := by
  induction fuel generalizing db with
  | zero => exact keeping_hang
  | succ fuel ih =>
    refine keeping_bind (readidx_keeping db 0) fun r _ => ?_
    apply keeping_ite
    · exact fun _ => keeping_ret trivial
    intro _
    apply keeping_ite
    · exact fun _ => ih r.2
    · exact fun _ => keeping_ret trivial

theorem nextrec_disciplined {Q : Option (List Byte × List Byte) × DB → Held Fd → Prop}
    (hQ : ∀ a H, (∀ f b, ¬ H f b) → Q a H) :
    Disciplined rank Q (dbNextrec fuel db) nothing := by
  have hk : Keeping rank (fun H => ∀ f b, ¬ H f b) (fun _ => True) (dbNextrec fuel db) := by
    apply keeping_locked
    · intro H hH
      refine ⟨fun f b hb => absurd hb (hH f b), fun b b' hb hb' => ?_⟩
      rw [rank_free hb, rank_free hb']
    · rintro H hH f b ⟨hb | hb, hn⟩
      · exact hH f b hb
      · exact hn hb
    · intro J
      refine keeping_bind (nextrecLoop_keeping fuel db) fun r _ => ?_
      obtain ⟨k, db'⟩ := r
      cases k with
      | none => exact keeping_ret trivial
      | some k => exact keeping_bind (readdat_keeping db') fun a _ => keeping_ret trivial
  exact hk Q _ (fun _ _ h => h) fun a H' _ he => hQ a H' he

/-- Every call, with any key, any data and any answers to its reads, is disciplined. -/
theorem exec_disciplined (call : Call) :
    Disciplined rank Returns (exec fuel call db) nothing := by
  cases call with
  | fetch key =>
    apply disciplined_bind
    exact fetch_disciplined fuel db key.1 fun a H he => he
  | store key data flag =>
    apply disciplined_bind
    exact store_disciplined fuel db key.1 data.1 flag fun a H he => he
  | delete key =>
    apply disciplined_bind
    exact delete_disciplined fuel db key.1 fun a H he => he
  | rewind => exact fun _ _ h => h
  | nextrec =>
    apply disciplined_bind
    exact nextrec_disciplined fuel db fun a H he => he

variable {ι : Type} [DecidableEq ι]

/-- Any number of processes with open handles, on files with any content. -/
def initial (files : Fd → List Byte) (handle : ι → DB) :
    World ι Fd Fatal Call Result DB where
  shared := ⟨files, noLocks, []⟩
  proc p := .idle (handle p)

/-- In no reachable state does the wait-for relation have a cycle. -/
theorem record_locks_never_deadlock (files : Fd → List Byte) (handle : ι → DB)
    (w : World ι Fd Fatal Call Result DB)
    (hw : Execution (exec fuel) (fun _ _ => True) (initial files handle) w) (p : ι) :
    ¬ Relation.TransGen (Waits w) p p := by
  have hinit : Ordered rank (initial files handle) := by
    intro q f b hb
    exact absurd rfl hb
  exact ordered_acyclic (execution_ordered (fun c h => exec_disciplined fuel h c) hw hinit) p

/-- A deletion holds the chain of the empty key and a fetch of that key waits for it. -/
theorem record_locks_never_deadlock_blocked :
    ∃ w : World Bool Fd Fatal Call Result DB,
      Execution (exec 1) (fun _ _ => True) (initial (fun _ => initHash) fun _ => {}) w ∧
      Waits w false true ∧ ∀ p, ¬ Relation.TransGen (Waits w) p p := by
  let key : CString := ⟨[], by simp⟩
  let w₀ : World Bool Fd Fatal Call Result DB := initial (fun _ => initHash) fun _ => {}
  let w₁ := settle w₀.shared w₀.proc true (.delete key) (exec 1 (.delete key) {})
  have hgrant : Grantable w₁.shared.locks true .idx .write (chainOff key.1) 1 :=
    fun _ _ _ _ => trivial
  have hcall : Step (exec 1) (fun _ _ => True) w₀ w₁ := .call w₀ true _ {} rfl trivial
  have hlock : Step (exec 1) (fun _ _ => True) w₁ _ :=
    .act w₁ true (Call.delete key) _ _ _ rfl (Fires.lock Fd.idx .write (chainOff key.1) 1 _ _ hgrant)
  have hw := Execution.tail (.tail (.tail (.refl w₀) hcall) hlock)
    (.call _ false (.fetch key) {} rfl trivial)
  refine ⟨_, hw, ?_, record_locks_never_deadlock 1 _ _ _ hw⟩
  refine ⟨.fetch key, .idx, .read, chainOff key.1, 1, _, rfl, Bool.noConfusion, chainOff key.1,
    ⟨le_rfl, Or.inr (Nat.lt_succ_self _)⟩, ?_⟩
  intro h
  exact h

end DbDeadlock
