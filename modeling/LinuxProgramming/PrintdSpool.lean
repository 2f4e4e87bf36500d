import LinuxProgramming.PrintdQueue

/-! # The files of accepted jobs

A job is kept from the positive reply until the printer has taken it or the printer thread
has given it up. The number given to a client stays its claim until its job has a node in
the queue; nobody else touches the files of that number in between. -/
namespace PrintdSpool

open CStrings ByteFiles Interleaving Volumes Printd Function
open PrintdQueue (serviceOf service QueueOK Consistent)

/-! ## Jobs that are kept -/

/-- The contents that a client was told are stored, until the job is done or cancelled. -/
def keptBy (kept : ℤ → Option (List Byte × List Byte)) : Event → ℤ → Option (List Byte × List Byte)
  | .accepted _ _ jobid data req => Function.update kept jobid (some (data, req))
  | .succeeded jobid | .cancelled jobid => Function.update kept jobid none
  | .rejected _ _ => kept

def kept (history : List Event) : ℤ → Option (List Byte × List Byte) :=
  history.foldl keptBy fun _ => none

theorem kept_noted (s : Shared) (e : Event) :
    kept (s.noted e).history = keptBy (kept s.history) e := by
  simp [kept, Shared.noted]

theorem atolLong_decimalInt {j : ℤ} (h : longMin ≤ j) (h' : j ≤ longMax) :
    atolLong (decimalInt j) = j := by
  rw [atolLong, atol_decimalInt]
  omega

theorem atolLong_range (s : List Byte) : longMin ≤ atolLong s ∧ atolLong s ≤ longMax := by
  have : longMin ≤ longMax := by decide
  rw [atolLong]
  omega

/-! ## Claims -/

def claim : Pc → Option ℤ
  | .jobnoWrap _ j | .jobnoUnlock _ j | .creatData _ j | .creatReq _ j _ | .writeReq _ j _ _
  | .reply _ j _ | .adding (.malloc _ j) => some j
  | .receive x | .writeData x _ => some x.jobid
  | .reject _ j _ | .cleanup j _ => j
  | _ => none

def draft : Pc → Option ℤ
  | .adding _ => none
  | pc => claim pc

structure Claimed (s : Shared) (j : ℤ) : Prop where
  above : longMin ≤ j
  below : j < s.nextjob
  fresh : ∀ a, s.live a = true → (s.jobs a).jobid ≠ j

def Stored (v : Volume Printd.Path) : Pc → Prop
  | .receive x | .writeData x _ => v.inode (dataPath x.jobid) = some x.inode ∧ v.content x.inode = x.data
  | .creatReq _ j data => v.file (dataPath j) = some data
  | .writeReq _ j data i =>
    v.file (dataPath j) = some data ∧ v.inode (reqsPath j) = some i ∧ v.content i = []
  | .reply req j data => v.file (dataPath j) = some data ∧ v.file (reqsPath j) = some req.image
  | .reject _ o paths | .cleanup o paths =>
    ∀ p ∈ paths, ∃ j, o = some j ∧ (p = dataPath j ∨ p = reqsPath j)
  | _ => True

structure ClientOK (s : Shared) (pc : Pc) : Prop where
  claimed : ∀ j, claim pc = some j → Claimed s j
  draft : ∀ j, draft pc = some j → kept s.history j = none
  stored : Stored s.spool pc

/-- The files the printer thread takes away belong to no kept job. -/
def PrinterOK (s : Shared) : Pc → Prop
  | .unlinkData jp | .unlinkReq jp => kept s.history (s.jobs jp).jobid = none
  | _ => True

def Listed (s : Shared) (names : List Name) : Prop := ∀ name ∈ names, atolLong name < s.nextjob

def Unkept (s : Shared) (name : Name) : Prop := ∀ j, name = decimalInt j → kept s.history j = none

/-- The i-node a kept control file was opened at is still its own. -/
def OpenedAt (s : Shared) (name : Name) (i : ℕ) : Prop :=
  ∀ j, name = decimalInt j → kept s.history j ≠ none → s.spool.inode (.reqs, name) = some i

def MainOK (s : Shared) : Pc → Prop
  | .readdir names => Listed s names
  | .openReq name names => Listed s (name :: names)
  | .readReq name i names => Listed s (name :: names) ∧ OpenedAt s name i
  | .dropReq name names | .dropData name names => Listed s names ∧ Unkept s name
  | .queueing (.malloc _ j) names => Listed s names ∧ j < s.nextjob
  | .queueing _ names => Listed s names
  | _ => True

structure KeptOK (s : Shared) (j : ℤ) : Prop where
  range : kept s.history j ≠ none → longMin ≤ j ∧ j ≤ longMax
  files : ∀ d r, kept s.history j = some (d, r) → s.spool.file (dataPath j) = some d ∧
    s.spool.file (reqsPath j) = some r ∧ r.length = sizeofPrintreq

/-- What is on disk, with or without a daemon. -/
structure DiskOK (s : Shared) : Prop where
  volume : s.spool.OK
  kept : ∀ j, KeptOK s j

structure SharedOK (s : Shared) : Prop extends DiskOK s where
  above : longMin ≤ s.nextjob
  below : s.nextjob ≤ longMax
  names : ∀ p ∈ s.spool.names, atolLong p.2 < s.nextjob
  queued : ∀ a, s.live a = true → (s.jobs a).jobid < s.nextjob

structure SpoolOK (w : Daemon) : Prop where
  shared : SharedOK w.shared
  client : ∀ n, ClientOK w.shared (w.thread (.client n))
  distinct : ∀ n m j, claim (w.thread (.client n)) = some j →
    claim (w.thread (.client m)) = some j → n = m
  printer : PrinterOK w.shared (w.thread .printer)
  main : MainOK w.shared (w.thread .main)
  building : ∀ n, w.thread (.client n) ≠ .down → w.thread .main = .accepting
  accepts : w.shared.accepts = true → w.thread .main = .accepting

theorem KeptOK.of_none {s : Shared} {j : ℤ} (h : kept s.history j = none) : KeptOK s j :=
  ⟨fun hk => absurd h hk, fun d r hk => by rw [h] at hk; cases hk⟩

/-! ## What a step touches -/

/-- Only the files and the job of one number change, if any. -/
structure Touches (s s' : Shared) (o : Option Name) : Prop where
  nextjob : s.nextjob ≤ s'.nextjob
  jobs : ∀ a, s.live a = true → s'.jobs a = s.jobs a
  live : ∀ a, s'.live a = true → s.live a = true ∨ some (decimalInt (s'.jobs a).jobid) = o
  kept : ∀ j, some (decimalInt j) ≠ o → kept s'.history j = kept s.history j
  inode : ∀ p : Printd.Path, some p.2 ≠ o → s'.spool.inode p = s.spool.inode p
  content : ∀ (p : Printd.Path) i, some p.2 ≠ o → s.spool.inode p = some i →
    s'.spool.content i = s.spool.content i

section Touches

variable {s s' : Shared} {o : Option Name} {pc : Pc}

theorem Touches.file (h : Touches s s' o) {p : Printd.Path} (hp : some p.2 ≠ o) :
    s'.spool.file p = s.spool.file p := by
  cases hi : s.spool.inode p with
  | none => simp [Volume.file, h.inode p hp, hi]
  | some i => simp [Volume.file, h.inode p hp, hi, h.content p i hp hi]

theorem Touches.stored (h : Touches s s' o) (hpc : ∀ j, claim pc = some j → some (decimalInt j) ≠ o)
    (hs : Stored s.spool pc) : Stored s'.spool pc := by
  cases pc with
  | receive x | writeData x buf =>
    have hj := hpc x.jobid rfl
    exact ⟨(h.inode _ hj).trans hs.1, (h.content _ _ hj hs.1).trans hs.2⟩
  | creatReq req j data => exact (h.file (hpc j rfl)).trans hs
  | writeReq req j data i =>
    have hj := hpc j rfl
    exact ⟨(h.file hj).trans hs.1, (h.inode _ hj).trans hs.2.1, (h.content _ _ hj hs.2.1).trans hs.2.2⟩
  | reply req j data =>
    have hj := hpc j rfl
    exact ⟨(h.file hj).trans hs.1, (h.file hj).trans hs.2⟩
  | reject resp j paths => exact hs
  | cleanup j paths => exact hs
  | _ => trivial

theorem unlink_cases {s s' : Shared} {p : Printd.Path} {ans : Answer} (h : s.unlink p ans = some s') :
    s' = { s with spool := s.spool.unlink p } ∨ s' = s := by
  cases ans with
  | ok => cases h; exact .inl rfl
  | err e => cases h; exact .inr rfl
  | _ => cases h

theorem claim_of_draft {j : ℤ} (h : draft pc = some j) : claim pc = some j := by
  cases pc <;> first | exact h | cases h

theorem Touches.client (h : Touches s s' o) (hpc : ∀ j, claim pc = some j → some (decimalInt j) ≠ o)
    (hc : ClientOK s pc) : ClientOK s' pc := by
  refine ⟨fun j hj => ?_, fun j hj => ?_, h.stored hpc hc.stored⟩
  · obtain ⟨habove, hbelow, hfresh⟩ := hc.claimed j hj
    refine ⟨habove, Int.lt_of_lt_of_le hbelow h.nextjob, fun a ha he => ?_⟩
    rcases h.live a ha with hl | hl
    · rw [h.jobs a hl] at he
      exact hfresh a hl he
    · rw [he] at hl
      exact hpc j hj hl
  · rw [h.kept j (hpc j (claim_of_draft hj))]
    exact hc.draft j hj

theorem Touches.printer (h : Touches s s' o) (hp : PrinterOK s pc)
    (hpc : ∀ jp, serviceOf pc = some jp → s.live jp = true ∧
      some (decimalInt (s.jobs jp).jobid) ≠ o) : PrinterOK s' pc := by
  cases pc with
  | unlinkData jp | unlinkReq jp =>
    obtain ⟨hl, ho⟩ := hpc jp rfl
    change PrintdSpool.kept s'.history (s'.jobs jp).jobid = none
    rw [h.jobs jp hl, h.kept _ ho]
    exact hp
  | _ => trivial

theorem Touches.keptOK (h : Touches s s' o) {j : ℤ} (hj : some (decimalInt j) ≠ o)
    (hk : KeptOK s j) : KeptOK s' j := by
  refine ⟨fun hne => ?_, fun d r hd => ?_⟩
  · rw [h.kept j hj] at hne
    exact hk.range hne
  · rw [h.kept j hj] at hd
    obtain ⟨h₁, h₂, h₃⟩ := hk.files d r hd
    exact ⟨(h.file hj).trans h₁, (h.file hj).trans h₂, h₃⟩

theorem Touches.shared (h : Touches s s' o) (hs : SharedOK s) (hvolume : s'.spool.OK)
    (hbelow : s'.nextjob ≤ longMax) (hkept : ∀ j, some (decimalInt j) = o → KeptOK s' j)
    (hnames : ∀ p ∈ s'.spool.names, p ∈ s.spool.names ∨ atolLong p.2 < s'.nextjob)
    (hqueued : ∀ a, s'.live a = true → s.live a = true ∨ (s'.jobs a).jobid < s'.nextjob) :
    SharedOK s' := by
  refine ⟨⟨hvolume, fun j => ?_⟩, Int.le_trans hs.above h.nextjob, hbelow, fun p hp => ?_, fun a ha => ?_⟩
  · by_cases hj : some (decimalInt j) = o
    · exact hkept j hj
    · exact h.keptOK hj (hs.kept j)
  · rcases hnames p hp with hp | hp
    · exact Int.lt_of_lt_of_le (hs.names p hp) h.nextjob
    · exact hp
  · rcases hqueued a ha with hl | hl
    · rw [h.jobs a hl]
      exact Int.lt_of_lt_of_le (hs.queued a hl) h.nextjob
    · exact hl

/-- A step that stays away from the spool, the counter, the nodes and what is kept. -/
structure Still (s s' : Shared) : Prop where
  spool : s'.spool = s.spool
  nextjob : s'.nextjob = s.nextjob
  jobs : s'.jobs = s.jobs
  live : ∀ a, s'.live a = true → s.live a = true
  kept : kept s'.history = kept s.history

def spoolView (s : Shared) := (s.spool, s.nextjob, s.jobs, s.live, PrintdSpool.kept s.history)

theorem Still.of_view (h : spoolView s' = spoolView s) : Still s s' where
  spool := congrArg (fun v => v.1) h
  nextjob := congrArg (fun v => v.2.1) h
  jobs := congrArg (fun v => v.2.2.1) h
  live a ha := (congrArg (fun v => v.2.2.2.1 a) h).symm.trans ha
  kept := congrArg (fun v => v.2.2.2.2) h

theorem Still.touches (h : Still s s') : Touches s s' o where
  nextjob := Int.le_of_eq h.nextjob.symm
  jobs a _ := by rw [h.jobs]
  live a ha := .inl (h.live a ha)
  kept j _ := by rw [h.kept]
  inode p _ := by rw [h.spool]
  content p i _ _ := by rw [h.spool]

theorem Still.shared (h : Still s s') (hs : SharedOK s) : SharedOK s' := by
  have ht : Touches s s' none := h.touches
  refine ht.shared hs (h.spool ▸ hs.volume) (h.nextjob ▸ hs.below) (by simp) (fun p hp => .inl ?_)
    fun a ha => .inl (h.live a ha)
  rwa [h.spool] at hp

theorem touches_spool {v : Volume Printd.Path}
    (hinode : ∀ p : Printd.Path, some p.2 ≠ o → v.inode p = s.spool.inode p)
    (hcontent : ∀ (p : Printd.Path) i, some p.2 ≠ o → s.spool.inode p = some i →
      v.content i = s.spool.content i) : Touches s { s with spool := v } o where
  nextjob := Int.le_refl _
  jobs _ _ := rfl
  live _ h := .inl h
  kept _ _ := rfl
  inode := hinode
  content := hcontent

theorem touches_creat (h : s.spool.OK) (p : Printd.Path) :
    Touches s { s with spool := (s.spool.creat p).1 } (some p.2) := by
  have hne : ∀ q : Printd.Path, some q.2 ≠ some p.2 → q ≠ p := by
    rintro q hq rfl
    exact hq rfl
  refine touches_spool (fun q hq => Volume.inode_creat_other _ (hne q hq)) fun q i hq hi => ?_
  exact Volume.content_creat_other (Volume.creat_snd_ne h hi (hne q hq))

theorem touches_unlink (p : Printd.Path) :
    Touches s { s with spool := s.spool.unlink p } (some p.2) := by
  refine touches_spool (fun q hq => Volume.inode_unlink_other _ ?_) fun _ _ _ _ => rfl
  rintro rfl
  exact hq rfl

theorem touches_write (h : s.spool.OK) {p : Printd.Path} {i : ℕ} (hi : s.spool.inode p = some i)
    (off : ℕ) (bs : List Byte) :
    Touches s { s with spool := s.spool.write i off bs } (some p.2) := by
  refine touches_spool (fun _ _ => rfl) fun q k hq hk => ?_
  refine update_of_ne ?_ _ _
  rintro rfl
  exact hq (congrArg (fun p => some p.2) (h.single q p k hk hi))

/-- The node `jp` is new and holds the job. -/
def allocated (s : Shared) (jp : Addr) (job : Job) : Shared :=
  { s with
    live := Function.update s.live jp true
    jobs := Function.update s.jobs jp job }.setNext jp none

/-- Behind `malloc` nothing but the links, the lock and the log changes. -/
theorem addJob_cases {t : Tid} {ans : Answer} {a : AddPc} {a' : Option AddPc}
    (h : addJob s t ans a = some (s', a')) :
    (∃ req j jp, a = .malloc req j ∧ a' = some (.lock jp) ∧ s.live jp = false ∧
      s' = allocated s jp ⟨j, req⟩) ∨
    (∀ req j, a' ≠ some (.malloc req j)) ∧ Still s s' ∧ s'.history = s.history ∧
      s'.accepts = s.accepts := by
  cases a with
  | malloc req j =>
    simp only [addJob] at h
    split at h
    · split at h
      · cases h
      · rename_i jp hnew
        cases h
        exact .inl ⟨req, j, jp, rfl, rfl, Bool.eq_false_iff.mpr hnew, rfl⟩
    · cases h
  | lock jp =>
    obtain ⟨s₁, hs₁, h⟩ := Option.map_eq_some_iff.mp h
    cases h
    obtain ⟨-, rfl⟩ := PrintdQueue.take_eq_some hs₁
    exact .inr ⟨by simp, .of_view rfl, rfl, rfl⟩
  | link jp =>
    simp only [addJob] at h
    split at h <;> cases h <;> exact .inr ⟨by simp, .of_view rfl, rfl, rfl⟩
  | prev jp | tail jp | unlock | signal =>
    cases h
    exact .inr ⟨by simp, .of_view rfl, rfl, rfl⟩

theorem addJob_next {t : Tid} {ans : Answer} {a : AddPc} {a' : Option AddPc}
    (h : addJob s t ans a = some (s', a')) (req : PrintReq) (j : ℤ) : a' ≠ some (.malloc req j) := by
  obtain ⟨_, _, _, -, rfl, -⟩ | ⟨hnext, -⟩ := addJob_cases h
  · simp
  · exact hnext req j

theorem allocated_job {jp : Addr} {req : PrintReq} {j : ℤ} (a : Addr)
    (ha : (allocated s jp ⟨j, req⟩).live a = true) :
    s.live a = true ∨ ((allocated s jp ⟨j, req⟩).jobs a).jobid = j := by
  simp only [allocated, Shared.setNext] at ha ⊢
  by_cases hjp : a = jp
  · subst hjp
    right
    rw [update_self]
  · left
    rwa [update_of_ne hjp] at ha

theorem touches_allocated {jp : Addr} (hnew : s.live jp = false) (req : PrintReq) (j : ℤ) :
    Touches s (allocated s jp ⟨j, req⟩) (some (decimalInt j)) := by
  refine ⟨Int.le_refl _, fun a ha => ?_, fun a ha => ?_, fun _ _ => rfl, fun _ _ => rfl,
    fun _ _ _ _ => rfl⟩
  · refine update_of_ne ?_ _ _
    rintro rfl
    rw [hnew] at ha
    cases ha
  · exact (allocated_job a ha).imp_right fun he => congrArg (fun j => some (decimalInt j)) he

theorem SharedOK.allocated {jp : Addr} {j : ℤ} (h : SharedOK s) (hnew : s.live jp = false)
    (req : PrintReq) (hj : j < s.nextjob) : SharedOK (allocated s jp ⟨j, req⟩) := by
  refine (touches_allocated hnew req j).shared h h.volume h.below (fun k _ => ?_) (fun p hp => .inl hp)
    fun a ha => ?_
  · exact ⟨(h.kept k).range, (h.kept k).files⟩
  · refine (allocated_job a ha).imp_right fun he => ?_
    rw [he]
    exact hj

theorem names_creat (v : Volume Printd.Path) {p q : Printd.Path} (h : q ∈ (v.creat p).1.names) :
    q ∈ v.names ∨ q.2 = p.2 := by
  by_cases hq : q = p
  · exact .inr (by rw [hq])
  · obtain ⟨i, hi⟩ := Volume.mem_names.mp h
    rw [Volume.inode_creat_other v hq] at hi
    exact .inl (Volume.mem_names.mpr ⟨i, hi⟩)

theorem names_unlink (v : Volume Printd.Path) {p q : Printd.Path} (h : q ∈ (v.unlink p).names) :
    q ∈ v.names := by
  obtain ⟨i, hi⟩ := Volume.mem_names.mp h
  exact Volume.mem_names.mpr ⟨i, (Volume.inode_of_unlink hi).2⟩

end Touches

/-! ## Steps of a client -/

/-- A client calls `creat`, `write` or `unlink` on its own files. -/
inductive FileCall (v : Volume Printd.Path) : Pc → Volume Printd.Path → Pc → Prop
  | creatData (req : PrintReq) (j : ℤ) :
    FileCall v (.creatData req j) (v.creat (dataPath j)).1
      (.receive ⟨req, j, true, (v.creat (dataPath j)).2, []⟩)
  | writeData (x : Transfer) (buf : List Byte) :
    FileCall v (.writeData x buf) (v.write x.inode x.data.length buf)
      (.receive { x with data := x.data ++ buf })
  | shortData (x : Transfer) (buf : List Byte) (k : ℕ) (resp : PrintResp) :
    FileCall v (.writeData x buf) (v.write x.inode x.data.length (buf.take k))
      (.reject resp (some x.jobid) [dataPath x.jobid])
  | creatReq (req : PrintReq) (j : ℤ) (data : List Byte) :
    FileCall v (.creatReq req j data) (v.creat (reqsPath j)).1
      (.writeReq req j data (v.creat (reqsPath j)).2)
  | writeReq (req : PrintReq) (j : ℤ) (data : List Byte) (i : ℕ) :
    FileCall v (.writeReq req j data i) (v.write i 0 req.image) (.reply req j data)
  | shortReq (req : PrintReq) (j : ℤ) (data : List Byte) (i k : ℕ) (resp : PrintResp) :
    FileCall v (.writeReq req j data i) (v.write i 0 (req.image.take k))
      (.reject resp (some j) [reqsPath j, dataPath j])
  | unlink (o : Option ℤ) (p : Printd.Path) (paths : List Printd.Path) :
    FileCall v (.cleanup o (p :: paths)) (v.unlink p) (.cleanup o paths)

/-- A client goes on with no more than it had. -/
structure Quiet (pc pc' : Pc) : Prop where
  claims : ∀ j, claim pc' = some j → claim pc = some j
  drafts : ∀ j, draft pc' = some j → draft pc = some j
  stored : ∀ v, Stored v pc → Stored v pc'

/-- What a step of a client does to the files, the counter, the nodes and what is kept. -/
inductive ClientStep (s : Shared) (n : ℕ) (ans : Answer) : Pc → Shared → Pc → Prop
  | still {pc pc' : Pc} {s' : Shared} (hs : Still s s') (hpc : Quiet pc pc') :
    ClientStep s n ans pc s' pc'
  | file {pc pc' : Pc} {v : Volume Printd.Path} (hf : FileCall s.spool pc v pc') :
    ClientStep s n ans pc { s with spool := v } pc'
  | take (req : PrintReq) :
    ClientStep s n ans (.jobnoTake req) { s with nextjob := toLong (s.nextjob + 1) }
      (.jobnoWrap req s.nextjob)
  | wrap (req : PrintReq) (j : ℤ) (hneg : s.nextjob ≤ 0) :
    ClientStep s n ans (.jobnoWrap req j) { s with nextjob := 1 } (.jobnoUnlock req j)
  | reply (req : PrintReq) (j : ℤ) (data : List Byte) :
    ClientStep s n ans (.reply req j data) (s.noted (.accepted n (success j) j data req.image))
      (.adding (.malloc req j))
  | add {a : AddPc} {a' : Option AddPc} {s' : Shared} {pc' : Pc}
    (hpc : pc' = match a' with | some a => .adding a | none => .exited)
    (ha : addJob s (.client n) ans a = some (s', a')) :
    ClientStep s n ans (.adding a) s' pc'

section ClientStep

variable {s s' : Shared} {n : ℕ} {ans : Answer} {pc pc' : Pc}

theorem take_still {t : Tid} (h : s.take t = some s') : Still s s' := by
  obtain ⟨-, rfl⟩ := PrintdQueue.take_eq_some h
  exact .of_view rfl

/-- The client gives up: nothing happened, and the paths are those of its files. -/
theorem ClientStep.giveUp {resp : PrintResp} {o : Option ℤ} {paths : List Printd.Path}
    (hclaim : ∀ j, o = some j → claim pc = some j) (hdraft : ∀ j, o = some j → draft pc = some j)
    (hpaths : ∀ p ∈ paths, ∃ j, o = some j ∧ (p = dataPath j ∨ p = reqsPath j)) :
    ClientStep s n ans pc s (.reject resp o paths) :=
  .still (.of_view rfl) ⟨hclaim, hdraft, fun _ _ => hpaths⟩

theorem clientThread_step (h : clientThread s n ans pc = some (s', pc')) :
    ClientStep s n ans pc s' pc' := by
  cases pc with
  | down =>
    dsimp only [clientThread] at h
    split at h
    · cases h
      exact .still (.of_view rfl) ⟨fun _ hj => hj, fun _ hj => hj, fun _ _ => trivial⟩
    · cases h
  | header =>
    have hgiveUp (resp : PrintResp) : ClientStep s n ans .header s (.reject resp none []) :=
      .giveUp (fun _ hj => hj) (fun _ hj => hj) (by simp)
    dsimp only [clientThread] at h
    split at h
    · split at h
      · cases h
        exact .still (.of_view rfl) ⟨fun _ hj => hj, fun _ hj => hj, fun _ _ => trivial⟩
      · split at h <;> cases h
        exact hgiveUp _
    · cases h
      exact hgiveUp _
    · cases h
  | jobnoLock req =>
    obtain ⟨s₁, hs₁, h⟩ := Option.map_eq_some_iff.mp h
    cases h
    exact .still (take_still hs₁) ⟨fun _ hj => hj, fun _ hj => hj, fun _ _ => trivial⟩
  | jobnoTake req =>
    cases h
    exact .take req
  | jobnoWrap req j =>
    cases h
    split
    · exact .wrap req j ‹_›
    · exact .still (.of_view rfl) ⟨fun _ hj => hj, fun _ hj => hj, fun _ _ => trivial⟩
  | jobnoUnlock req j =>
    cases h
    exact .still (.of_view rfl) ⟨fun _ hj => hj, fun _ hj => hj, fun _ _ => trivial⟩
  | creatData req j =>
    dsimp only [clientThread] at h
    split at h
    · cases h
      exact .file (.creatData req j)
    · cases h
      exact .giveUp (fun _ hj => hj) (fun _ hj => hj) (by simp)
    · cases h
  | receive x =>
    -- the loop ends on the end of the data and on a failed read alike
    have hends : ClientStep s n ans (.receive x) s (.creatReq x.req x.jobid x.data) :=
      .still (.of_view rfl) ⟨fun _ hj => hj, fun _ hj => hj,
        fun _ hs => Volume.file_eq_some.mpr ⟨_, hs.1, hs.2⟩⟩
    dsimp only [clientThread] at h
    split at h
    · split at h
      · cases h
      · split at h <;> cases h
        · exact hends
        · exact .still (.of_view rfl) ⟨fun _ hj => hj, fun _ hj => hj, fun _ hs => hs⟩
    · cases h
      exact hends
    · cases h
  | writeData x buf =>
    dsimp only [clientThread] at h
    split at h
    · cases h
      exact .file (.writeData x buf)
    · split at h <;> cases h
      exact .file (.shortData x buf _ _)
    · cases h
      exact .giveUp (fun _ hj => hj) (fun _ hj => hj) (by simp)
    · cases h
  | creatReq req j data =>
    dsimp only [clientThread] at h
    split at h
    · cases h
      exact .file (.creatReq req j data)
    · cases h
      exact .giveUp (fun _ hj => hj) (fun _ hj => hj) (by simp)
    · cases h
  | writeReq req j data i =>
    dsimp only [clientThread] at h
    split at h
    · cases h
      exact .file (.writeReq req j data i)
    · split at h <;> cases h
      exact .file (.shortReq req j data i _ _)
    · cases h
      exact .giveUp (fun _ hj => hj) (fun _ hj => hj) (by simp)
    · cases h
  | reply req j data =>
    cases h
    exact .reply req j data
  | reject resp o paths =>
    cases h
    exact .still ⟨rfl, rfl, rfl, fun _ h => h, kept_noted _ _⟩
      ⟨fun _ hj => hj, fun _ hj => hj, fun _ hs => hs⟩
  | cleanup o paths =>
    cases paths with
    | nil =>
      cases h
      exact .still (.of_view rfl) ⟨(fun _ hj => by cases hj), (fun _ hj => by cases hj),
        fun _ _ => trivial⟩
    | cons p paths =>
      obtain ⟨s₁, hs₁, h⟩ := Option.map_eq_some_iff.mp h
      cases h
      rcases unlink_cases hs₁ with rfl | rfl
      · exact .file (.unlink o p paths)
      · exact .still (.of_view rfl) ⟨fun _ hj => hj, fun _ hj => hj,
          fun _ hs q hq => hs q (List.mem_cons_of_mem p hq)⟩
  | adding a =>
    obtain ⟨⟨s₁, a'⟩, hs₁, h⟩ := Option.map_eq_some_iff.mp h
    cases h
    exact .add rfl hs₁
  | _ => cases h

variable {v v' : Volume Printd.Path}

theorem FileCall.stored (h : FileCall v pc v' pc') (hv : v.OK) (hs : Stored v pc) :
    v'.OK ∧ Stored v' pc' := by
  cases h with
  | creatData req j =>
    exact ⟨Volume.ok_creat hv _, Volume.inode_creat_self _ _, Volume.content_creat_self _ _⟩
  | writeData x buf =>
    refine ⟨Volume.ok_write hv _ _ _, hs.1, ?_⟩
    rw [Volume.content_write_self, hs.2, pwrite_end]
  | creatReq req j data =>
    exact ⟨Volume.ok_creat hv _,
      (Volume.file_creat_other hv (by simp [dataPath, reqsPath])).trans hs,
      Volume.inode_creat_self _ _, Volume.content_creat_self _ _⟩
  | writeReq req j data i =>
    obtain ⟨hd, hi, hc⟩ := hs
    refine ⟨Volume.ok_write hv _ _ _, ?_, ?_⟩
    · refine (Volume.file_write_other _ _ _ _ fun he => ?_).trans hd
      exact absurd (hv.single _ _ _ he hi) (by simp [dataPath, reqsPath])
    · refine Volume.file_eq_some.mpr ⟨i, hi, ?_⟩
      rw [Volume.content_write_self, hc]
      exact pwrite_end [] _
  | shortData x buf k resp => exact ⟨Volume.ok_write hv _ _ _, by simp [Stored]⟩
  | shortReq req j data i k resp => exact ⟨Volume.ok_write hv _ _ _, by simp [Stored]⟩
  | unlink o p paths => exact ⟨Volume.ok_unlink hv p, fun q hq => hs q (List.mem_cons_of_mem p hq)⟩

theorem FileCall.own (h : FileCall s.spool pc v' pc') (hv : s.spool.OK) (hs : Stored s.spool pc) :
    ∃ j, draft pc = some j ∧ draft pc' = some j ∧
      Touches s { s with spool := v' } (some (decimalInt j)) ∧
      ∀ p, p ∈ v'.names → p ∈ s.spool.names ∨ p.2 = decimalInt j := by
  cases h with
  | creatData req j => exact ⟨j, rfl, rfl, touches_creat hv _, fun p hp => names_creat _ hp⟩
  | creatReq req j data => exact ⟨j, rfl, rfl, touches_creat hv _, fun p hp => names_creat _ hp⟩
  | writeData x buf => exact ⟨x.jobid, rfl, rfl, touches_write hv hs.1 _ _, fun p hp => .inl hp⟩
  | shortData x buf k resp => exact ⟨x.jobid, rfl, rfl, touches_write hv hs.1 _ _, fun p hp => .inl hp⟩
  | writeReq req j data i => exact ⟨j, rfl, rfl, touches_write hv hs.2.1 _ _, fun p hp => .inl hp⟩
  | shortReq req j data i k resp => exact ⟨j, rfl, rfl, touches_write hv hs.2.1 _ _, fun p hp => .inl hp⟩
  | unlink o p paths =>
    obtain ⟨j, rfl, hp⟩ := hs p List.mem_cons_self
    have hname : p.2 = decimalInt j := by rcases hp with rfl | rfl <;> rfl
    exact ⟨j, rfl, rfl, hname ▸ touches_unlink p, fun q hq => .inl (names_unlink _ hq)⟩

theorem clientThread_stored (hv : s.spool.OK) (hs : Stored s.spool pc)
    (h : clientThread s n ans pc = some (s', pc')) : s'.spool.OK ∧ Stored s'.spool pc' := by
  cases clientThread_step h with
  | still hstill hpc =>
    rw [hstill.spool]
    exact ⟨hv, hpc.stored _ hs⟩
  | file hf => exact hf.stored hv hs
  | take req => exact ⟨hv, trivial⟩
  | wrap req j hneg => exact ⟨hv, trivial⟩
  | reply req j data => exact ⟨hv, trivial⟩
  | @add a a' _ _ hpc ha =>
    have hspool : s'.spool = s.spool := by
      obtain ⟨_, _, _, -, -, -, rfl⟩ | ⟨-, hs, -⟩ := addJob_cases ha
      · rfl
      · exact hs.spool
    subst hpc
    refine ⟨hspool ▸ hv, ?_⟩
    cases a' <;> trivial

end ClientStep

section Client

variable {w : Daemon} {xs : List Addr} {n : ℕ} {s' : Shared} {o : Option Name} {pc' : Pc}

theorem service_live (h : QueueOK w xs) {jp : Addr} (hjp : serviceOf (w.thread .printer) = some jp) :
    w.shared.live jp = true :=
  h.live jp (by simp [PrintdQueue.service_eq hjp])

def ownName (pc : Pc) : Option Name := (claim pc).map decimalInt

theorem claim_ne_ownName (h : SpoolOK w) {m : ℕ} (hm : m ≠ n) {j : ℤ}
    (hj : claim (w.thread (.client m)) = some j) :
    some (decimalInt j) ≠ ownName (w.thread (.client n)) := by
  intro he
  obtain ⟨k, hk, he⟩ := Option.map_eq_some_iff.mp he.symm
  rw [decimalInt_injective he] at hk
  exact hm (h.distinct m n j hj hk)

theorem service_ne_ownName (h : SpoolOK w) (hq : QueueOK w xs) {jp : Addr}
    (hjp : serviceOf (w.thread .printer) = some jp) :
    some (decimalInt (w.shared.jobs jp).jobid) ≠ ownName (w.thread (.client n)) := by
  intro he
  obtain ⟨k, hk, he⟩ := Option.map_eq_some_iff.mp he.symm
  exact ((h.client n).claimed k hk).fresh jp (service_live hq hjp) (decimalInt_injective he).symm

section Accepting

variable (h : SpoolOK w) (hq : QueueOK w xs) (hmain : w.thread .main = .accepting)
include h hq hmain

theorem SpoolOK.client_step
    (ht : Touches w.shared s' (ownName (w.thread (.client n)))) (hs : SharedOK s')
    (hown : ClientOK s' pc')
    (hclaim : ∀ j, claim pc' = some j → claim (w.thread (.client n)) = some j ∨ w.shared.nextjob ≤ j)  :
    SpoolOK (after w (.client n) s' pc') := by
  have hcases : ∀ m, m = n ∧ (after w (.client n) s' pc').thread (.client m) = pc' ∨
      m ≠ n ∧ (after w (.client n) s' pc').thread (.client m) = w.thread (.client m) := by
    intro m
    by_cases hm : m = n
    · exact .inl ⟨hm, hm ▸ thread_after_self⟩
    · exact .inr ⟨hm, thread_after_other (by simpa using hm)⟩
  have hdistinct : ∀ m j, m ≠ n → claim (w.thread (.client m)) = some j → claim pc' ≠ some j := by
    intro m j hm hj he
    rcases hclaim j he with hold | hnew
    · exact hm (h.distinct m n j hj hold)
    · exact absurd ((h.client m).claimed j hj).below (by omega)
  have hprinter : (after w (.client n) s' pc').thread .printer = w.thread .printer :=
    thread_after_other (by simp)
  have hmain' : (after w (.client n) s' pc').thread .main = .accepting :=
    (thread_after_other (by simp)).trans hmain
  refine ⟨hs, fun m => ?_, fun m k j hm hk => ?_, ?_, ?_, fun _ _ => hmain', fun _ => hmain'⟩
  · obtain ⟨rfl, he⟩ | ⟨hm, he⟩ := hcases m
    · rw [he]
      exact hown
    · rw [he]
      exact ht.client (fun j => claim_ne_ownName h hm) (h.client m)
  · obtain ⟨rfl, he⟩ | ⟨hmn, he⟩ := hcases m
    · obtain ⟨rfl, -⟩ | ⟨hkn, he'⟩ := hcases k
      · rfl
      · rw [he] at hm
        rw [he'] at hk
        exact absurd hm (hdistinct k j hkn hk)
    · rw [he] at hm
      obtain ⟨rfl, he'⟩ | ⟨-, he'⟩ := hcases k
      · rw [he'] at hk
        exact absurd hk (hdistinct m j hmn hm)
      · rw [he'] at hk
        exact h.distinct m k j hm hk
  · rw [hprinter]
    exact ht.printer h.printer fun jp hjp => ⟨service_live hq hjp, service_ne_ownName h hq hjp⟩
  · rw [hmain']
    trivial

theorem SpoolOK.client_still {pc : Pc} (hpc : w.thread (.client n) = pc)
    (hs : Still w.shared s') (hclaim : ∀ j, claim pc' = some j → claim pc = some j)
    (hdraft : ∀ j, draft pc' = some j → draft pc = some j) (hstored : Stored s'.spool pc') :
    SpoolOK (after w (.client n) s' pc') := by
  subst hpc
  have ht : Touches w.shared s' none := hs.touches
  refine h.client_step hq hmain hs.touches (hs.shared h.shared) ?_ fun j hj => .inl (hclaim j hj)
  refine ht.client (fun j _ => by simp) ⟨fun j hj => ?_, fun j hj => ?_, hs.spool ▸ hstored⟩
  · exact (h.client n).claimed j (hclaim j hj)
  · exact (h.client n).draft j (hdraft j hj)

theorem SpoolOK.client_files {pc : Pc} {j : ℤ} {v : Volume Printd.Path} (hpc : w.thread (.client n) = pc)
    (hdraft : draft pc = some j) (hdraft' : draft pc' = some j)
    (ht : Touches w.shared { w.shared with spool := v } (some (decimalInt j))) (hv : v.OK)
    (hnames : ∀ p, p ∈ v.names → p ∈ w.shared.spool.names ∨ p.2 = decimalInt j)
    (hstored : Stored v pc') :
    SpoolOK (after w (.client n) { w.shared with spool := v } pc') := by
  subst hpc
  have hclaim := claim_of_draft hdraft
  have hclaimed := (h.client n).claimed j hclaim
  have hkept := (h.client n).draft j hdraft
  have hown : ownName (w.thread (.client n)) = some (decimalInt j) := by simp [ownName, hclaim]
  have hbelow : j ≤ longMax := by
    have := h.shared.below
    have := hclaimed.below
    omega
  refine h.client_step hq hmain (hown ▸ ht) ?_ ⟨fun k hk => ?_, fun k hk => ?_, hstored⟩
    fun k hk => .inl ?_
  · refine ht.shared h.shared hv h.shared.below (fun k hk => ?_) (fun p hp => ?_) fun a ha => .inl ha
    · rw [decimalInt_injective (Option.some.inj hk)]
      exact .of_none hkept
    · refine (hnames p hp).imp_right fun he => ?_
      rw [he, atolLong_decimalInt hclaimed.above hbelow]
      exact hclaimed.below
  · rw [claim_of_draft hdraft'] at hk
    cases hk
    exact ⟨hclaimed.above, hclaimed.below, hclaimed.fresh⟩
  · rw [hdraft'] at hk
    cases hk
    exact hkept
  · rw [claim_of_draft hdraft'] at hk
    rw [hclaim, hk]

theorem SpoolOK.client_malloc {req : PrintReq} {j : ℤ} {jp : Addr}
    (hpc : w.thread (.client n) = .adding (.malloc req j)) (hnew : w.shared.live jp = false) :
    SpoolOK (after w (.client n) (allocated w.shared jp ⟨j, req⟩) (.adding (.lock jp))) := by
  have hclaimed := (h.client n).claimed j (by rw [hpc]; rfl)
  have hown : ownName (w.thread (.client n)) = some (decimalInt j) := by rw [hpc]; rfl
  exact h.client_step hq hmain (hown ▸ touches_allocated hnew req j)
    (h.shared.allocated hnew req hclaimed.below)
    ⟨(fun _ hk => by cases hk), (fun _ hk => by cases hk), trivial⟩ fun _ hk => by cases hk

theorem SpoolOK.client_take {req : PrintReq} (hpc : w.thread (.client n) = .jobnoTake req)
    (hlast : w.shared.nextjob ≠ longMax) :
    SpoolOK (after w (.client n) { w.shared with nextjob := toLong (w.shared.nextjob + 1) }
      (.jobnoWrap req w.shared.nextjob)) := by
  have habove := h.shared.above
  have hbelow := h.shared.below
  have hwrap : toLong (w.shared.nextjob + 1) = w.shared.nextjob + 1 := by
    have : longMax = 2 ^ 63 - 1 := rfl
    have : longMin = -2 ^ 63 := rfl
    rw [toLong, Int.bmod_eq_of_le] <;> omega
  rw [hwrap]
  have ht : Touches w.shared { w.shared with nextjob := w.shared.nextjob + 1 } none :=
    ⟨by dsimp only; omega, fun _ _ => rfl, fun _ ha => .inl ha, fun _ _ => rfl, fun _ _ => rfl,
      fun _ _ _ _ => rfl⟩
  have hown : ownName (w.thread (.client n)) = none := by rw [hpc]; rfl
  refine h.client_step hq hmain (hown ▸ ht) ?_ ⟨fun j hj => ?_, fun j hj => ?_, trivial⟩ fun j hj => .inr ?_
  · exact ht.shared h.shared h.shared.volume (by dsimp only; omega) (fun _ hk => by cases hk)
      (fun p hp => .inl hp) fun a ha => .inl ha
  · cases hj
    refine ⟨habove, by dsimp only; omega, fun a ha he => ?_⟩
    have := h.shared.queued a ha
    dsimp only at he
    omega
  · cases hj
    -- a kept job of this number would have a file with its name
    by_contra hk
    obtain ⟨⟨d, r⟩, hd⟩ := Option.ne_none_iff_exists'.mp hk
    have hname := Volume.mem_names_of_file ((h.shared.kept w.shared.nextjob).files d r hd).1
    have := h.shared.names _ hname
    rw [show (dataPath w.shared.nextjob).2 = decimalInt w.shared.nextjob from rfl,
      atolLong_decimalInt habove hbelow] at this
    omega
  · cases hj
    exact Int.le_refl _

theorem SpoolOK.client_reply {req : PrintReq} {j : ℤ} {data : List Byte}
    (hpc : w.thread (.client n) = .reply req j data) :
    SpoolOK (after w (.client n) (w.shared.noted (.accepted n (success j) j data req.image))
      (.adding (.malloc req j))) := by
  have hclaimed := (h.client n).claimed j (by rw [hpc]; rfl)
  have hstored := (h.client n).stored
  rw [hpc] at hstored
  have hown : ownName (w.thread (.client n)) = some (decimalInt j) := by rw [hpc]; rfl
  have ht : Touches w.shared (w.shared.noted (.accepted n (success j) j data req.image))
      (some (decimalInt j)) := by
    refine ⟨Int.le_refl _, fun _ _ => rfl, fun _ ha => .inl ha, fun k hk => ?_, fun _ _ => rfl,
      fun _ _ _ _ => rfl⟩
    rw [kept_noted]
    exact update_of_ne (fun he => hk (by rw [he])) _ _
  refine h.client_step hq hmain (hown ▸ ht) ?_ ⟨fun k hk => ?_, (fun k hk => by cases hk), trivial⟩
    fun k hk => .inl ?_
  · refine ht.shared h.shared h.shared.volume h.shared.below (fun k hk => ?_) (fun p hp => .inl hp)
      fun a ha => .inl ha
    obtain rfl := decimalInt_injective (Option.some.inj hk)
    refine ⟨fun _ => ⟨hclaimed.above, ?_⟩, fun d r hd => ?_⟩
    · have := hclaimed.below
      have := h.shared.below
      omega
    · rw [kept_noted, keptBy, update_self] at hd
      cases hd
      exact ⟨hstored.1, hstored.2, req.length_eq⟩
  · cases hk
    exact ⟨hclaimed.above, hclaimed.below, hclaimed.fresh⟩
  · rw [hpc]
    exact hk

theorem SpoolOK.client_wrap {req : PrintReq} {j : ℤ} (hpc : w.thread (.client n) = .jobnoWrap req j)
    (hneg : w.shared.nextjob ≤ 0) :
    SpoolOK (after w (.client n) { w.shared with nextjob := 1 } (.jobnoUnlock req j)) := by
  have ht : ∀ o, Touches w.shared { w.shared with nextjob := 1 } o := fun o =>
    ⟨by dsimp only; omega, fun _ _ => rfl, fun _ ha => .inl ha, fun _ _ => rfl, fun _ _ => rfl,
      fun _ _ _ _ => rfl⟩
  have hown := h.client n
  rw [hpc] at hown
  refine h.client_step hq hmain (ht _) ?_ ?_ fun k hk => .inl (by rw [hpc]; exact hk)
  · exact (ht none).shared h.shared h.shared.volume (by dsimp only; decide) (fun _ hk => by cases hk)
      (fun p hp => .inl hp) fun a ha => .inl ha
  · obtain ⟨hclaimed, hdraft, -⟩ := (ht none).client (fun j _ => by simp) hown
    exact ⟨hclaimed, hdraft, trivial⟩

theorem SpoolOK.client_add {ans : Answer} {a : AddPc} {a' : Option AddPc}
    (hpc : w.thread (.client n) = .adding a)
    (hpc' : pc' = match a' with | some a => .adding a | none => .exited)
    (hact : addJob w.shared (.client n) ans a = some (s', a')) :
    SpoolOK (after w (.client n) s' pc') := by
  obtain ⟨req, j, jp, rfl, rfl, hnew, rfl⟩ | ⟨hnext, hs, -⟩ := addJob_cases hact
  · subst hpc'
    exact h.client_malloc hq hmain hpc hnew
  · have hclaim : claim pc' = none ∧ ∀ v, Stored v pc' := by
      subst hpc'
      cases a' with
      | none => exact ⟨rfl, fun _ => trivial⟩
      | some b =>
        cases b with
        | malloc req j => exact absurd rfl (hnext req j)
        | _ => exact ⟨rfl, fun _ => trivial⟩
    refine h.client_still hq hmain hpc hs (fun k hk => ?_) (fun k hk => ?_) (hclaim.2 _)
    · rw [hclaim.1] at hk
      cases hk
    · have hk := claim_of_draft hk
      rw [hclaim.1] at hk
      cases hk

end Accepting

theorem SpoolOK.clientThread {ans : Answer} (h : SpoolOK w) (hq : QueueOK w xs)
    (hact : clientThread w.shared n ans (w.thread (.client n)) = some (s', pc'))
    (hcare : ∀ req, w.thread (.client n) = .jobnoTake req → w.shared.nextjob ≠ longMax) :
    SpoolOK (after w (.client n) s' pc') := by
  have hmain : w.thread .main = .accepting := by
    by_cases hd : w.thread (.client n) = .down
    · rw [hd] at hact
      simp only [Printd.clientThread] at hact
      split at hact
      · exact h.accepts ‹_›
      · cases hact
    · exact h.building n hd
  have hvolume := h.shared.volume
  have hstored := (h.client n).stored
  generalize hpc : w.thread (.client n) = pc at hact hstored
  cases clientThread_step hact with
  | still hs hquiet =>
    exact h.client_still hq hmain hpc hs hquiet.claims hquiet.drafts
      (hs.spool ▸ hquiet.stored _ hstored)
  | file hf =>
    obtain ⟨j, hdraft, hdraft', ht, hnames⟩ := hf.own hvolume hstored
    obtain ⟨hvolume', hstored'⟩ := hf.stored hvolume hstored
    exact h.client_files hq hmain hpc hdraft hdraft' ht hvolume' hnames hstored'
  | take req => exact h.client_take hq hmain hpc (hcare req hpc)
  | wrap req j hneg => exact h.client_wrap hq hmain hpc hneg
  | reply req j data => exact h.client_reply hq hmain hpc
  | add hpc' ha => exact h.client_add hq hmain hpc hpc' ha

end Client

/-! ## Steps of the printer thread -/

section Printer

variable {w : Daemon} {xs : List Addr} {s' : Shared} {o : Option Name} {pc pc' : Pc}

/-- Kept jobs only disappear, and the files of those that stay are not touched. -/
structure Loses (s s' : Shared) : Prop where
  nextjob : s.nextjob ≤ s'.nextjob
  kept : ∀ j, PrintdSpool.kept s'.history j = none ∨
    PrintdSpool.kept s'.history j = PrintdSpool.kept s.history j ∧
      s'.spool.inode (reqsPath j) = s.spool.inode (reqsPath j)

theorem Listed.mono {s : Shared} {names : List Name} (h : Listed s names)
    (hn : s.nextjob ≤ s'.nextjob) : Listed s' names :=
  fun name hname => Int.lt_of_lt_of_le (h name hname) hn

theorem Loses.main {s : Shared} (h : Loses s s') (hm : MainOK s pc) : MainOK s' pc := by
  have hunkept : ∀ name, Unkept s name → Unkept s' name := by
    intro name hu j hj
    rcases h.kept j with hk | ⟨hk, -⟩
    · exact hk
    · rw [hk]
      exact hu j hj
  have hopened : ∀ name i, OpenedAt s name i → OpenedAt s' name i := by
    intro name i ho j hj hne
    rcases h.kept j with hk | ⟨hk, hi⟩
    · exact absurd hk hne
    · subst hj
      rw [hk] at hne
      exact hi.trans (ho j rfl hne)
  cases pc with
  | readdir names => exact Listed.mono hm h.nextjob
  | openReq name names => exact Listed.mono hm h.nextjob
  | readReq name i names => exact ⟨Listed.mono hm.1 h.nextjob, hopened _ _ hm.2⟩
  | dropReq name names | dropData name names => exact ⟨Listed.mono hm.1 h.nextjob, hunkept _ hm.2⟩
  | queueing a names =>
    cases a with
    | malloc req j => exact ⟨Listed.mono hm.1 h.nextjob, Int.lt_of_lt_of_le hm.2 h.nextjob⟩
    | _ => exact Listed.mono hm h.nextjob
  | _ => trivial

theorem SpoolOK.printer_step (h : SpoolOK w) (hs : SharedOK s') (ht : Touches w.shared s' o)
    (ho : ∀ n j, claim (w.thread (.client n)) = some j → some (decimalInt j) ≠ o)
    (hown : PrinterOK s' pc') (hl : Loses w.shared s') (haccepts : s'.accepts = w.shared.accepts) :
    SpoolOK (after w .printer s' pc') := by
  have hclient : ∀ n, (after w .printer s' pc').thread (.client n) = w.thread (.client n) :=
    fun n => thread_after_other (by simp)
  have hmain : (after w .printer s' pc').thread .main = w.thread .main :=
    thread_after_other (by simp)
  refine ⟨hs, fun n => ?_, fun n m j hn hm => ?_, ?_, ?_, fun n hn => ?_, fun ha => ?_⟩
  · rw [hclient]
    exact ht.client (ho n) (h.client n)
  · rw [hclient] at hn hm
    exact h.distinct n m j hn hm
  · rw [thread_after_self]
    exact hown
  · rw [hmain]
    exact hl.main h.main
  · rw [hclient] at hn
    rw [hmain]
    exact h.building n hn
  · rw [hmain]
    exact h.accepts (haccepts ▸ ha)

theorem SpoolOK.printer_still (h : SpoolOK w) (hs : Still w.shared s')
    (haccepts : s'.accepts = w.shared.accepts)
    (hown : PrinterOK s' pc') : SpoolOK (after w .printer s' pc') := by
  refine h.printer_step (o := none) (hs.shared h.shared) hs.touches (fun _ _ _ => by simp) hown
    ⟨Int.le_of_eq hs.nextjob.symm, fun j => .inr ⟨by rw [hs.kept], by rw [hs.spool]⟩⟩ haccepts

theorem service_ne_claim (h : SpoolOK w) (hq : QueueOK w xs) {jp : Addr}
    (hjp : serviceOf (w.thread .printer) = some jp) (n : ℕ) (j : ℤ)
    (hj : claim (w.thread (.client n)) = some j) :
    some (decimalInt j) ≠ some (decimalInt (w.shared.jobs jp).jobid) := by
  intro he
  exact ((h.client n).claimed j hj).fresh jp (service_live hq hjp)
    (decimalInt_injective (Option.some.inj he)).symm

theorem SpoolOK.printer_settle {jp : Addr} {e : Event} {log : List QueueEvent} (h : SpoolOK w)
    (hq : QueueOK w xs) (hjp : serviceOf (w.thread .printer) = some jp)
    (he : keptBy (kept w.shared.history) e =
      Function.update (kept w.shared.history) (w.shared.jobs jp).jobid none)
    (hpc' : ∀ s, kept s.history (s.jobs jp).jobid = none → PrinterOK s pc') :
    SpoolOK (after w .printer { w.shared.noted e with log := log } pc') := by
  have hkept : kept { w.shared.noted e with log := log }.history =
      Function.update (kept w.shared.history) (w.shared.jobs jp).jobid none :=
    (kept_noted _ _).trans he
  have hnone : kept { w.shared.noted e with log := log }.history (w.shared.jobs jp).jobid = none := by
    rw [hkept, update_self]
  have hsame : ∀ j, j ≠ (w.shared.jobs jp).jobid →
      kept { w.shared.noted e with log := log }.history j = kept w.shared.history j := by
    intro j hj
    rw [hkept, update_of_ne hj]
  have ht : Touches w.shared { w.shared.noted e with log := log }
      (some (decimalInt (w.shared.jobs jp).jobid)) := by
    refine ⟨Int.le_refl _, fun _ _ => rfl, fun _ ha => .inl ha, fun j hj => hsame j ?_, fun _ _ => rfl,
      fun _ _ _ _ => rfl⟩
    rintro rfl
    exact hj rfl
  refine h.printer_step ?_ ht (service_ne_claim h hq hjp) (hpc' _ hnone) ⟨Int.le_refl _, fun j => ?_⟩ rfl
  · refine ht.shared h.shared h.shared.volume h.shared.below (fun j hj => ?_) (fun p hp => .inl hp)
      fun a ha => .inl ha
    rw [decimalInt_injective (Option.some.inj hj)]
    exact .of_none hnone
  · by_cases hj : j = (w.shared.jobs jp).jobid
    · exact .inl (hj ▸ hnone)
    · exact .inr ⟨hsame j hj, rfl⟩

theorem SpoolOK.printer_unlink {jp : Addr} {p : Printd.Path} {ans : Answer} (h : SpoolOK w)
    (hq : QueueOK w xs) (hjp : serviceOf (w.thread .printer) = some jp)
    (hnone : kept w.shared.history (w.shared.jobs jp).jobid = none)
    (hp : p.2 = decimalInt (w.shared.jobs jp).jobid) (hact : w.shared.unlink p ans = some s')
    (hpc' : ∀ s, kept s.history (s.jobs jp).jobid = none → PrinterOK s pc') :
    SpoolOK (after w .printer s' pc') := by
  rcases unlink_cases hact with rfl | rfl
  · have ht : Touches w.shared { w.shared with spool := w.shared.spool.unlink p }
        (some (decimalInt (w.shared.jobs jp).jobid)) := hp ▸ touches_unlink p
    refine h.printer_step ?_ ht (service_ne_claim h hq hjp) (hpc' _ hnone) ⟨Int.le_refl _, fun j => ?_⟩ rfl
    · refine ht.shared h.shared (Volume.ok_unlink h.shared.volume p) h.shared.below (fun j hj => ?_)
        (fun p hp => .inl (names_unlink _ hp)) fun a ha => .inl ha
      rw [decimalInt_injective (Option.some.inj hj)]
      exact .of_none hnone
    · by_cases hj : j = (w.shared.jobs jp).jobid
      · exact .inl (hj ▸ hnone)
      · refine .inr ⟨rfl, ht.inode _ fun he => hj ?_⟩
        exact decimalInt_injective (Option.some.inj he)
  · exact h.printer_still (.of_view rfl) rfl (hpc' _ hnone)

theorem removeJob_still {s : Shared} (h : removeJob s pc = some (s', pc')) :
    Still s s' ∧ s'.accepts = s.accepts ∧ ∀ s, PrinterOK s pc' := by
  cases pc with
  | removeNext jp | removePrev jp =>
    simp only [removeJob] at h
    split at h <;> cases h <;>
      exact ⟨(.of_view rfl), rfl, fun _ => trivial⟩
  | _ => cases h

theorem replaceJob_still {s : Shared} (h : replaceJob s pc = some (s', pc')) :
    Still s s' ∧ s'.accepts = s.accepts ∧ ∀ s, PrinterOK s pc' := by
  cases pc with
  | replaceLock jp =>
    obtain ⟨s₁, hs₁, h⟩ := Option.map_eq_some_iff.mp h
    cases h
    obtain ⟨-, rfl⟩ := PrintdQueue.take_eq_some hs₁
    exact ⟨(.of_view rfl), rfl, fun _ => trivial⟩
  | replaceLink jp =>
    simp only [replaceJob] at h
    split at h <;> cases h <;>
      exact ⟨(.of_view rfl), rfl, fun _ => trivial⟩
  | replacePrev jp | replaceNext jp | replaceHead jp | replaceUnlock =>
    cases h
    exact ⟨(.of_view rfl), rfl, fun _ => trivial⟩
  | _ => cases h

theorem updateJobno_still {s : Shared} {ans : Answer} (h : updateJobno s ans pc = some (s', pc')) :
    Still s s' ∧ s'.accepts = s.accepts ∧ ∀ s, PrinterOK s pc' := by
  cases pc with
  | updateSprintf jp =>
    cases h
    exact ⟨(.of_view rfl), rfl, fun _ => trivial⟩
  | updateWrite jp buf =>
    cases ans with
    | ok | count k =>
      cases h
      exact ⟨(.of_view rfl), rfl, fun _ => trivial⟩
    | _ => cases h
  | _ => cases h

theorem orDefer_still {s : Shared} {ans : Answer} {jp : Addr} {pc₁ : Pc}
    (h : orDefer s jp pc₁ ans = some (s', pc')) (hok : ∀ s, PrinterOK s pc₁) :
    Still s s' ∧ s'.accepts = s.accepts ∧ ∀ s, PrinterOK s pc' := by
  cases ans with
  | ok => cases h; exact ⟨(.of_view rfl), rfl, hok⟩
  | err e => cases h; exact ⟨(.of_view rfl), rfl, fun _ => trivial⟩
  | _ => cases h

theorem SpoolOK.printerThread {ans : Answer} (h : SpoolOK w) (hq : QueueOK w xs)
    (hact : printerThread w.shared ans (w.thread .printer) = some (s', pc')) :
    SpoolOK (after w .printer s' pc') := by
  have hstill : Still w.shared s' ∧ s'.accepts = w.shared.accepts ∧ (∀ s, PrinterOK s pc') →
      SpoolOK (after w .printer s' pc') := fun hs => h.printer_still hs.1 hs.2.1 (hs.2.2 _)
  have hprinter := h.printer
  generalize hpc : w.thread .printer = pc at hact
  rw [hpc] at hprinter
  cases pc with
  | printerLock =>
    obtain ⟨s₁, hs₁, hact⟩ := Option.map_eq_some_iff.mp hact
    cases hact
    obtain ⟨-, rfl⟩ := PrintdQueue.take_eq_some hs₁
    exact hstill ⟨(.of_view rfl), rfl, fun _ => trivial⟩
  | test =>
    dsimp only [Printd.printerThread] at hact
    split at hact <;> cases hact <;>
      exact hstill ⟨(.of_view rfl), rfl, fun _ => trivial⟩
  | waiting =>
    dsimp only [Printd.printerThread] at hact
    split at hact
    · cases hact
      exact hstill ⟨(.of_view rfl), rfl, fun _ => trivial⟩
    · obtain ⟨s₁, hs₁, hact⟩ := Option.map_eq_some_iff.mp hact
      cases hact
      obtain ⟨-, rfl⟩ := PrintdQueue.take_eq_some hs₁
      exact hstill ⟨(.of_view rfl), rfl, fun _ => trivial⟩
  | pickedUnlock jp =>
    cases hact
    exact hstill ⟨(.of_view rfl), rfl, fun _ => trivial⟩
  | openData jp =>
    dsimp only [Printd.printerThread] at hact
    split at hact
    · obtain ⟨i, -, hact⟩ := Option.map_eq_some_iff.mp hact
      cases hact
      exact hstill ⟨(.of_view rfl), rfl, fun _ => trivial⟩
    · cases hact
      exact h.printer_settle hq (by rw [hpc]; rfl) rfl fun _ _ => trivial
    · cases hact
  | fstatData jp =>
    dsimp only [Printd.printerThread] at hact
    split at hact
    · cases hact
      exact hstill ⟨(.of_view rfl), rfl, fun _ => trivial⟩
    · cases hact
      exact h.printer_settle hq (by rw [hpc]; rfl) rfl fun _ _ => trivial
    · cases hact
  | socket jp | connect jp | sendHeaders jp | sendFile jp =>
    exact hstill (orDefer_still hact fun _ => trivial)
  | printerStatus jp =>
    dsimp only [Printd.printerThread] at hact
    split at hact
    · cases hact
      exact h.printer_settle hq (by rw [hpc]; rfl) rfl fun _ hk => hk
    · cases hact
      exact hstill ⟨(.of_view rfl), rfl, fun _ => trivial⟩
    · cases hact
  | unlinkData jp =>
    obtain ⟨s₁, hs₁, hact⟩ := Option.map_eq_some_iff.mp hact
    cases hact
    exact h.printer_unlink hq (by rw [hpc]; rfl) hprinter rfl hs₁ fun _ hk => hk
  | unlinkReq jp =>
    obtain ⟨s₁, hs₁, hact⟩ := Option.map_eq_some_iff.mp hact
    cases hact
    exact h.printer_unlink hq (by rw [hpc]; rfl) hprinter rfl hs₁ fun _ _ => trivial
  | free jp =>
    cases hact
    refine hstill ⟨⟨rfl, rfl, rfl, fun a ha => ?_, rfl⟩, rfl, fun _ => trivial⟩
    by_cases hjp : a = jp
    · subst hjp
      exact absurd ha (by simp [Shared.logged])
    · exact (update_of_ne hjp _ _).symm.trans ha
  | _ =>
    -- the statements on the links and the job number file
    dsimp only [Printd.printerThread] at hact
    rcases Option.or_eq_some_iff.mp hact with hact | ⟨-, hact⟩
    · rcases Option.or_eq_some_iff.mp hact with hact | ⟨-, hact⟩
      · exact hstill (removeJob_still hact)
      · exact hstill (replaceJob_still hact)
    · exact hstill (updateJobno_still hact)

end Printer

/-! ## Steps of the main thread -/

section Main

variable {w : Daemon} {xs : List Addr} {s' : Shared} {o : Option Name} {pc pc' : Pc}

theorem SpoolOK.main_step (h : SpoolOK w) (hq : QueueOK w xs) (hpc : w.thread .main ≠ .accepting)
    (hs : SharedOK s') (hhistory : s'.history = w.shared.history)
    (hjobs : ∀ a, w.shared.live a = true → s'.jobs a = w.shared.jobs a)
    (hown : MainOK s' pc') (haccepts : s'.accepts = true → pc' = .accepting) :
    SpoolOK (after w .main s' pc') := by
  have hdown : ∀ n, (after w .main s' pc').thread (.client n) = .down := by
    intro n
    rw [thread_after_other (by simp)]
    by_contra hn
    exact hpc (h.building n hn)
  have hprinter : (after w .main s' pc').thread .printer = w.thread .printer :=
    thread_after_other (by simp)
  refine ⟨hs, fun n => ?_, fun n m j hn => ?_, ?_, ?_, fun n hn => ?_, fun ha => ?_⟩
  · rw [hdown]
    exact ⟨(fun _ hj => by cases hj), (fun _ hj => by cases hj), trivial⟩
  · rw [hdown] at hn
    cases hn
  · have hp := h.printer
    rw [hprinter]
    generalize hpp : w.thread .printer = pp at hp
    cases pp with
    | unlinkData jp | unlinkReq jp =>
      have hjp : serviceOf (w.thread .printer) = some jp := by rw [hpp]; rfl
      have hl := service_live hq hjp
      change kept s'.history (s'.jobs jp).jobid = none
      rw [hjobs jp hl, hhistory]
      exact hp
    | _ => trivial
  · rw [thread_after_self]
    exact hown
  · exact absurd (hdown n) hn
  · rw [thread_after_self]
    exact haccepts ha

theorem SpoolOK.main_still (h : SpoolOK w) (hq : QueueOK w xs) (hpc : w.thread .main ≠ .accepting)
    (hs : Still w.shared s') (hhistory : s'.history = w.shared.history) (hown : MainOK s' pc')
    (haccepts : pc' = .accepting ∨ s'.accepts = w.shared.accepts) :
    SpoolOK (after w .main s' pc') := by
  refine h.main_step hq hpc (hs.shared h.shared) hhistory (fun _ _ => by rw [hs.jobs]) hown fun ha => ?_
  rcases haccepts with hpc' | he
  · exact hpc'
  · rw [he] at ha
    exact absurd (h.accepts ha) hpc

theorem SpoolOK.main_drop {dir : Dir} {name : Name} {ans : Answer} (h : SpoolOK w)
    (hq : QueueOK w xs) (hpc : w.thread .main ≠ .accepting) (hname : Unkept w.shared name)
    (hact : w.shared.unlink (dir, name) ans = some s')
    (hown : ∀ s : Shared, s.nextjob = w.shared.nextjob → s.history = w.shared.history → MainOK s pc') :
    SpoolOK (after w .main s' pc') := by
  rcases unlink_cases hact with rfl | rfl
  · have ht : Touches w.shared { w.shared with spool := w.shared.spool.unlink (dir, name) } (some name) :=
      touches_unlink (dir, name)
    refine h.main_step hq hpc ?_ rfl (fun _ _ => rfl) (hown _ rfl rfl) fun ha => absurd (h.accepts ha) hpc
    refine ht.shared h.shared (Volume.ok_unlink h.shared.volume _) h.shared.below (fun j hj => ?_)
      (fun p hp => .inl (names_unlink _ hp)) fun a ha => .inl ha
    exact .of_none (hname j (Option.some.inj hj).symm)
  · exact h.main_still hq hpc (.of_view rfl) rfl (hown _ rfl rfl) (.inr rfl)

theorem SpoolOK.main_add {ans : Answer} {a : AddPc} {a' : Option AddPc} {names : List Name}
    (h : SpoolOK w) (hq : QueueOK w xs) (hpc : w.thread .main = .queueing a names)
    (hpc' : pc' = match a' with | some a => .queueing a names | none => .readdir names)
    (hact : addJob w.shared .main ans a = some (s', a')) : SpoolOK (after w .main s' pc') := by
  have hm := h.main
  rw [hpc] at hm
  have hlisted : Listed w.shared names := by
    cases a with
    | malloc req j => exact hm.1
    | _ => exact hm
  have hown : ∀ s : Shared, s.nextjob = w.shared.nextjob → MainOK s pc' := by
    intro s hs
    have hl : Listed s names := hlisted.mono (Int.le_of_eq hs.symm)
    subst hpc'
    cases a' with
    | none => exact hl
    | some b =>
      cases b with
      | malloc req j => exact absurd rfl (addJob_next hact req j)
      | _ => exact hl
  have hne : w.thread .main ≠ .accepting := by simp [hpc]
  obtain ⟨req, j, jp, rfl, rfl, hnew, rfl⟩ | ⟨-, hs, hhistory, haccepts⟩ := addJob_cases hact
  · exact h.main_step hq hne (h.shared.allocated hnew req hm.2) rfl (touches_allocated hnew req j).jobs
      (hown _ rfl) fun ha => absurd (h.accepts ha) hne
  · exact h.main_still hq hne hs hhistory (hown _ hs.nextjob) (.inr haccepts)

theorem SpoolOK.buildQonstart {ans : Answer} (h : SpoolOK w) (hq : QueueOK w xs)
    (hact : buildQonstart w.shared ans (w.thread .main) = some (s', pc'))
    (hcare : ∀ name i names, w.thread .main = .readReq name i names → ans = .ok) :
    SpoolOK (after w .main s' pc') := by
  have hm := h.main
  have hne : w.thread .main ≠ .accepting := by
    intro he
    rw [he] at hact
    cases hact
  generalize hpc : w.thread .main = pc at hact
  rw [hpc] at hm
  cases pc with
  | opendir =>
    dsimp only [Printd.buildQonstart] at hact
    split at hact
    · split at hact
      · rename_i l hperm
        cases hact
        refine h.main_still hq hne (.of_view rfl) rfl (fun name hname => ?_) (.inr rfl)
        obtain ⟨p, hp, rfl⟩ := List.mem_map.mp (hperm.mem_iff.mp hname)
        exact h.shared.names p (List.mem_filter.mp hp).1
      · cases hact
    · cases hact
      exact h.main_still hq hne (.of_view rfl) rfl trivial (.inl rfl)
    · cases hact
  | readdir names =>
    cases names with
    | nil =>
      cases hact
      exact h.main_still hq hne (.of_view rfl) rfl trivial (.inl rfl)
    | cons name names =>
      cases hact
      exact h.main_still hq hne (.of_view rfl) rfl hm (.inr rfl)
  | openReq name names =>
    dsimp only [Printd.buildQonstart] at hact
    split at hact
    · obtain ⟨i, hi, hact⟩ := Option.map_eq_some_iff.mp hact
      cases hact
      exact h.main_still hq hne (.of_view rfl) rfl ⟨hm, fun _ _ _ => hi⟩ (.inr rfl)
    · cases hact
      exact h.main_still hq hne (.of_view rfl) rfl
        (fun x hx => hm x (by simp [hx])) (.inr rfl)
    · cases hact
  | readReq name i names =>
    obtain ⟨hlisted, hopened⟩ := hm
    have hnames : Listed w.shared names := fun x hx => hlisted x (by simp [hx])
    obtain rfl := hcare name i names hpc
    dsimp only [Printd.buildQonstart, Option.map_some] at hact
    split at hact
    · cases hact
      exact h.main_still hq hne (.of_view rfl) rfl
        ⟨hnames, hlisted name (by simp)⟩ (.inr rfl)
    · rename_i hshort
      cases hact
      refine h.main_still hq hne (.of_view rfl) rfl ⟨hnames, ?_⟩ (.inr rfl)
      -- the control file of a kept job is complete
      rintro j rfl
      by_contra hk
      obtain ⟨⟨d, r⟩, hd⟩ := Option.ne_none_iff_exists'.mp hk
      obtain ⟨-, hr, hlen⟩ := (h.shared.kept j).files d r hd
      have hi := Volume.file_of_inode (hopened j rfl hk)
      have hcontent : w.shared.spool.content i = r := Option.some.inj (hi.symm.trans hr)
      rw [hcontent, List.length_take, hlen, Nat.min_self, Nat.min_self] at hshort
      exact hshort rfl
  | dropReq name names =>
    obtain ⟨s₁, hs₁, hact⟩ := Option.map_eq_some_iff.mp hact
    cases hact
    refine h.main_drop hq hne hm.2 hs₁ fun s hn hh => ⟨hm.1.mono (Int.le_of_eq hn.symm), ?_⟩
    intro j hj
    rw [hh]
    exact hm.2 j hj
  | dropData name names =>
    obtain ⟨s₁, hs₁, hact⟩ := Option.map_eq_some_iff.mp hact
    cases hact
    exact h.main_drop hq hne hm.2 hs₁ fun s hn _ => hm.1.mono (Int.le_of_eq hn.symm)
  | queueing a names =>
    obtain ⟨⟨s₁, a'⟩, hs₁, hact⟩ := Option.map_eq_some_iff.mp hact
    cases hact
    exact h.main_add hq hpc rfl hs₁
  | _ => cases hact

end Main

/-! ## Whole runs -/

/-- Every start reads a number above all names in the spool, the counter never wraps around,
and control files are read in one piece. -/
def careful (w : Daemon) : Action → Bool
  | .crash => true
  | .restart junk => w.shared.spool.names.all fun p => atolLong p.2 < initRequest w.shared.jobno junk
  | .run t ans =>
    match w.thread t with
    | .jobnoTake _ => w.shared.nextjob ≠ longMax
    | .readReq _ _ _ => ans = .ok
    | _ => true

def Careful (w : Daemon) (a : Action) : Prop := careful w a = true

structure Safe (w : Daemon) : Prop where
  queue : Consistent w
  down : w.thread .main = .down → DiskOK w.shared
  up : w.thread .main ≠ .down → SpoolOK w

theorem Safe.disk {w : Daemon} (h : Safe w) : DiskOK w.shared := by
  by_cases hd : w.thread .main = .down
  · exact h.down hd
  · exact (h.up hd).shared.toDiskOK

theorem initRequest_range (jobno junk : List Byte) :
    longMin ≤ initRequest jobno junk ∧ initRequest jobno junk ≤ longMax := by
  rw [initRequest]
  split
  · decide
  · exact atolLong_range _

theorem spoolOK_boot {w : Daemon} {junk : List Byte} (h : DiskOK w.shared)
    (hcare : ∀ p ∈ w.shared.spool.names, atolLong p.2 < initRequest w.shared.jobno junk) :
    SpoolOK ⟨boot w.shared junk, started⟩ := by
  obtain ⟨habove, hbelow⟩ := initRequest_range w.shared.jobno junk
  refine ⟨⟨⟨h.volume, fun j => ⟨(h.kept j).range, (h.kept j).files⟩⟩, habove, hbelow, hcare, ?_⟩,
    fun n => ⟨?_, ?_, trivial⟩, ?_, trivial, trivial, ?_, ?_⟩
  · intro a ha
    cases ha
  · intro j hj
    cases hj
  · intro j hj
    cases hj
  · intro n m j hj
    cases hj
  · intro n hn
    exact absurd rfl hn
  · intro ha
    cases ha

theorem safe_next {w w' : Daemon} {a : Action} (h : Safe w) (hcare : Careful w a)
    (hnext : Printd.next w a = some w') : Safe w' := by
  have hqueue := PrintdQueue.consistent_next h.queue hnext
  cases a with
  | crash =>
    cases hnext
    exact ⟨hqueue, fun _ => ⟨h.disk.volume, fun j => ⟨(h.disk.kept j).range, (h.disk.kept j).files⟩⟩,
      fun hup => absurd rfl hup⟩
  | restart junk =>
    simp only [Printd.next] at hnext
    split at hnext
    · cases hnext
      refine ⟨hqueue, (fun hd => by cases hd), fun _ => spoolOK_boot h.disk fun p hp => ?_⟩
      exact of_decide_eq_true (List.all_eq_true.mp hcare p hp)
    · cases hnext
  | run t ans =>
    obtain ⟨s', pc', hact, rfl⟩ := next_eq_some.mp hnext
    rcases h.queue with ⟨hdown, haccepts⟩ | ⟨hup, ⟨xs, hq⟩, -⟩
    · rw [hdown t, PrintdQueue.act_down haccepts] at hact
      cases hact
    · have hs := h.up hup
      have hs' : SpoolOK (after w t s' pc') := by
        cases t with
        | main =>
          refine hs.buildQonstart hq hact fun name i names hpc => ?_
          simp only [Careful, careful, hpc] at hcare
          exact of_decide_eq_true hcare
        | printer => exact hs.printerThread hq hact
        | client n =>
          refine hs.clientThread hq hact fun req hpc => ?_
          simp only [Careful, careful, hpc] at hcare
          exact of_decide_eq_true hcare
      exact ⟨hqueue, fun _ => hs'.shared.toDiskOK, fun _ => hs'⟩

theorem safe_run {spool : Volume Printd.Path} {jobno : List Byte} {w : Daemon} (hspool : spool.OK)
    (h : Run Printd.next Careful (initial spool jobno) w) : Safe w := by
  refine h.invariant (I := Safe) ⟨.inl ⟨fun _ => rfl, rfl⟩, fun _ => ⟨hspool, fun j => .of_none rfl⟩,
    fun hup => absurd rfl hup⟩ fun w a w' hw hcare hnext => safe_next hw hcare hnext

/-- With careful restarts an accepted job keeps its files until it is done or cancelled, and
no number is given out that is still in the spool or in the queue. -/
theorem accepted_jobs_keep_their_files (spool : Volume Printd.Path) (jobno : List Byte) (w : Daemon)
    (hspool : spool.OK) (h : Run Printd.next Careful (initial spool jobno) w) :
    (∀ j d r, kept w.shared.history j = some (d, r) →
      w.shared.spool.file (dataPath j) = some d ∧ w.shared.spool.file (reqsPath j) = some r) ∧
    ∀ n req, w.thread (.client n) = .jobnoTake req →
      (∀ p ∈ w.shared.spool.names, atolLong p.2 ≠ w.shared.nextjob) ∧
      ∀ a, w.shared.live a = true → (w.shared.jobs a).jobid ≠ w.shared.nextjob := by
  have hsafe := safe_run hspool h
  refine ⟨fun j d r hk => ?_, fun n req hpc => ?_⟩
  · obtain ⟨hd, hr, -⟩ := (hsafe.disk.kept j).files d r hk
    exact ⟨hd, hr⟩
  · have hup : w.thread .main ≠ .down := by
      intro hd
      rcases hsafe.queue with ⟨hdown, -⟩ | ⟨hup, -, -⟩
      · rw [hdown] at hpc
        cases hpc
      · exact hup hd
    have hs := (hsafe.up hup).shared
    exact ⟨fun p hp => Int.ne_of_lt (hs.names p hp), fun a ha => Int.ne_of_lt (hs.queued a ha)⟩

/-- The actions of a client that sends one block and gets a positive reply. -/
def submission (n : ℕ) (data : List Byte) : List Action :=
  [.run (.client n) .ok, .run (.client n) (.bytes (List.replicate sizeofPrintreq 0) []),
    .run (.client n) .ok, .run (.client n) .ok, .run (.client n) .ok, .run (.client n) .ok,
    .run (.client n) .ok, .run (.client n) (.bytes data []), .run (.client n) .ok,
    .run (.client n) (.bytes [] []), .run (.client n) .ok, .run (.client n) .ok, .run (.client n) .ok]

set_option maxRecDepth 4000 in
/-- The first job of a new spool. -/
theorem accepted_jobs_keep_their_files_first : ∃ w : Daemon,
    Run Printd.next Careful (initial ⟨[], fun _ => [], 0⟩ []) w ∧
    (∃ r, kept w.shared.history 1 = some ([65], r)) ∧
    ((∀ j d r, kept w.shared.history j = some (d, r) →
      w.shared.spool.file (dataPath j) = some d ∧ w.shared.spool.file (reqsPath j) = some r) ∧
    ∀ n req, w.thread (.client n) = .jobnoTake req →
      (∀ p ∈ w.shared.spool.names, atolLong p.2 ≠ w.shared.nextjob) ∧
      ∀ a, w.shared.live a = true → (w.shared.jobs a).jobid ≠ w.shared.nextjob) := by
  have h : Run Printd.next Careful (initial ⟨[], fun _ => [], 0⟩ []) _ := followAllowed_run
    ([.restart [], .run .main (.names []), .run .main .ok] ++ submission 0 [65]) rfl
  refine ⟨_, h, ⟨_, rfl⟩, accepted_jobs_keep_their_files _ _ _ ⟨?_, ?_⟩ h⟩
  · intro p i hi
    cases hi
  · intro p q i hi
    cases hi

set_option maxRecDepth 4000 in
/-- The daemon dies before the printer thread has written the job number file; the next
client is given the number of the job that waits, and its data file is truncated. -/
theorem accepted_job_overwritten : ∃ w : Daemon,
    Run Printd.next anyStep (initial ⟨[], fun _ => [], 0⟩ []) w ∧
    (∃ r, kept w.shared.history 1 = some ([65], r)) ∧ w.shared.spool.file (dataPath 1) = some [] := by
  have h : Run Printd.next anyStep (initial ⟨[], fun _ => [], 0⟩ []) _ := follow_run
    ([.restart [], .run .main (.names []), .run .main .ok] ++ submission 0 [65] ++
      [.crash, .restart [], .run .main (.names [[49]]), .run .main .ok, .run .main .ok,
        .run .main .ok, .run .main (.addr 7), .run .main .ok, .run .main .ok, .run .main .ok,
        .run .main .ok, .run .main .ok, .run .main .ok, .run .main .ok] ++
      (submission 1 [66]).take 7) rfl
  exact ⟨_, h, ⟨_, rfl⟩, rfl⟩

end PrintdSpool
