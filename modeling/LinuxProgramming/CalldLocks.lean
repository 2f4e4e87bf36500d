import LinuxProgramming.CalldSteps

/-! # The lines that children and clients hold

A child holds its line while it runs, and after a successful dial as long as its client is
connected. The lock of the line carries the child's process ID all that time, provided that
process IDs in use by the daemon are not given out again and that neither the end of a
connection nor a second request is read while a child is recorded in the entry. -/
namespace CalldLocks

open CStrings Interleaving Calld CalldSteps

/-! ## Holding a line -/

def Connected (s : State) (k : ℕ) : Prop := ∃ slot ∈ s.client, slot.fd ≠ none ∧ slot.conn = k

def Failed : Fate → Prop
  | .running => False
  | .exited status => status ≠ 0
  | .killed => True

/-- From the fork until the child has terminated and its dial has failed or its client is
gone. A client is there until the end of its connection has been read. -/
def Holds (s : State) (child : Child) : Prop :=
  child.fate = .running ∨ Connected s child.owner ∧ ¬ Failed child.fate

def Exclusive (s : State) : Prop :=
  ∀ (i j : ℕ) (c d : Child), s.children[i]? = some c → s.children[j]? = some d → i ≠ j →
    c.line = d.line → ¬ (Holds s c ∧ Holds s d)

def recorded (s : State) (pid : Pid) : Bool :=
  s.client.any (fun slot => slot.pid = pid) || s.lock.any fun l => l.pid = pid

/-- The end of a connection is read when no child in its entry runs, a request when none is
left to wait for, and the process IDs that the daemon has on record, and those that fresh
memory happens to hold, are not those of new children. -/
def orderly (s : State) : Action → Bool
  | .run ans =>
    match s.pc, ans with
    | .select, .listen _ fresh =>
      fresh.all fun slot => !unreaped s slot.pid && s.lock.all fun l => l.pid ≠ slot.pid
    | .scan i _, .eof =>
      match s.client[i]? with
      | some slot => s.children.all fun c => c.fate ≠ .running || c.pid ≠ slot.pid
      | none => true
    | .scan i _, .data _ _ =>
      match s.client[i]? with
      | some slot => !unreaped s slot.pid
      | none => true
    | .start _ _, .pid p => !recorded s p
    | .doneRequest _, .pid p => !recorded s p
    | _, _ => true
  | _ => true

/-! ## The invariant -/

/-- The child still counts: its status is yet to come or it holds its line. -/
def Active (s : State) (child : Child) : Prop := Holds s child ∨ child.reaped = false

def PcOK (s : State) : Pc → Prop
  | .start i _ | .doneRequest i =>
    ∀ slot, s.client[i]? = some slot → slot.childdone = 0 ∧
      ∀ c ∈ s.children, c.pid = slot.pid → c.reaped = true
  | .doneRel i =>
    ∀ slot, s.client[i]? = some slot → slot.childdone = 0 ∧
      ∀ c ∈ s.children, c.pid = slot.pid → ¬ Active s c
  | .doneCompare i => ∀ slot, s.client[i]? = some slot → slot.childdone ≠ 0
  | .doneFail i => ∀ slot, s.client[i]? = some slot → 2 ≤ slot.childdone
  | _ => True

structure LockOK (s : State) : Prop where
  conns : ∀ (i j : ℕ) (x y : Slot), s.client[i]? = some x → s.client[j]? = some y → x.fd ≠ none →
    y.fd ≠ none → x.conn = y.conn → i = j
  used : ∀ x ∈ s.client, x.fd ≠ none → x.conn < s.nconn
  owners : ∀ c ∈ s.children, c.owner < s.nconn ∧ c.pid ≠ 0 ∧ (c.reaped = true → c.fate ≠ .running)
  pids : ∀ (i j : ℕ) (c d : Child), s.children[i]? = some c → s.children[j]? = some d →
    Active s c → Active s d → c.pid = d.pid → i = j
  locked : ∀ c ∈ s.children, Holds s c → pidOf s.lock c.line = c.pid
  noted : ∀ x ∈ s.client, x.childdone ≠ 0 → ∀ c ∈ s.children, c.pid = x.pid → c.reaped = true
  failed : ∀ x ∈ s.client, 2 ≤ x.childdone → ∀ c ∈ s.children, c.pid = x.pid → ¬ Holds s c
  home : ∀ x ∈ s.client, ∀ c ∈ s.children, Holds s c → x.pid = c.pid → x.fd ≠ none ∧ x.conn = c.owner
  pc : PcOK s s.pc

theorem LockOK.exclusive {s : State} (h : LockOK s) : Exclusive s := by
  intro i j c d hi hj hij hline hold
  have hc := h.locked c (List.mem_of_getElem? hi) hold.1
  have hd := h.locked d (List.mem_of_getElem? hj) hold.2
  exact hij (h.pids i j c d hi hj (.inl hold.1) (.inl hold.2) (by rw [← hc, ← hd, hline]))

/-! ## Steps that take away -/

/-- The entry keeps its process ID; it may have been closed. -/
structure Kept (x y : Slot) : Prop where
  pid : y.pid = x.pid
  conn : y.conn = x.conn
  fd : y.fd = x.fd ∨ y.fd = none

theorem Kept.rfl {x : Slot} : Kept x x := ⟨by rfl, by rfl, .inl (by rfl)⟩

/-- The child may have terminated, and may have been waited for. -/
structure Later (c d : Child) : Prop where
  pid : d.pid = c.pid
  line : d.line = c.line
  owner : d.owner = c.owner
  fate : d.fate = c.fate ∨ c.fate = .running
  reaped : d.reaped = c.reaped ∨ d.reaped = true ∧ d.fate ≠ .running

theorem Later.rfl {c : Child} : Later c c := ⟨by rfl, by rfl, by rfl, .inl (by rfl), .inl (by rfl)⟩

structure Fewer (s t : State) : Prop where
  slots : ∀ (i : ℕ) (y : Slot), t.client[i]? = some y → ∃ x, s.client[i]? = some x ∧ Kept x y
  kids : ∀ (i : ℕ) (d : Child), t.children[i]? = some d → ∃ c, s.children[i]? = some c ∧ Later c d
  nconn : t.nconn = s.nconn

section Fewer

variable {s t : State}

theorem Fewer.mem_slot (h : Fewer s t) {y : Slot} (hy : y ∈ t.client) :
    ∃ x ∈ s.client, Kept x y := by
  obtain ⟨i, hi⟩ := List.mem_iff_getElem?.mp hy
  obtain ⟨x, hx, hk⟩ := h.slots i y hi
  exact ⟨x, List.mem_of_getElem? hx, hk⟩

theorem Fewer.mem_child (h : Fewer s t) {d : Child} (hd : d ∈ t.children) :
    ∃ c ∈ s.children, Later c d := by
  obtain ⟨i, hi⟩ := List.mem_iff_getElem?.mp hd
  obtain ⟨c, hc, hl⟩ := h.kids i d hi
  exact ⟨c, List.mem_of_getElem? hc, hl⟩

theorem Kept.open {x y : Slot} (h : Kept x y) (hy : y.fd ≠ none) : y.fd = x.fd := by
  rcases h.fd with he | he
  · exact he
  · exact absurd he hy

theorem Fewer.connected (h : Fewer s t) {k : ℕ} (hk : Connected t k) : Connected s k := by
  obtain ⟨y, hy, hfd, hc⟩ := hk
  obtain ⟨x, hx, hxy⟩ := h.mem_slot hy
  exact ⟨x, hx, hxy.open hfd ▸ hfd, hxy.conn ▸ hc⟩

theorem Fewer.holds (h : Fewer s t) {c d : Child} (hl : Later c d) (hd : Holds t d) : Holds s c := by
  rcases hl.fate with he | he
  · rcases hd with hd | hd
    · exact .inl (he ▸ hd)
    · exact .inr ⟨hl.owner ▸ h.connected hd.1, he ▸ hd.2⟩
  · exact .inl he

theorem Later.unreaped {c d : Child} (hl : Later c d) (h : d.reaped = false) : c.reaped = false := by
  rcases hl.reaped with he | ⟨he, -⟩
  · exact he ▸ h
  · rw [h] at he
    cases he

theorem Later.stays_reaped {c d : Child} (hl : Later c d) (h : c.reaped = true) :
    d.reaped = true := by
  rcases hl.reaped with he | ⟨he, -⟩
  · exact he ▸ h
  · exact he

theorem Fewer.active (h : Fewer s t) {c d : Child} (hl : Later c d) (hd : Active t d) :
    Active s c :=
  hd.imp (h.holds hl) hl.unreaped

/-- What `Fewer` leaves to show: the locks of the lines still held, that an entry that was
closed is nobody's, that a status that was stored is the last to come, and what the next step
relies on. -/
theorem Fewer.lockOK (h : Fewer s t) (hs : LockOK s)
    (hlock : ∀ d ∈ t.children, Holds t d → pidOf t.lock d.line = d.pid)
    (hclosed : ∀ y ∈ t.client, y.fd = none → (∃ x ∈ s.client, x.fd = none ∧ x.pid = y.pid) ∨
      ∀ d ∈ t.children, d.pid = y.pid → ¬ Holds t d)
    (hdone : ∀ y ∈ t.client, y.childdone ≠ 0 →
      (∃ x ∈ s.client, x.childdone = y.childdone ∧ x.pid = y.pid) ∨
      (∀ d ∈ t.children, d.pid = y.pid → d.reaped = true) ∧
      (2 ≤ y.childdone → ∀ d ∈ t.children, d.pid = y.pid → ¬ Holds t d))
    (hpc : PcOK t t.pc) : LockOK t where
  conns := by
    intro i j x y hx hy hfdx hfdy he
    obtain ⟨x', hx', hkx⟩ := h.slots i x hx
    obtain ⟨y', hy', hky⟩ := h.slots j y hy
    exact hs.conns i j x' y' hx' hy' (hkx.open hfdx ▸ hfdx) (hky.open hfdy ▸ hfdy)
      (by rw [← hkx.conn, ← hky.conn, he])
  used := by
    intro y hy hfd
    obtain ⟨x, hx, hk⟩ := h.mem_slot hy
    rw [h.nconn, hk.conn]
    exact hs.used x hx (hk.open hfd ▸ hfd)
  owners := by
    intro d hd
    obtain ⟨c, hc, hl⟩ := h.mem_child hd
    obtain ⟨howner, hpid, hreaped⟩ := hs.owners c hc
    refine ⟨by rw [h.nconn, hl.owner]; exact howner, by rw [hl.pid]; exact hpid, fun hr => ?_⟩
    rcases hl.reaped with he | ⟨-, he⟩
    · have hc := hreaped (he ▸ hr)
      rcases hl.fate with hf | hf
      · exact hf ▸ hc
      · exact absurd hf hc
    · exact he
  pids := by
    intro i j c d hc hd hac had he
    obtain ⟨c', hc', hlc⟩ := h.kids i c hc
    obtain ⟨d', hd', hld⟩ := h.kids j d hd
    exact hs.pids i j c' d' hc' hd' (h.active hlc hac) (h.active hld had)
      (by rw [← hlc.pid, ← hld.pid, he])
  locked := hlock
  noted := by
    intro y hy hne d hd he
    rcases hdone y hy hne with ⟨x, hx, hsame, hpid⟩ | ⟨hnew, -⟩
    · obtain ⟨c, hc, hl⟩ := h.mem_child hd
      exact hl.stays_reaped (hs.noted x hx (hsame ▸ hne) c hc (by rw [← hl.pid, he, hpid]))
    · exact hnew d hd he
  failed := by
    intro y hy hle d hd he hold
    rcases hdone y hy (by omega) with ⟨x, hx, hsame, hpid⟩ | ⟨-, hnew⟩
    · obtain ⟨c, hc, hl⟩ := h.mem_child hd
      exact hs.failed x hx (hsame ▸ hle) c hc (by rw [← hl.pid, he, hpid]) (h.holds hl hold)
    · exact hnew hle d hd he hold
  home := by
    intro y hy d hd hold he
    obtain ⟨x, hx, hk⟩ := h.mem_slot hy
    obtain ⟨c, hc, hl⟩ := h.mem_child hd
    have hhome := hs.home x hx c hc (h.holds hl hold) (by rw [← hk.pid, he, hl.pid])
    refine ⟨fun hnone => ?_, by rw [hk.conn, hl.owner]; exact hhome.2⟩
    rcases hclosed y hy hnone with ⟨x', hx', hfd, hpid⟩ | hfree
    · exact (hs.home x' hx' c hc (h.holds hl hold) (by rw [hpid, he, hl.pid])).1 hfd
    · exact hfree d hd he.symm hold
  pc := hpc

theorem Fewer.pcOK (h : Fewer s t) {pc : Pc}
    (hc : ∀ i, servedBy pc = some i → t.client[i]? = s.client[i]?) (hs : PcOK s pc) : PcOK t pc := by
  have hpid (slot : Slot) (hr : ∀ c ∈ s.children, c.pid = slot.pid → c.reaped = true) :
      ∀ d ∈ t.children, d.pid = slot.pid → d.reaped = true := by
    intro d hd he
    obtain ⟨c, hc, hl⟩ := h.mem_child hd
    exact hl.stays_reaped (hr c hc (hl.pid ▸ he))
  cases pc with
  | start i rset =>
    intro slot hi
    have hi := hs slot (hc i rfl ▸ hi)
    exact ⟨hi.1, hpid slot hi.2⟩
  | doneRequest i =>
    intro slot hi
    have hi := hs slot (hc i rfl ▸ hi)
    exact ⟨hi.1, hpid slot hi.2⟩
  | doneRel i =>
    intro slot hi
    have hi := hs slot (hc i rfl ▸ hi)
    refine ⟨hi.1, fun d hd he hact => ?_⟩
    obtain ⟨c, hc', hl⟩ := h.mem_child hd
    exact hi.2 c hc' (hl.pid ▸ he) (h.active hl hact)
  | doneCompare i => exact fun slot hi => hs slot (hc i rfl ▸ hi)
  | doneFail i => exact fun slot hi => hs slot (hc i rfl ▸ hi)
  | _ => trivial

end Fewer

theorem LockOK.move {s t : State} (h : LockOK s) (hclient : t.client = s.client)
    (hkids : t.children = s.children) (hnconn : t.nconn = s.nconn)
    (hlock : ∀ line, pidOf t.lock line = pidOf s.lock line) (hpc : PcOK t t.pc) : LockOK t := by
  have hf : Fewer s t :=
    ⟨fun i y hy => ⟨y, hclient ▸ hy, Kept.rfl⟩, fun i d hd => ⟨d, hkids ▸ hd, Later.rfl⟩, hnconn⟩
  refine hf.lockOK h ?_ ?_ ?_ hpc
  · intro d hd hold
    rw [hlock]
    exact h.locked d (hkids ▸ hd) (hf.holds Later.rfl hold)
  · exact fun y hy hfd => .inl ⟨y, hclient ▸ hy, hfd, rfl⟩
  · exact fun y hy _ => .inl ⟨y, hclient ▸ hy, rfl, rfl⟩

/-! ## One entry is rewritten -/

section Slot

variable {s t : State} {i : ℕ} {f : Slot → Slot}

theorem fewer_modifySlot (hclient : t.client = s.client.modify i f)
    (hkids : t.children = s.children) (hnconn : t.nconn = s.nconn)
    (hf : ∀ x, s.client[i]? = some x → Kept x (f x)) : Fewer s t where
  slots := by
    intro j y hy
    rw [hclient] at hy
    obtain ⟨x, hx, ⟨rfl, rfl⟩ | ⟨-, rfl⟩⟩ := getElem?_of_modify hy
    · exact ⟨x, hx, hf x hx⟩
    · exact ⟨y, hx, Kept.rfl⟩
  kids := fun j d hd => ⟨d, hkids ▸ hd, Later.rfl⟩
  nconn := hnconn

/-- The entry stays open or closed as it was, and its status may be cleared. -/
theorem LockOK.rewrite (h : LockOK s) (hclient : t.client = s.client.modify i f)
    (hkids : t.children = s.children) (hnconn : t.nconn = s.nconn)
    (hlock : ∀ line, pidOf t.lock line = pidOf s.lock line)
    (hf : ∀ x, (f x).pid = x.pid ∧ (f x).conn = x.conn ∧ (f x).fd = x.fd ∧
      ((f x).childdone = x.childdone ∨ (f x).childdone = 0))
    (hpc : PcOK t t.pc) : LockOK t := by
  have hfew := fewer_modifySlot hclient hkids hnconn
    fun x _ => ⟨(hf x).1, (hf x).2.1, .inl (hf x).2.2.1⟩
  refine hfew.lockOK h ?_ ?_ ?_ hpc
  · intro d hd hold
    rw [hlock]
    exact h.locked d (hkids ▸ hd) (hfew.holds Later.rfl hold)
  · intro y hy hfd
    rcases mem_of_modify (hclient ▸ hy) with ⟨x, hx, rfl⟩ | hy
    · exact .inl ⟨x, List.mem_of_getElem? hx, (hf x).2.2.1 ▸ hfd, (hf x).1.symm⟩
    · exact .inl ⟨y, hy, hfd, rfl⟩
  · intro y hy hne
    rcases mem_of_modify (hclient ▸ hy) with ⟨x, hx, rfl⟩ | hy
    · rcases (hf x).2.2.2 with hsame | hzero
      · exact .inl ⟨x, List.mem_of_getElem? hx, hsame.symm, (hf x).1.symm⟩
      · exact absurd hzero hne
    · exact .inl ⟨y, hy, rfl, rfl⟩

theorem LockOK.not_connected (h : LockOK s) {slot : Slot} (hi : s.client[i]? = some slot)
    (hopen : slot.fd ≠ none)
    (hclient : t.client = s.client.modify i fun slot => { slot with fd := none }) :
    ¬ Connected t slot.conn := by
  rintro ⟨y, hy, hfd, hconn⟩
  obtain ⟨j, hj⟩ := List.mem_iff_getElem?.mp hy
  rw [hclient] at hj
  obtain ⟨x, hx, ⟨rfl, rfl⟩ | ⟨hne, rfl⟩⟩ := getElem?_of_modify hj
  · exact hfd rfl
  · exact hne (h.conns j i y slot hx hi hfd hopen hconn)

/-- The entry is closed while no child of it runs; its line may be released. -/
theorem LockOK.close (h : LockOK s) {slot : Slot} (hi : s.client[i]? = some slot)
    (hopen : slot.fd ≠ none)
    (hdone : ∀ c ∈ s.children, c.pid = slot.pid → c.fate ≠ .running)
    (hclient : t.client = s.client.modify i fun slot => { slot with fd := none })
    (hkids : t.children = s.children) (hnconn : t.nconn = s.nconn)
    (hlock : ∀ line, pidOf s.lock line ≠ slot.pid → pidOf t.lock line = pidOf s.lock line)
    (hpc : PcOK t t.pc) : LockOK t := by
  have hfew : Fewer s t := fewer_modifySlot hclient hkids hnconn
    fun x _ => ⟨rfl, rfl, .inr rfl⟩
  have hfree : ∀ d ∈ t.children, d.pid = slot.pid → ¬ Holds t d := by
    intro d hd he hold
    have hd' : d ∈ s.children := hkids ▸ hd
    have hhome := h.home slot (List.mem_of_getElem? hi) d hd' (hfew.holds Later.rfl hold) he.symm
    rcases hold with hrun | ⟨hconn, -⟩
    · exact hdone d hd' he hrun
    · exact h.not_connected hi hopen hclient (hhome.2 ▸ hconn)
  refine hfew.lockOK h ?_ ?_ ?_ hpc
  · intro d hd hold
    have hl := h.locked d (hkids ▸ hd) (hfew.holds Later.rfl hold)
    rw [hlock, hl]
    rw [hl]
    exact fun he => hfree d hd he hold
  · intro y hy hfd
    rcases eq_or_mem_of_modify hi (hclient ▸ hy) with rfl | hy
    · exact .inr hfree
    · exact .inl ⟨y, hy, hfd, rfl⟩
  · intro y hy hne
    rcases mem_of_modify (hclient ▸ hy) with ⟨x, hx, rfl⟩ | hy
    · exact .inl ⟨x, List.mem_of_getElem? hx, rfl, rfl⟩
    · exact .inl ⟨y, hy, rfl, rfl⟩

end Slot

/-! ## Steps that add -/

section Add

variable {s t : State} {i : ℕ} {slot : Slot}

/-- A child that holds its line has its process ID in the lock table. -/
theorem LockOK.in_table (h : LockOK s) {c : Child} (hc : c ∈ s.children) (hold : Holds s c) :
    ∃ l ∈ s.lock, l.pid = c.pid := by
  have hl := h.locked c hc hold
  obtain ⟨l, hl', he⟩ := mem_of_pidOf (hl.trans_ne (h.owners c hc).2.1)
  exact ⟨l, hl', he.trans hl⟩

/-- New entries are closed. Whatever process ID they hold is not that of a child that counts. -/
theorem LockOK.alloc (h : LockOK s) {fresh : List Slot}
    (hfresh : ∀ x ∈ fresh, unreaped s x.pid = false ∧ ∀ l ∈ s.lock, l.pid ≠ x.pid)
    (hclient : t.client = clientAlloc s.client fresh)
    (hkids : t.children = s.children) (hnconn : t.nconn = s.nconn) (hlock : t.lock = s.lock)
    (hpc : PcOK t t.pc) : LockOK t := by
  have hmem {y : Slot} (hy : y ∈ t.client) : y ∈ s.client ∨ y.fd = none ∧ ∃ x ∈ fresh, x.pid = y.pid := by
    rw [hclient, clientAlloc, List.mem_append] at hy
    rcases hy with hy | hy
    · exact .inl hy
    · obtain ⟨x, hx, rfl⟩ := List.mem_map.mp hy
      exact .inr ⟨rfl, x, hx, rfl⟩
  have hopen {j : ℕ} {y : Slot} (hy : t.client[j]? = some y) (hfd : y.fd ≠ none) :
      s.client[j]? = some y := by
    rw [hclient, clientAlloc, List.getElem?_append] at hy
    split at hy
    · exact hy
    · obtain ⟨x, -, rfl⟩ := List.mem_map.mp (List.mem_of_getElem? hy)
      exact absurd rfl hfd
  have hholds {c : Child} (hold : Holds t c) : Holds s c := by
    rcases hold with hold | ⟨⟨y, hy, hfd, hk⟩, hf⟩
    · exact .inl hold
    · refine .inr ⟨⟨y, ?_, hfd, hk⟩, hf⟩
      rcases hmem hy with hy | ⟨hnone, -⟩
      · exact hy
      · exact absurd hnone hfd
  have hnot {x : Slot} (hx : x ∈ fresh) {c : Child} (hc : c ∈ s.children) (he : c.pid = x.pid) :
      ¬ Active s c := by
    rintro (hold | hr)
    · obtain ⟨l, hl, hp⟩ := h.in_table hc hold
      exact (hfresh x hx).2 l hl (hp.trans he)
    · exact pid_ne_of_unreaped (hfresh x hx).1 hc hr he
  exact
    { conns := fun j k x y hx hy hfdx hfdy he =>
        h.conns j k x y (hopen hx hfdx) (hopen hy hfdy) hfdx hfdy he
      used := by
        intro y hy hfd
        rw [hnconn]
        rcases hmem hy with hy | ⟨hnone, -⟩
        · exact h.used y hy hfd
        · exact absurd hnone hfd
      owners := fun c hc => hnconn ▸ h.owners c (hkids ▸ hc)
      pids := fun j k c d hc hd hac had =>
        h.pids j k c d (hkids ▸ hc) (hkids ▸ hd) (hac.imp hholds id) (had.imp hholds id)
      locked := fun c hc hold => hlock ▸ h.locked c (hkids ▸ hc) (hholds hold)
      noted := by
        intro y hy hne c hc he
        rcases hmem hy with hy | ⟨-, x, hx, hp⟩
        · exact h.noted y hy hne c (hkids ▸ hc) he
        · have := hnot hx (hkids ▸ hc) (he.trans hp.symm)
          exact Bool.of_not_eq_false fun hr => this (.inr hr)
      failed := by
        intro y hy hle c hc he hold
        rcases hmem hy with hy | ⟨-, x, hx, hp⟩
        · exact h.failed y hy hle c (hkids ▸ hc) he (hholds hold)
        · exact hnot hx (hkids ▸ hc) (he.trans hp.symm) (.inl (hholds hold))
      home := by
        intro y hy c hc hold he
        rcases hmem hy with hy | ⟨-, x, hx, hp⟩
        · exact h.home y hy c (hkids ▸ hc) (hholds hold) he
        · exact absurd (.inl (hholds hold)) (hnot hx (hkids ▸ hc) (he.symm.trans hp.symm))
      pc := hpc }

theorem LockOK.occupy (h : LockOK s) {fd : ℕ} (hi : s.client[i]? = some slot)
    (hclosed : slot.fd = none)
    (hclient : t.client = s.client.modify i fun slot => { slot with fd := some fd, conn := s.nconn })
    (hkids : t.children = s.children) (hnconn : t.nconn = s.nconn + 1) (hlock : t.lock = s.lock)
    (hpc : PcOK t t.pc) : LockOK t := by
  have hslot := List.mem_of_getElem? hi
  have hmem {y : Slot} (hy : y ∈ t.client) :
      y = { slot with fd := some fd, conn := s.nconn } ∨ y ∈ s.client :=
    eq_or_mem_of_modify hi (hclient ▸ hy)
  -- the new connection is not that of any child
  have hholds {c : Child} (hc : c ∈ s.children) (hold : Holds t c) : Holds s c := by
    refine hold.imp id fun ⟨⟨y, hy, hfd, hk⟩, hf⟩ => ⟨⟨y, ?_, hfd, hk⟩, hf⟩
    rcases hmem hy with rfl | hy
    · have := (h.owners c hc).1
      simp only at hk
      omega
    · exact hy
  have hnone {c : Child} (hc : c ∈ s.children) (he : slot.pid = c.pid) : ¬ Holds s c :=
    fun hold => (h.home slot hslot c hc hold he).1 hclosed
  exact
    { conns := by
        intro j k x y hx hy hfdx hfdy he
        obtain ⟨x', hx', ⟨rfl, rfl⟩ | ⟨-, rfl⟩⟩ := getElem?_of_modify (hclient ▸ hx) <;>
          obtain ⟨y', hy', ⟨rfl, rfl⟩ | ⟨-, rfl⟩⟩ := getElem?_of_modify (hclient ▸ hy)
        · rfl
        · exact absurd he.symm (Nat.ne_of_lt (h.used y (List.mem_of_getElem? hy') hfdy))
        · exact absurd he (Nat.ne_of_lt (h.used x (List.mem_of_getElem? hx') hfdx))
        · exact h.conns j k x y hx' hy' hfdx hfdy he
      used := by
        intro y hy hfd
        rw [hnconn]
        rcases hmem hy with rfl | hy
        · exact Nat.lt_succ_self _
        · exact Nat.lt_succ_of_lt (h.used y hy hfd)
      owners := by
        intro c hc
        obtain ⟨howner, hrest⟩ := h.owners c (hkids ▸ hc)
        exact ⟨by omega, hrest⟩
      pids := fun j k c d hc hd hac had =>
        have hc' := hkids ▸ hc
        have hd' := hkids ▸ hd
        h.pids j k c d hc' hd' (hac.imp_left (hholds (List.mem_of_getElem? hc')))
          (had.imp_left (hholds (List.mem_of_getElem? hd')))
      locked := fun c hc hold => hlock ▸ h.locked c (hkids ▸ hc) (hholds (hkids ▸ hc) hold)
      noted := by
        intro y hy hne c hc
        rcases hmem hy with rfl | hy
        · exact h.noted slot hslot hne c (hkids ▸ hc)
        · exact h.noted y hy hne c (hkids ▸ hc)
      failed := by
        intro y hy hle c hc he hold
        have hold' := hholds (hkids ▸ hc) hold
        rcases hmem hy with rfl | hy
        · exact hnone (hkids ▸ hc) he.symm hold'
        · exact h.failed y hy hle c (hkids ▸ hc) he hold'
      home := by
        intro y hy c hc hold he
        have hold' := hholds (hkids ▸ hc) hold
        rcases hmem hy with rfl | hy
        · exact absurd hold' (hnone (hkids ▸ hc) he)
        · exact h.home y hy c (hkids ▸ hc) hold' he
      pc := hpc }

/-- A child is forked for the entry, whose last child has been waited for. -/
theorem LockOK.fork (h : LockOK s) {p : Pid} {line : Name} {child : Child}
    (hi : s.client[i]? = some slot) (hopen : slot.fd ≠ none) (hdone : slot.childdone = 0)
    (hfree : pidOf s.lock line = 0) (hp : p ≠ 0) (hunreaped : unreaped s p = false)
    (hrecorded : recorded s p = false)
    (hpid : child.pid = p) (hline : child.line = line) (howner : child.owner = slot.conn)
    (hfate : child.fate = .running) (hreaped : child.reaped = false)
    (hclient : t.client = s.client.modify i fun slot => { slot with pid := p })
    (hkids : t.children = s.children ++ [child]) (hnconn : t.nconn = s.nconn)
    (hlock : ∀ line', pidOf t.lock line' = if line' = line then p else pidOf s.lock line')
    (hpc : PcOK t t.pc) : LockOK t := by
  have hslot := List.mem_of_getElem? hi
  have hmem {y : Slot} (hy : y ∈ t.client) : y = { slot with pid := p } ∨ y ∈ s.client :=
    eq_or_mem_of_modify hi (hclient ▸ hy)
  have hlook {j : ℕ} {y : Slot} (hy : t.client[j]? = some y) :
      ∃ x, s.client[j]? = some x ∧ x.fd = y.fd ∧ x.conn = y.conn := by
    obtain ⟨x, hx, ⟨rfl, rfl⟩ | ⟨-, rfl⟩⟩ := getElem?_of_modify (hclient ▸ hy)
    · exact ⟨x, hx, rfl, rfl⟩
    · exact ⟨y, hx, rfl, rfl⟩
  have hkid {d : Child} (hd : d ∈ t.children) : d ∈ s.children ∨ d = child := by
    rw [hkids] at hd
    simpa using hd
  have hholds {c : Child} (hold : Holds t c) : Holds s c := by
    refine hold.imp id fun ⟨⟨y, hy, hfd, hk⟩, hf⟩ => ⟨?_, hf⟩
    obtain ⟨j, hj⟩ := List.mem_iff_getElem?.mp hy
    obtain ⟨x, hx, hxfd, hxc⟩ := hlook hj
    exact ⟨x, List.mem_of_getElem? hx, hxfd ▸ hfd, hxc ▸ hk⟩
  -- nobody else has the new process ID
  simp only [recorded, Bool.or_eq_false_iff, List.any_eq_false, decide_eq_true_eq] at hrecorded
  have hother {c : Child} (hc : c ∈ s.children) (he : c.pid = p) : ¬ Active s c := by
    rintro (hold | hr)
    · obtain ⟨l, hl, hlp⟩ := h.in_table hc hold
      exact hrecorded.2 l hl (hlp.trans he)
    · exact pid_ne_of_unreaped hunreaped hc hr he
  exact
    { conns := by
        intro j k x y hx hy hfdx hfdy he
        obtain ⟨x', hx', hxfd, hxc⟩ := hlook hx
        obtain ⟨y', hy', hyfd, hyc⟩ := hlook hy
        exact h.conns j k x' y' hx' hy' (hxfd ▸ hfdx) (hyfd ▸ hfdy) (by rw [hxc, hyc, he])
      used := by
        intro y hy hfd
        rw [hnconn]
        rcases hmem hy with rfl | hy
        · exact h.used slot hslot hfd
        · exact h.used y hy hfd
      owners := by
        intro c hc
        rw [hnconn]
        rcases hkid hc with hc | rfl
        · exact h.owners c hc
        · exact ⟨howner ▸ h.used slot hslot hopen, hpid ▸ hp, fun hr => by simp [hreaped] at hr⟩
      pids := by
        intro j k c d hc hd hac had he
        rw [hkids] at hc hd
        rcases getElem?_of_concat hc with hc' | ⟨rfl, rfl⟩ <;>
          rcases getElem?_of_concat hd with hd' | ⟨rfl, rfl⟩
        · exact h.pids j k c d hc' hd' (hac.imp_left hholds) (had.imp_left hholds) he
        · exact absurd (hac.imp_left hholds) (hother (List.mem_of_getElem? hc') (he.trans hpid))
        · exact absurd (had.imp_left hholds) (hother (List.mem_of_getElem? hd') (he.symm.trans hpid))
        · rfl
      locked := by
        intro c hc hold
        rw [hlock]
        rcases hkid hc with hc | rfl
        · have hl := h.locked c hc (hholds hold)
          rw [if_neg, hl]
          intro he
          exact (h.owners c hc).2.1 (by rw [← hl, he, hfree])
        · rw [if_pos hline, hpid]
      noted := by
        intro y hy hne c hc he
        rcases hmem hy with rfl | hy
        · exact absurd hdone hne
        · rcases hkid hc with hc | rfl
          · exact h.noted y hy hne c hc he
          · exact absurd (he.symm.trans hpid) (hrecorded.1 y hy)
      failed := by
        intro y hy hle c hc he hold
        rcases hmem hy with rfl | hy
        · simp only at hle
          omega
        · rcases hkid hc with hc | rfl
          · exact h.failed y hy hle c hc he (hholds hold)
          · exact hrecorded.1 y hy (he.symm.trans hpid)
      home := by
        intro y hy c hc hold he
        rcases hkid hc with hc | rfl
        · rcases hmem hy with rfl | hy
          · exact absurd (.inl (hholds hold)) (hother hc he.symm)
          · exact h.home y hy c hc (hholds hold) he
        · rcases hmem hy with rfl | hy
          · exact ⟨hopen, howner.symm⟩
          · exact absurd (he.trans hpid) (hrecorded.1 y hy)
      pc := hpc }

end Add

/-! ## The children and the handler -/

theorem fewer_modifyChild {s t : State} {k : ℕ} {f : Child → Child} (hclient : t.client = s.client)
    (hkids : t.children = s.children.modify k f) (hnconn : t.nconn = s.nconn)
    (hf : ∀ c, s.children[k]? = some c → Later c (f c)) : Fewer s t where
  slots := fun j y hy => ⟨y, hclient ▸ hy, Kept.rfl⟩
  kids := by
    intro j d hd
    rw [hkids] at hd
    obtain ⟨c, hc, ⟨rfl, rfl⟩ | ⟨-, rfl⟩⟩ := getElem?_of_modify hd
    · exact ⟨c, hc, hf c hc⟩
    · exact ⟨d, hc, Later.rfl⟩
  nconn := hnconn

theorem LockOK.child {s t : State} (h : LockOK s) {k : ℕ} {f : Child → Child}
    (hclient : t.client = s.client) (hkids : t.children = s.children.modify k f)
    (hnconn : t.nconn = s.nconn) (hlock : t.lock = s.lock) (hpc : t.pc = s.pc ∨ t.pc = .dead)
    (hf : ∀ c, s.children[k]? = some c → Later c (f c)) : LockOK t := by
  have hfew := fewer_modifyChild hclient hkids hnconn hf
  refine hfew.lockOK h ?_ ?_ ?_ ?_
  · intro d hd hold
    obtain ⟨c, hc, hl⟩ := hfew.mem_child hd
    rw [hlock, hl.line, hl.pid]
    exact h.locked c hc (hfew.holds hl hold)
  · exact fun y hy hfd => .inl ⟨y, hclient ▸ hy, hfd, rfl⟩
  · exact fun y hy _ => .inl ⟨y, hclient ▸ hy, rfl, rfl⟩
  · rcases hpc with hpc | hpc <;> rw [hpc]
    · exact hfew.pcOK (fun _ _ => by rw [hclient]) h.pc
    · trivial

/-- While an entry is served, no child of it is left to wait for. -/
theorem LockOK.served {s : State} (h : LockOK s) {i : ℕ} {slot : Slot}
    (hi : servedBy s.pc = some i) (hslot : s.client[i]? = some slot) :
    ∀ c ∈ s.children, c.pid = slot.pid → c.reaped = true := by
  have hpc := h.pc
  generalize s.pc = pc at hi hpc
  cases pc with
  | start j rset =>
    cases hi
    exact (hpc slot hslot).2
  | doneRequest j =>
    cases hi
    exact (hpc slot hslot).2
  | doneRel j =>
    cases hi
    exact fun c hc he => Bool.of_not_eq_false fun hr => (hpc slot hslot).2 c hc he (.inr hr)
  | doneCompare j =>
    cases hi
    exact h.noted slot (List.mem_of_getElem? hslot) (hpc slot hslot)
  | doneFail j =>
    cases hi
    have hle := hpc slot hslot
    exact h.noted slot (List.mem_of_getElem? hslot) (by omega)
  | _ => cases hi

section Handler

variable {s t : State} {k i : ℕ} {child : Child} {slot : Slot}

theorem LockOK.recordIn (h : LockOK s) {status : ℕ} (hk : s.children[k]? = some child)
    (hr : child.reaped = false) (hf : child.fate = .exited status)
    (hi : s.client[i]? = some slot) (hpid : slot.pid = child.pid) :
    LockOK (recordIn s k i slot (status + 1)) := by
  have hkids := recordIn_children s k i slot (status + 1)
  have hfew : Fewer s (CalldSteps.recordIn s k i slot (status + 1)) := by
    refine ⟨fun j y hy => ?_, fun j d hd => ?_, rfl⟩
    · obtain ⟨x, hx, ⟨rfl, rfl⟩ | ⟨-, rfl⟩⟩ := getElem?_of_modify hy
      · exact ⟨x, hx, rfl, rfl, .inl rfl⟩
      · exact ⟨y, hx, Kept.rfl⟩
    · obtain ⟨c, hc, ⟨rfl, rfl⟩ | ⟨-, rfl⟩⟩ := getElem?_of_modify (hkids ▸ hd)
      · obtain rfl : child = c := Option.some.inj (hk.symm.trans hc)
        exact ⟨child, hc, rfl, rfl, rfl, .inl rfl, .inr ⟨rfl, by simp [hf]⟩⟩
      · exact ⟨d, hc, Later.rfl⟩
  -- any other child that counts has another process ID
  have honly (d : Child) (hd : d ∈ (CalldSteps.recordIn s k i slot (status + 1)).children)
      (he : d.pid = child.pid) (hact : Active (CalldSteps.recordIn s k i slot (status + 1)) d) :
      d.reaped = true ∧ d.fate = .exited status := by
    obtain ⟨j, hj⟩ := List.mem_iff_getElem?.mp hd
    obtain ⟨c, hc, ⟨rfl, rfl⟩ | ⟨hne, rfl⟩⟩ := getElem?_of_modify (hkids ▸ hj)
    · obtain rfl : child = c := Option.some.inj (hk.symm.trans hc)
      exact ⟨rfl, hf⟩
    · exact absurd (h.pids j k d child hc hk (hfew.active Later.rfl hact) (.inr hr) he) hne
  refine hfew.lockOK h ?_ ?_ ?_ (hfew.pcOK (fun j hj => ?_) h.pc)
  · intro d hd hold
    obtain ⟨c, hc, hl⟩ := hfew.mem_child hd
    rw [hl.line, hl.pid]
    exact h.locked c hc (hfew.holds hl hold)
  · intro y hy hfd
    rcases mem_of_modify hy with ⟨x, hx, rfl⟩ | hy
    · exact .inl ⟨x, List.mem_of_getElem? hx, hfd, rfl⟩
    · exact .inl ⟨y, hy, hfd, rfl⟩
  · intro y hy hne
    rcases eq_or_mem_of_modify hi hy with rfl | hy
    · refine .inr ⟨fun d hd he => Bool.of_not_eq_false fun hrd => ?_, fun hle d hd he hold => ?_⟩
      · exact Bool.eq_false_iff.mp hrd (honly d hd (he.trans hpid) (.inr hrd)).1
      · have hfate := (honly d hd (he.trans hpid) (.inl hold)).2
        rcases hold with hrun | ⟨-, hok⟩
        · rw [hfate] at hrun
          cases hrun
        · rw [hfate] at hok
          simp only [Failed, ne_eq, not_not] at hok
          simp only [hok] at hle
          omega
    · exact .inl ⟨y, hy, rfl, rfl⟩
  · have hne : j ≠ i := by
      rintro rfl
      exact Bool.eq_false_iff.mp hr (h.served hj hi child (List.mem_of_getElem? hk) hpid.symm)
    exact List.getElem?_modify_ne _ _ (Ne.symm hne)

theorem later_reaped {c : Child} (hk : s.children[k]? = some child) (hf : child.fate ≠ .running)
    (hc : s.children[k]? = some c) : Later c { c with reaped := true } := by
  obtain rfl : child = c := Option.some.inj (hk.symm.trans hc)
  exact ⟨rfl, rfl, rfl, .inl rfl, .inr ⟨rfl, hf⟩⟩

end Handler

/-! ## The loop -/

section Run

variable {files : Files} {s t : State} {ans : Answer}

theorem pcOK_quiet {pc : Pc} (h : servedBy pc = none) : PcOK s pc := by
  cases pc <;> trivial

theorem LockOK.release (h : LockOK s) {i : ℕ} {slot : Slot} (hi : s.client[i]? = some slot)
    (hfree : ∀ c ∈ s.children, c.pid = slot.pid → ¬ Active s c)
    (hdone : slot.childdone = 0) : LockOK ((s.release slot.pid).goto (.doneRequest i)) := by
  have hf : Fewer s ((s.release slot.pid).goto (.doneRequest i)) :=
    ⟨fun j y hy => ⟨y, hy, Kept.rfl⟩, fun j d hd => ⟨d, hd, Later.rfl⟩, rfl⟩
  refine hf.lockOK h ?_ ?_ ?_ ?_
  · intro c hc hold
    have hl := h.locked c hc hold
    have hne : pidOf s.lock c.line ≠ slot.pid := fun he => hfree c hc (hl.symm.trans he) (.inl hold)
    exact (pidOf_lockRel hne).trans hl
  · exact fun y hy hfd => .inl ⟨y, hy, hfd, rfl⟩
  · exact fun y hy _ => .inl ⟨y, hy, rfl, rfl⟩
  · intro x hx
    obtain rfl : slot = x := Option.some.inj (hi.symm.trans hx)
    exact ⟨hdone, fun c hc he => Bool.of_not_eq_false fun hr => hfree c hc he (.inr hr)⟩

theorem LockOK.search (h : LockOK s) (i : ℕ) {tried : Tried} (hfinds : Finds s.lock tried) :
    LockOK ((afterSearch s i tried).goto .dead) :=
  h.rewrite (i := i) rfl rfl rfl hfinds.same (fun _ => ⟨rfl, rfl, rfl, .inl rfl⟩) trivial

theorem recorded_afterSearch {i : ℕ} {tried : Tried} {p : Pid} (hfinds : Finds s.lock tried)
    (hp : p ≠ 0) (h : recorded s p = false) : recorded (afterSearch s i tried) p = false := by
  simp only [recorded, Bool.or_eq_false_iff, List.any_eq_false, decide_eq_true_eq] at h ⊢
  refine ⟨fun y hy => ?_, fun l hl => ?_⟩
  · rcases mem_of_modify hy with ⟨x, hx, rfl⟩ | hy
    · exact h.1 x (List.mem_of_getElem? hx)
    · exact h.1 y hy
  · rcases hfinds.entries l hl with hl | hl
    · exact h.2 l hl
    · exact fun he => hp (he.symm.trans hl)

/-- What `request` relies on. -/
theorem LockOK.requests (h : LockOK s) {i : ℕ} {slot : Slot} (hpc : requests s.pc = some i)
    (hi : s.client[i]? = some slot) :
    slot.childdone = 0 ∧ ∀ c ∈ s.children, c.pid = slot.pid → c.reaped = true := by
  have hok := h.pc
  generalize s.pc = pc at hpc hok
  cases pc with
  | start j rset =>
    cases hpc
    exact hok slot hi
  | doneRequest j =>
    cases hpc
    exact hok slot hi
  | _ => cases hpc

theorem orderly_fork {i : ℕ} {p : Pid} (hpc : CalldSteps.requests s.pc = some i)
    (ho : orderly s (.run (.pid p)) = true) : recorded s p = false := by
  simp only [orderly] at ho
  generalize s.pc = pc at hpc ho
  cases pc with
  | start j rset => simpa using ho
  | doneRequest j => simpa using ho
  | _ => cases hpc

theorem LockOK.moves (h : LockOK s) {pc : Pc} (hpc : Moves s pc) : PcOK s pc := by
  rcases hpc with hquiet | ⟨i, slot, rfl, hi, -, hne⟩ | ⟨i, slot, hs, rfl, hi, hne⟩
  · exact pcOK_quiet hquiet
  · intro x hx
    obtain rfl : slot = x := Option.some.inj (hi.symm.trans hx)
    exact hne
  · intro x hx
    have hx0 : x.childdone ≠ 0 := (hs ▸ h.pc : PcOK s (.doneCompare i)) x hx
    obtain rfl : slot = x := Option.some.inj (hi.symm.trans hx)
    omega

theorem LockOK.clear (h : LockOK s) {i : ℕ}
    (hpc : s.pc = .doneOk i ∧ servedBy t.pc = none ∨ s.pc = .doneFail i ∧ t.pc = .doneRel i)
    (hclient : t.client = s.client.modify i fun slot => { slot with childdone := 0 })
    (hkids : t.children = s.children) (hnconn : t.nconn = s.nconn) (hlock : t.lock = s.lock) :
    LockOK t := by
  refine h.rewrite hclient hkids hnconn (fun _ => by rw [hlock])
    (fun _ => ⟨rfl, rfl, rfl, .inr rfl⟩) ?_
  rcases hpc with ⟨-, hquiet⟩ | ⟨hs, ht⟩
  · exact pcOK_quiet hquiet
  · have hf : Fewer s t := fewer_modifySlot hclient hkids hnconn fun _ _ => ⟨rfl, rfl, .inl rfl⟩
    rw [ht]
    intro y hy
    obtain ⟨x, hx, ⟨-, rfl⟩ | ⟨hne, -⟩⟩ := getElem?_of_modify (hclient ▸ hy)
    · have hle : 2 ≤ x.childdone := (hs ▸ h.pc : PcOK s (.doneFail i)) x hx
      have hmem := List.mem_of_getElem? hx
      refine ⟨rfl, fun c hc he => ?_⟩
      rintro (hold | hr)
      · exact h.failed x hmem hle c (hkids ▸ hc) he (hf.holds Later.rfl hold)
      · exact Bool.eq_false_iff.mp hr (h.noted x hmem (by omega) c (hkids ▸ hc) he)
    · exact absurd rfl hne

theorem LockOK.loop (h : LockOK s) (hfds : FdsDistinct s.client) (ho : orderly s (.run ans) = true) (ht : LoopEffect s ans t) :
    LockOK t := by
  cases ht with
  | move hclient hkids hnconn hlock _ hpc =>
    have hf : Fewer s t :=
      ⟨fun i y hy => ⟨y, hclient ▸ hy, Kept.rfl⟩, fun i d hd => ⟨d, hkids ▸ hd, Later.rfl⟩, hnconn⟩
    exact h.move hclient hkids hnconn (fun _ => by rw [hlock])
      (hf.pcOK (fun _ _ => by rw [hclient]) (h.moves hpc))
  | clear i hpc hclient hkids hnconn hlock => exact h.clear hpc hclient hkids hnconn hlock
  | release i slot hpc hi ht =>
    have hok := (hpc ▸ h.pc : PcOK s (.doneRel i)) slot hi
    exact ht ▸ h.release hi hok.2 hok.1
  | ask i rset slot sysname speed hpc hans hi hopen ht =>
    subst ht hans
    simp only [orderly, hpc, hi, unreaped, Bool.not_eq_true', List.any_eq_false] at ho
    refine h.rewrite (i := i) rfl rfl rfl (fun _ => rfl) (fun x => ⟨rfl, rfl, rfl, .inr rfl⟩) ?_
    intro y hy
    obtain ⟨x, hx, ⟨-, rfl⟩ | ⟨hne, -⟩⟩ := getElem?_of_modify hy
    · obtain rfl : slot = x := Option.some.inj (hi.symm.trans hx)
      refine ⟨rfl, fun c hc he => Bool.of_not_eq_false fun hr => ?_⟩
      exact ho c hc (by simpa [hr] using he)
    · exact absurd rfl hne
  | hangup i rset slot fd hpc hans hi hfd ht =>
    subst ht hans
    simp only [orderly, hpc, hi, List.all_eq_true, Bool.or_eq_true, decide_eq_true_eq] at ho
    refine h.close (i := i) hi (by simp [hfd]) ?_ (hfds.clientDel_eq hi hfd) rfl rfl
      (fun line hne => pidOf_lockRel hne) trivial
    exact fun c hc he => (ho c hc).resolve_right fun hne => hne he
  | giveUp i tried hfinds ht => exact ht ▸ h.search i hfinds
  | fork i slot fd tried p line pc hpc hi hfd hfinds hans hp hnew hfree hquiet ht =>
    subst ht hans
    exact (h.search i hfinds).fork (i := i) (p := p) (afterSearch_slot hi tried) (by simp [hfd])
      (h.requests hpc hi).1 ((hfinds.same line).trans hfree) hp hnew
      (recorded_afterSearch hfinds hp (orderly_fork hpc ho)) rfl rfl rfl rfl rfl rfl rfl rfl
      (fun line' => pidOf_lockSet ..) (pcOK_quiet hquiet)
  | refuse i slot fd tried errmsg pc hpc hi hfd hfinds hquiet ht =>
    subst ht
    have hu := h.search i hfinds
    have hui := afterSearch_slot hi tried
    refine hu.close (i := i) hui (by simp [hfd]) ?_
      ((hfds.afterSearch i tried).clientDel_eq hui hfd) rfl rfl (fun _ _ => rfl) (pcOK_quiet hquiet)
    exact fun c hc he => (h.owners c hc).2.2 ((h.requests hpc hi).2 c hc he)
  | listen fd fresh client i slot hpc hans halloc hnew hi hfree ht =>
    subst ht hans
    have hu : LockOK { s with client := client, pc := .top } := by
      rcases halloc with rfl | rfl
      · exact h.move rfl rfl rfl (fun _ => rfl) trivial
      · simp only [orderly, hpc] at ho
        refine h.alloc (fun x hx => ?_) rfl rfl rfl rfl trivial
        simpa using List.all_eq_true.mp ho x hx
    exact hu.occupy (i := i) hi hfree rfl rfl rfl rfl trivial

theorem lockOK_next {a : Action} (h : LockOK s) (hfds : FdsDistinct s.client) (ho : orderly s a = true)
    (ht : next files s a = some t) : LockOK t := by
  cases next_effect ht with
  | run ht => exact h.loop hfds ho ht
  | @terminate k fate child hk hrun =>
    refine h.child (k := k) rfl rfl rfl rfl (.inl rfl) fun c hc => ?_
    obtain rfl : child = c := Option.some.inj (hk.symm.trans hc)
    exact ⟨rfl, rfl, rfl, .inr hrun, .inl rfl⟩
  | deliver => exact h.move rfl rfl rfl (fun _ => rfl) h.pc
  | reap _ hk _ hf => exact h.child rfl rfl rfl rfl (.inl rfl) fun c => later_reaped hk (by simp [hf])
  | record i _ hk hr hf hi hpid => exact h.recordIn hk hr hf hi hpid
  | stray hk _ hf => exact h.child rfl rfl rfl rfl (.inr rfl) fun c => later_reaped hk (by simp [hf])
  | waitFails => exact h.move rfl rfl rfl (fun _ => rfl) trivial

theorem lockOK_initial : LockOK initial where
  conns := fun i j x y hx => by cases hx
  used := fun x hx => by cases hx
  owners := fun c hc => by cases hc
  pids := fun i j c d hc => by cases hc
  locked := fun c hc => by cases hc
  noted := fun x hx => by cases hx
  failed := fun x hx => by cases hx
  home := fun x hx => by cases hx
  pc := trivial

theorem lockOK_run (hrun : Run (next files) (fun s a => orderly s a = true) initial s) :
    LockOK s :=
  (hrun.invariant (I := fun s => FdsDistinct s.client ∧ LockOK s)
    ⟨fds_initial, lockOK_initial⟩
    fun _ _ _ h ho ht => ⟨fds_next h.1 ht, lockOK_next h.2 h.1 ho ht⟩).2

end Run

/-! ## A line released under a child -/

def oneLine : Files := ⟨[⟨[1], [2], [3]⟩], [⟨[2], [7], [3]⟩]⟩

def emptySlot : Slot := ⟨none, 0, 0, none, 0, [], [], 0, none⟩

/-- A client connects, its request is read and a child is forked for it. -/
def dial (fd : ℕ) (p : Pid) : List Action :=
  [.run .ok, .run (.listen fd (List.replicate nalloc emptySlot)),
    .run .ok, .run (.ready [fd]), .run (.data [1] []), .run (.pid p), .run .ok]

/-- The client of the first child goes away while the child is dialing. The daemon releases the
line, and the next client is given it. -/
def hangup : List Action :=
  dial 4 100 ++ [.run .ok, .run (.ready [4]), .run .eof, .run .ok] ++ dial 4 200

end CalldLocks
