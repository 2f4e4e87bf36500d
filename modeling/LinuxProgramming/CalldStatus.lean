import LinuxProgramming.CalldSteps

/-! # The statuses of the children

`client_sigchld` looks for the entry of a child by its process ID, and an entry keeps the
process ID, the status and the options of its last client when that client goes away. A status
reaches the right client when no connection ends while a child of it is dialing or its status
is waiting to be seen. It is not lost when at most one signal is outstanding besides the one
that is handled. -/
namespace CalldStatus

open CStrings Interleaving Calld CalldSteps

/-! ## The right client -/

/-- The entry whose dial `child_done` starts again. -/
def redials : Pc → Option ℕ
  | .doneRel i | .doneRequest i => some i
  | _ => none

/-- A child of the entry's connection was forked with the process ID in the entry. -/
def Dialed (s : State) (slot : Slot) : Prop :=
  ∃ c ∈ s.children, c.owner = slot.conn ∧ c.pid = slot.pid

structure RightClient (s : State) : Prop where
  noted : ∀ c ∈ s.children, ∀ k isOpen stat, c.noted = some (k, isOpen, stat) →
    k = c.owner ∧ isOpen = true
  redial : ∀ i slot, redials s.pc = some i → s.client[i]? = some slot →
    slot.fd ≠ none ∧ slot.argsOf = some slot.conn ∧ Dialed s slot
  args : ∀ c ∈ s.children, c.argsOf = some c.owner

/-- A connection ends, and a request is read, when no child of the entry is left to wait for;
when it ends, no status is waiting either. A new child has a process ID that no entry holds,
and fresh memory holds no status and no process ID of a child. -/
def paired (s : State) : Action → Bool
  | .run ans =>
    match s.pc, ans with
    | .select, .listen _ fresh =>
      fresh.all fun slot => slot.childdone = 0 && !unreaped s slot.pid
    | .scan i _, .eof =>
      match s.client[i]? with
      | some slot => slot.childdone = 0 && !unreaped s slot.pid
      | none => true
    | .scan i _, .data _ _ =>
      match s.client[i]? with
      | some slot => !unreaped s slot.pid
      | none => true
    | .start _ _, .pid p => s.client.all fun slot => slot.pid ≠ p
    | .doneRequest _, .pid p => s.client.all fun slot => slot.pid ≠ p
    | _, _ => true
  | _ => true

/-! ## The invariant -/

/-- An open entry with options of its own client and no child left to wait for. -/
structure Idle (s : State) (slot : Slot) : Prop where
  isOpen : slot.fd ≠ none
  args : slot.argsOf = some slot.conn
  reaped : unreaped s slot.pid = false

def StatusPc (s : State) : Pc → Prop
  | .start i _ => ∀ slot, s.client[i]? = some slot → slot.childdone = 0 ∧ Idle s slot
  | .doneRel i | .doneRequest i =>
    ∀ slot, s.client[i]? = some slot → slot.childdone = 0 ∧ Idle s slot ∧ Dialed s slot
  | .doneCompare i | .doneFail i => ∀ slot, s.client[i]? = some slot → slot.childdone ≠ 0
  | _ => True

structure StatusOK (s : State) : Prop where
  pids : ∀ (i j : ℕ) (c d : Child), s.children[i]? = some c → s.children[j]? = some d →
    c.reaped = false → d.reaped = false → c.pid = d.pid → i = j
  entry : ∀ c ∈ s.children, c.reaped = false → ∃ x ∈ s.client, x.pid = c.pid
  waiting : ∀ c ∈ s.children, c.reaped = false → ∀ x ∈ s.client, x.pid = c.pid →
    x.fd ≠ none ∧ x.conn = c.owner ∧ x.argsOf = some x.conn
  status : ∀ x ∈ s.client, x.childdone ≠ 0 → Idle s x ∧ Dialed s x
  noted : ∀ c ∈ s.children, ∀ k isOpen stat, c.noted = some (k, isOpen, stat) →
    k = c.owner ∧ isOpen = true
  args : ∀ c ∈ s.children, c.argsOf = some c.owner
  pc : StatusPc s s.pc

theorem StatusOK.rightClient {s : State} (h : StatusOK s) : RightClient s where
  noted := h.noted
  redial := by
    intro i slot hpc hi
    have hok := h.pc
    generalize s.pc = pc at hpc hok
    cases pc with
    | doneRel j =>
      cases hpc
      obtain ⟨-, hidle, hdialed⟩ := hok slot hi
      exact ⟨hidle.isOpen, hidle.args, hdialed⟩
    | doneRequest j =>
      cases hpc
      obtain ⟨-, hidle, hdialed⟩ := hok slot hi
      exact ⟨hidle.isOpen, hidle.args, hdialed⟩
    | _ => cases hpc
  args := h.args

/-- While an entry is served, no child of it is left to wait for. -/
theorem StatusOK.served {s : State} (h : StatusOK s) {i : ℕ} {slot : Slot}
    (hi : servedBy s.pc = some i) (hslot : s.client[i]? = some slot) :
    unreaped s slot.pid = false := by
  have hpc := h.pc
  have hstatus := h.status slot (List.mem_of_getElem? hslot)
  generalize s.pc = pc at hi hpc
  cases pc with
  | start j rset =>
    cases hi
    exact (hpc slot hslot).2.reaped
  | doneRel j =>
    cases hi
    exact (hpc slot hslot).2.1.reaped
  | doneRequest j =>
    cases hi
    exact (hpc slot hslot).2.1.reaped
  | doneCompare j =>
    cases hi
    exact (hstatus (hpc slot hslot)).1.reaped
  | doneFail j =>
    cases hi
    exact (hstatus (hpc slot hslot)).1.reaped
  | _ => cases hi

theorem statusPc_quiet {s : State} {pc : Pc} (h : servedBy pc = none) : StatusPc s pc := by
  cases pc <;> trivial

/-! ## Children go on and one entry is rewritten -/

section Goes

variable {s t : State} {k i : ℕ}

/-- The child may have terminated or been waited for, and its status may have been stored. -/
structure Later (c d : Child) : Prop where
  pid : d.pid = c.pid
  owner : d.owner = c.owner
  args : d.argsOf = c.argsOf
  reaped : c.reaped = true → d.reaped = true
  noted : d.noted = c.noted ∨ ∃ stat, d.noted = some (c.owner, true, stat)

structure Goes (s t : State) : Prop where
  kids : ∀ (j : ℕ) (d : Child), t.children[j]? = some d → ∃ c, s.children[j]? = some c ∧ Later c d
  back : ∀ c ∈ s.children, ∃ d ∈ t.children, d.pid = c.pid ∧ d.owner = c.owner

theorem goes_modify {f : Child → Child} (hkids : t.children = s.children.modify k f)
    (hf : ∀ c, s.children[k]? = some c → Later c (f c)) : Goes s t where
  kids := by
    intro j d hd
    obtain ⟨c, hc, ⟨rfl, rfl⟩ | ⟨-, rfl⟩⟩ := getElem?_of_modify (hkids ▸ hd)
    · exact ⟨c, hc, hf c hc⟩
    · exact ⟨d, hc, rfl, rfl, rfl, id, .inl rfl⟩
  back := by
    intro c hc
    obtain ⟨j, hj⟩ := List.mem_iff_getElem?.mp hc
    by_cases hkj : k = j
    · subst hkj
      refine ⟨f c, ?_, (hf c hj).pid, (hf c hj).owner⟩
      exact List.mem_of_getElem? (i := k) (by rw [hkids, List.getElem?_modify_eq, hj]; rfl)
    · exact ⟨c, List.mem_of_getElem? (i := j)
        (by rw [hkids, List.getElem?_modify_ne _ _ hkj, hj]), rfl, rfl⟩

theorem Goes.mem (h : Goes s t) {d : Child} (hd : d ∈ t.children) : ∃ c ∈ s.children, Later c d := by
  obtain ⟨j, hj⟩ := List.mem_iff_getElem?.mp hd
  obtain ⟨c, hc, hl⟩ := h.kids j d hj
  exact ⟨c, List.mem_of_getElem? hc, hl⟩

theorem Later.unreaped {c d : Child} (h : Later c d) (hr : d.reaped = false) : c.reaped = false :=
  Bool.eq_false_iff.mpr fun hc => by simp [h.reaped hc] at hr

theorem Goes.reaped (h : Goes s t) {p : Pid} (hp : unreaped s p = false) : unreaped t p = false := by
  refine unreaped_eq_false.mpr fun d hd he => ?_
  obtain ⟨c, hc, hl⟩ := h.mem hd
  exact hl.reaped (unreaped_eq_false.mp hp c hc (hl.pid ▸ he))

theorem Goes.idle (h : Goes s t) {x : Slot} (hx : Idle s x) : Idle t x :=
  ⟨hx.isOpen, hx.args, h.reaped hx.reaped⟩

theorem Goes.dialed (h : Goes s t) {x : Slot} (hx : Dialed s x) : Dialed t x := by
  obtain ⟨c, hc, ho, hp⟩ := hx
  obtain ⟨d, hd, hdp, hdo⟩ := h.back c hc
  exact ⟨d, hd, hdo.trans ho, hdp.trans hp⟩

theorem Goes.statusPc (h : Goes s t) {pc : Pc}
    (hclient : ∀ i, servedBy pc = some i → t.client[i]? = s.client[i]?) (hs : StatusPc s pc) :
    StatusPc t pc := by
  cases pc with
  | start i rset =>
    intro x hx
    obtain ⟨hzero, hx⟩ := hs x (hclient i rfl ▸ hx)
    exact ⟨hzero, h.idle hx⟩
  | doneRel i =>
    intro x hx
    obtain ⟨hzero, hx, hd⟩ := hs x (hclient i rfl ▸ hx)
    exact ⟨hzero, h.idle hx, h.dialed hd⟩
  | doneRequest i =>
    intro x hx
    obtain ⟨hzero, hx, hd⟩ := hs x (hclient i rfl ▸ hx)
    exact ⟨hzero, h.idle hx, h.dialed hd⟩
  | doneCompare i => exact fun x hx => hs x (hclient i rfl ▸ hx)
  | doneFail i => exact fun x hx => hs x (hclient i rfl ▸ hx)
  | _ => trivial

theorem goes_of_eq (hkids : t.children = s.children) : Goes s t where
  kids := fun _ d hd => ⟨d, hkids ▸ hd, rfl, rfl, rfl, id, .inl rfl⟩
  back := fun c hc => ⟨c, hkids ▸ hc, rfl, rfl⟩

/-- The entry keeps its process ID. It may change hands when no child of it is left to wait for
and no status is kept, and a status that is stored is the last to come. -/
inductive Kept (s t : State) (x y : Slot) : Prop
  | free (hpid : y.pid = x.pid) (hreaped : unreaped s x.pid = false) (hzero : y.childdone = 0)
  | same (hpid : y.pid = x.pid) (hconn : y.conn = x.conn) (hfd : y.fd = x.fd)
      (hargs : y.argsOf = x.argsOf)
      (hdone : y.childdone = 0 ∨ y.childdone = x.childdone ∨ Idle t x ∧ Dialed t x)

theorem Kept.rfl {x : Slot} : Kept s t x x := .same (by rfl) (by rfl) (by rfl) (by rfl) (.inr (.inl (by rfl)))

theorem Kept.pid {x y : Slot} (h : Kept s t x y) : y.pid = x.pid := by
  cases h <;> assumption

theorem Goes.statusOK (h : Goes s t) (hs : StatusOK s) {f : Slot → Slot}
    (hclient : t.client = s.client.modify i f)
    (hf : ∀ x, s.client[i]? = some x → Kept s t x (f x)) (hpc : StatusPc t t.pc) : StatusOK t := by
  have hslot {y : Slot} (hy : y ∈ t.client) : ∃ x ∈ s.client, Kept s t x y := by
    rcases mem_of_modify (hclient ▸ hy) with ⟨x, hx, rfl⟩ | hy
    · exact ⟨x, List.mem_of_getElem? hx, hf x hx⟩
    · exact ⟨y, hy, Kept.rfl⟩
  exact
    { pids := by
        intro j k c d hc hd hrc hrd he
        obtain ⟨c', hc', hlc⟩ := h.kids j c hc
        obtain ⟨d', hd', hld⟩ := h.kids k d hd
        exact hs.pids j k c' d' hc' hd' (hlc.unreaped hrc) (hld.unreaped hrd)
          (by rw [← hlc.pid, ← hld.pid, he])
      entry := by
        intro d hd hr
        obtain ⟨c, hc, hl⟩ := h.mem hd
        obtain ⟨x, hx, hp⟩ := hs.entry c hc (hl.unreaped hr)
        obtain ⟨j, hj⟩ := List.mem_iff_getElem?.mp hx
        rw [hl.pid, ← hp]
        by_cases hij : i = j
        · subst hij
          refine ⟨f x, List.mem_of_getElem? (i := i) ?_, (hf x hj).pid⟩
          rw [hclient, List.getElem?_modify_eq, hj]
          rfl
        · refine ⟨x, List.mem_of_getElem? (i := j) ?_, rfl⟩
          rw [hclient, List.getElem?_modify_ne _ _ hij, hj]
      waiting := by
        intro d hd hr y hy hp
        obtain ⟨c, hc, hl⟩ := h.mem hd
        obtain ⟨x, hx, hk⟩ := hslot hy
        have hxp : x.pid = c.pid := by rw [← hk.pid, hp, hl.pid]
        cases hk with
        | free hpid hreaped hzero =>
          exact absurd hxp.symm (pid_ne_of_unreaped hreaped hc (hl.unreaped hr))
        | same hpid hconn hfd hargs hdone =>
          rw [hfd, hconn, hargs, hl.owner]
          exact hs.waiting c hc (hl.unreaped hr) x hx hxp
      status := by
        intro y hy hne
        obtain ⟨x, hx, hk⟩ := hslot hy
        cases hk with
        | free hpid hreaped hzero => exact absurd hzero hne
        | same hpid hconn hfd hargs hdone =>
          have hxok : Idle t x ∧ Dialed t x := by
            rcases hdone.resolve_left hne with hsame | hnew
            · obtain ⟨hidle, hdialed⟩ := hs.status x hx (hsame ▸ hne)
              exact ⟨h.idle hidle, h.dialed hdialed⟩
            · exact hnew
          obtain ⟨hidle, c, hc, ho, hp⟩ := hxok
          exact ⟨⟨hfd ▸ hidle.isOpen, by rw [hargs, hconn, hidle.args], hpid ▸ hidle.reaped⟩,
            c, hc, ho.trans hconn.symm, hp.trans hpid.symm⟩
      noted := by
        intro d hd k isOpen stat he
        obtain ⟨c, hc, hl⟩ := h.mem hd
        rcases hl.noted with hsame | ⟨stat', hnew⟩
        · rw [hl.owner]
          exact hs.noted c hc k isOpen stat (hsame ▸ he)
        · cases hnew.symm.trans he
          exact ⟨hl.owner.symm, rfl⟩
      args := by
        intro d hd
        obtain ⟨c, hc, hl⟩ := h.mem hd
        rw [hl.args, hl.owner]
        exact hs.args c hc
      pc := hpc }

theorem StatusOK.rewrite (h : StatusOK s) {f : Slot → Slot}
    (hclient : t.client = s.client.modify i f) (hkids : t.children = s.children)
    (hf : ∀ x, s.client[i]? = some x → Kept s t x (f x)) (hpc : StatusPc t t.pc) : StatusOK t :=
  (goes_of_eq hkids).statusOK h hclient hf hpc

theorem StatusOK.keeps (hs : StatusOK s) (h : Goes s t) (hclient : t.client = s.client)
    (hpc : StatusPc t t.pc) : StatusOK t :=
  h.statusOK hs (i := 0) (f := id) (by rw [hclient, List.modify_id]) (fun _ _ => Kept.rfl) hpc

theorem Goes.pc_of_same (h : Goes s t) (hclient : t.client = s.client) {pc : Pc}
    (hs : StatusPc s pc) : StatusPc t pc :=
  h.statusPc (fun _ _ => by rw [hclient]) hs

end Goes

/-! ## Entries and children are added -/

section Add

variable {s t : State} {i : ℕ} {slot : Slot}

theorem StatusOK.alloc (h : StatusOK s) {fresh : List Slot}
    (hfresh : ∀ x ∈ fresh, x.childdone = 0 ∧ unreaped s x.pid = false)
    (hclient : t.client = clientAlloc s.client fresh) (hkids : t.children = s.children)
    (hpc : StatusPc t t.pc) : StatusOK t := by
  have hmem {y : Slot} (hy : y ∈ t.client) :
      y ∈ s.client ∨ y.childdone = 0 ∧ unreaped s y.pid = false := by
    rw [hclient, clientAlloc, List.mem_append] at hy
    rcases hy with hy | hy
    · exact .inl hy
    · obtain ⟨x, hx, rfl⟩ := List.mem_map.mp hy
      exact .inr (hfresh x hx)
  exact
    { pids := fun j k c d hc hd => h.pids j k c d (hkids ▸ hc) (hkids ▸ hd)
      entry := by
        intro c hc hr
        obtain ⟨x, hx, hp⟩ := h.entry c (hkids ▸ hc) hr
        exact ⟨x, by rw [hclient]; exact List.mem_append_left _ hx, hp⟩
      waiting := by
        intro c hc hr y hy hp
        rcases hmem hy with hy | ⟨-, hreaped⟩
        · exact h.waiting c (hkids ▸ hc) hr y hy hp
        · exact absurd hp.symm (pid_ne_of_unreaped hreaped (hkids ▸ hc) hr)
      status := by
        intro y hy hne
        rcases hmem hy with hy | ⟨hzero, -⟩
        · obtain ⟨hidle, hdialed⟩ := h.status y hy hne
          exact ⟨(goes_of_eq hkids).idle hidle, (goes_of_eq hkids).dialed hdialed⟩
        · exact absurd hzero hne
      noted := fun c hc => h.noted c (hkids ▸ hc)
      args := fun c hc => h.args c (hkids ▸ hc)
      pc := hpc }

theorem StatusOK.closed (h : StatusOK s) (hslot : slot ∈ s.client) (hfd : slot.fd = none) :
    unreaped s slot.pid = false ∧ slot.childdone = 0 := by
  constructor
  · refine unreaped_eq_false.mpr fun c hc hp => Bool.of_not_eq_false fun hr => ?_
    exact (h.waiting c hc hr slot hslot hp.symm).1 hfd
  · by_contra hne
    exact (h.status slot hslot hne).1.isOpen hfd

theorem StatusOK.fork (h : StatusOK s) {p : Pid} {child : Child} (hi : s.client[i]? = some slot)
    (hzero : slot.childdone = 0) (hidle : Idle s slot) (hnew : unreaped s p = false)
    (hother : ∀ x ∈ s.client, x.pid ≠ p) (hpid : child.pid = p) (howner : child.owner = slot.conn)
    (hargs : child.argsOf = slot.argsOf) (hnoted : child.noted = none)
    (hclient : t.client = s.client.modify i fun slot => { slot with pid := p })
    (hkids : t.children = s.children ++ [child]) (hpc : StatusPc t t.pc) : StatusOK t := by
  have hmem {y : Slot} (hy : y ∈ t.client) : y = { slot with pid := p } ∨ y ∈ s.client :=
    eq_or_mem_of_modify hi (hclient ▸ hy)
  have hkid {d : Child} (hd : d ∈ t.children) : d ∈ s.children ∨ d = child := by
    rw [hkids] at hd
    simpa using hd
  have hself : { slot with pid := p } ∈ t.client :=
    List.mem_of_getElem? (i := i) (by rw [hclient, List.getElem?_modify_eq, hi]; rfl)
  have hold {c : Child} (hc : c ∈ s.children) (hr : c.reaped = false) : c.pid ≠ p :=
    pid_ne_of_unreaped hnew hc hr
  exact
    { pids := by
        intro j k c d hc hd hrc hrd he
        rw [hkids] at hc hd
        rcases getElem?_of_concat hc with hc' | ⟨rfl, rfl⟩ <;>
          rcases getElem?_of_concat hd with hd' | ⟨rfl, rfl⟩
        · exact h.pids j k c d hc' hd' hrc hrd he
        · exact absurd (he.trans hpid) (hold (List.mem_of_getElem? hc') hrc)
        · exact absurd (he.symm.trans hpid) (hold (List.mem_of_getElem? hd') hrd)
        · rfl
      entry := by
        intro c hc hr
        rcases hkid hc with hc | rfl
        · obtain ⟨x, hx, hp⟩ := h.entry c hc hr
          obtain ⟨j, hj⟩ := List.mem_iff_getElem?.mp hx
          have hij : i ≠ j := by
            rintro rfl
            obtain rfl : slot = x := Option.some.inj (hi.symm.trans hj)
            exact pid_ne_of_unreaped hidle.reaped hc hr hp.symm
          exact ⟨x, List.mem_of_getElem? (i := j)
            (by rw [hclient, List.getElem?_modify_ne _ _ hij, hj]), hp⟩
        · exact ⟨_, hself, hpid.symm⟩
      waiting := by
        intro c hc hr y hy hp
        rcases hkid hc with hc | rfl
        · rcases hmem hy with rfl | hy
          · exact absurd hp.symm (hold hc hr)
          · exact h.waiting c hc hr y hy hp
        · rcases hmem hy with rfl | hy
          · exact ⟨hidle.isOpen, howner.symm, hidle.args⟩
          · exact absurd (hp.trans hpid) (hother y hy)
      status := by
        intro y hy hne
        rcases hmem hy with rfl | hy
        · exact absurd hzero hne
        · obtain ⟨hy', c, hc, hdialed⟩ := h.status y hy hne
          refine ⟨⟨hy'.isOpen, hy'.args, unreaped_eq_false.mpr fun d hd he => ?_⟩,
            c, by rw [hkids]; exact List.mem_append_left _ hc, hdialed⟩
          rcases hkid hd with hd | rfl
          · exact unreaped_eq_false.mp hy'.reaped d hd he
          · exact absurd (he.symm.trans hpid) (hother y hy)
      noted := by
        intro c hc
        rcases hkid hc with hc | rfl
        · exact h.noted c hc
        · intro k isOpen stat he
          rw [hnoted] at he
          cases he
      args := by
        intro c hc
        rcases hkid hc with hc | rfl
        · exact h.args c hc
        · rw [hargs, howner, hidle.args]
      pc := hpc }

end Add

/-! ## The loop -/

section Loop

variable {s t : State} {ans : Answer}

theorem StatusOK.requests (h : StatusOK s) {i : ℕ} {slot : Slot} (hpc : requests s.pc = some i)
    (hi : s.client[i]? = some slot) : slot.childdone = 0 ∧ Idle s slot := by
  have hok := h.pc
  generalize s.pc = pc at hpc hok
  cases pc with
  | start j rset =>
    cases hpc
    exact hok slot hi
  | doneRequest j =>
    cases hpc
    exact ⟨(hok slot hi).1, (hok slot hi).2.1⟩
  | _ => cases hpc

theorem paired_fork {i : ℕ} {p : Pid} (hpc : CalldSteps.requests s.pc = some i)
    (ho : paired s (.run (.pid p)) = true) : ∀ x ∈ s.client, x.pid ≠ p := by
  simp only [paired] at ho
  generalize s.pc = pc at hpc ho
  cases pc with
  | start j rset => simpa using ho
  | doneRequest j => simpa using ho
  | _ => cases hpc

theorem StatusOK.moves (h : StatusOK s) {pc : Pc} (hpc : Moves s pc) : StatusPc s pc := by
  rcases hpc with hquiet | ⟨i, slot, rfl, hi, -, hne⟩ | ⟨i, slot, hs, rfl, -, -⟩
  · exact statusPc_quiet hquiet
  · intro x hx
    obtain rfl : slot = x := Option.some.inj (hi.symm.trans hx)
    exact hne
  · exact (hs ▸ h.pc : StatusPc s (.doneCompare i))

theorem StatusOK.search (h : StatusOK s) (i : ℕ) (tried : Tried) :
    StatusOK ((afterSearch s i tried).goto .dead) :=
  h.rewrite (i := i) rfl rfl (fun _ _ => .same rfl rfl rfl rfl (.inr (.inl rfl))) trivial

theorem StatusOK.loop (h : StatusOK s) (hfds : FdsDistinct s.client)
    (ho : paired s (.run ans) = true) (ht : LoopEffect s ans t) : StatusOK t := by
  cases ht with
  | move hclient hkids _ _ _ hpc =>
    have hgo : Goes s t := goes_of_eq hkids
    exact h.keeps hgo hclient (hgo.pc_of_same hclient (h.moves hpc))
  | clear i hpc hclient hkids =>
    refine h.rewrite hclient hkids (fun _ _ => .same rfl rfl rfl rfl (.inl rfl)) ?_
    rcases hpc with ⟨-, hquiet⟩ | ⟨hs, ht⟩
    · exact statusPc_quiet hquiet
    · rw [ht]
      intro y hy
      obtain ⟨x, hx, ⟨-, rfl⟩ | ⟨hne, -⟩⟩ := getElem?_of_modify (hclient ▸ hy)
      · obtain ⟨hidle, hdialed⟩ := h.status x (List.mem_of_getElem? hx)
          ((hs ▸ h.pc : StatusPc s (.doneFail i)) x hx)
        have hgo : Goes s t := goes_of_eq hkids
        exact ⟨rfl, ⟨hidle.isOpen, hidle.args, hgo.reaped hidle.reaped⟩, hgo.dialed hdialed⟩
      · exact absurd rfl hne
  | release i slot hpc hi ht =>
    subst ht
    have hok : StatusPc s (.doneRequest i) := (hpc ▸ h.pc : StatusPc s (.doneRel i))
    have hgo : Goes s ((s.release slot.pid).goto (.doneRequest i)) := goes_of_eq rfl
    exact h.keeps hgo rfl (hgo.pc_of_same rfl hok)
  | ask i rset slot sysname speed hpc hans hi hopen ht =>
    subst ht hans
    simp only [paired, hpc, hi, Bool.not_eq_true'] at ho
    refine h.rewrite (i := i) rfl rfl (fun x hx => ?_) fun y hy => ?_
    · obtain rfl : slot = x := Option.some.inj (hi.symm.trans hx)
      exact .free rfl ho rfl
    · obtain ⟨x, hx, ⟨-, rfl⟩ | ⟨hne, -⟩⟩ := getElem?_of_modify hy
      · obtain rfl : slot = x := Option.some.inj (hi.symm.trans hx)
        exact ⟨rfl, hopen, rfl, ho⟩
      · exact absurd rfl hne
  | hangup i rset slot fd hpc hans hi hfd ht =>
    subst ht hans
    simp only [paired, hpc, hi, Bool.and_eq_true, decide_eq_true_eq, Bool.not_eq_true'] at ho
    refine h.rewrite (i := i) (hfds.clientDel_eq hi hfd) rfl (fun x hx => ?_) trivial
    obtain rfl : slot = x := Option.some.inj (hi.symm.trans hx)
    exact .free rfl ho.2 ho.1
  | giveUp i tried hfinds ht => exact ht ▸ h.search i tried
  | fork i slot fd tried p line pc hpc hi hfd hfinds hans hp hnew hfree hquiet ht =>
    subst ht hans
    obtain ⟨hzero, hidle⟩ := h.requests hpc hi
    refine (h.search i tried).fork (i := i) (p := p) (afterSearch_slot hi tried) hzero
      ⟨hidle.isOpen, hidle.args, hidle.reaped⟩ hnew (fun y hy => ?_) rfl rfl rfl rfl rfl rfl
      (statusPc_quiet hquiet)
    rcases mem_of_modify hy with ⟨x, hx, rfl⟩ | hy
    · exact paired_fork hpc ho x (List.mem_of_getElem? hx)
    · exact paired_fork hpc ho y hy
  | refuse i slot fd tried errmsg pc hpc hi hfd hfinds hquiet ht =>
    subst ht
    obtain ⟨hzero, hidle⟩ := h.requests hpc hi
    have hui := afterSearch_slot hi tried
    refine (h.search i tried).rewrite (i := i) ((hfds.afterSearch i tried).clientDel_eq hui hfd) rfl
      (fun x hx => ?_) (statusPc_quiet hquiet)
    obtain rfl := Option.some.inj (hui.symm.trans hx)
    exact .free rfl hidle.reaped hzero
  | listen fd fresh client i slot hpc hans halloc hnew hi hfree ht =>
    subst ht hans
    have hu : StatusOK { s with client := client, pc := .top } := by
      rcases halloc with rfl | rfl
      · exact h.keeps (goes_of_eq rfl) rfl trivial
      · simp only [paired, hpc] at ho
        refine h.alloc (fun x hx => ?_) rfl rfl trivial
        simpa using List.all_eq_true.mp ho x hx
    refine hu.rewrite (i := i) rfl rfl (fun x hx => ?_) trivial
    obtain rfl : slot = x := Option.some.inj (hi.symm.trans hx)
    obtain ⟨hreaped, hzero⟩ := hu.closed (List.mem_of_getElem? hi) hfree
    exact .free rfl hreaped hzero

end Loop

/-! ## The children and the handler -/

section Handler

variable {s t : State} {k i : ℕ} {child : Child} {slot : Slot}

/-- A child terminates, or is waited for, and no status is stored. -/
theorem StatusOK.lives (h : StatusOK s) {f : Child → Child} (hclient : t.client = s.client)
    (hkids : t.children = s.children.modify k f) (hpc : t.pc = s.pc ∨ t.pc = .dead)
    (hf : ∀ c, s.children[k]? = some c → Later c (f c)) : StatusOK t := by
  have hgo : Goes s t := goes_modify hkids hf
  refine h.keeps hgo hclient ?_
  rcases hpc with hpc | hpc
  · rw [hpc]
    exact hgo.pc_of_same hclient h.pc
  · rw [hpc]
    trivial

/-- The status of a child is stored with the client whose request forked it. -/
theorem StatusOK.recordIn (h : StatusOK s) {stat : ℕ} (hk : s.children[k]? = some child)
    (hr : child.reaped = false) (hi : s.client[i]? = some slot) (hpid : slot.pid = child.pid) :
    StatusOK (recordIn s k i slot stat) := by
  have hkids := recordIn_children s k i slot stat
  obtain ⟨hopen, hconn, hargs⟩ := h.waiting child (List.mem_of_getElem? hk) hr slot
    (List.mem_of_getElem? hi) hpid
  have hsome : slot.fd.isSome = true := Option.isSome_iff_ne_none.mpr hopen
  have hgo : Goes s (CalldSteps.recordIn s k i slot stat) := by
    refine goes_modify hkids fun c hc => ?_
    obtain rfl : child = c := Option.some.inj (hk.symm.trans hc)
    exact ⟨rfl, rfl, rfl, fun _ => rfl, .inr ⟨stat, by rw [hsome, hconn]⟩⟩
  have hlast : unreaped (CalldSteps.recordIn s k i slot stat) slot.pid = false := by
    refine unreaped_eq_false.mpr fun d hd he => ?_
    obtain ⟨j, hj⟩ := List.mem_iff_getElem?.mp hd
    obtain ⟨c, hc, ⟨rfl, rfl⟩ | ⟨hne, rfl⟩⟩ := getElem?_of_modify (hkids ▸ hj)
    · rfl
    · refine Bool.of_not_eq_false fun hrd => hne ?_
      exact h.pids j k d child hc hk hrd hr (he.trans hpid)
  refine hgo.statusOK h (i := i) rfl (fun x hx => ?_) (hgo.statusPc (fun j hj => ?_) h.pc)
  · obtain rfl : slot = x := Option.some.inj (hi.symm.trans hx)
    refine .same rfl rfl rfl rfl (.inr (.inr ⟨⟨hopen, hargs, hlast⟩, ?_⟩))
    exact hgo.dialed ⟨child, List.mem_of_getElem? hk, hconn.symm, hpid.symm⟩
  · have hne : i ≠ j := by
      rintro rfl
      exact pid_ne_of_unreaped (h.served hj hi) (List.mem_of_getElem? hk) hr hpid.symm
    exact List.getElem?_modify_ne _ _ hne

end Handler

/-! ## Whole runs -/

section Run

variable {files : Files} {s t : State} {a : Action}

theorem statusOK_next (h : StatusOK s) (hfds : FdsDistinct s.client) (ho : paired s a = true)
    (ht : next files s a = some t) : StatusOK t := by
  have hlater {c : Child} : Later c { c with reaped := true } := ⟨rfl, rfl, rfl, fun _ => rfl, .inl rfl⟩
  cases next_effect ht with
  | run ht => exact h.loop hfds ho ht
  | terminate =>
    exact h.lives rfl rfl (.inl rfl) fun c _ => ⟨rfl, rfl, rfl, id, .inl rfl⟩
  | deliver =>
    have hgo : Goes s { s with pending := false, chldFlag := true, handling := true } :=
      goes_of_eq rfl
    exact h.keeps hgo rfl (hgo.pc_of_same rfl h.pc)
  | reap => exact h.lives rfl rfl (.inl rfl) fun c _ => hlater
  | record i _ hk hr _ hi hpid => exact h.recordIn hk hr hi hpid
  | stray => exact h.lives rfl rfl (.inr rfl) fun c _ => hlater
  | waitFails => exact h.keeps (goes_of_eq rfl) rfl trivial

theorem statusOK_initial : StatusOK initial where
  pids := fun i j c d hc => by cases hc
  entry := fun c hc => by cases hc
  waiting := fun c hc => by cases hc
  status := fun x hx => by cases hx
  noted := fun c hc => by cases hc
  args := fun c hc => by cases hc
  pc := trivial

theorem statusOK_run (hrun : Run (next files) (fun s a => paired s a = true) initial s) :
    FdsDistinct s.client ∧ StatusOK s :=
  hrun.invariant (I := fun s => FdsDistinct s.client ∧ StatusOK s) ⟨fds_initial, statusOK_initial⟩
    fun _ _ _ h ho ht => ⟨fds_next h.1 ht, statusOK_next h.2 h.1 ho ht⟩

/-- In a paired run every status goes to the connected client whose request forked the child,
and every dial is made with the options of the client it is made for. -/
theorem statuses_reach_their_clients
    (hrun : Run (next files) (fun s a => paired s a = true) initial s) : RightClient s :=
  (statusOK_run hrun).2.rightClient

end Run

def twoLines : Files := ⟨[⟨[1], [2], [3]⟩, ⟨[1], [2], [4]⟩], [⟨[2], [7], [3]⟩, ⟨[2], [8], [4]⟩]⟩

def emptySlot : Slot := ⟨none, 0, 0, none, 0, [], [], 0, none⟩

def connect (fd : ℕ) : List Action :=
  [.run .ok, .run (.listen fd (List.replicate nalloc emptySlot))]

/-- A client connects and is given entry `i`, its request is read and a child is forked for it. -/
def dial (i fd : ℕ) (p : Pid) : List Action :=
  connect fd ++ [.run .ok, .run (.ready [fd])] ++ List.replicate i (.run .ok) ++
    [.run (.data [1] []), .run (.pid p), .run .ok]

def exits (k status : ℕ) : List Action := [.terminate k (.exited status), .deliver, .handle k]

/-- The dial fails, and `child_done` tries the next line for the client. -/
def redial (p : Pid) : List Action :=
  [.run .ok, .run .ok, .run .ok, .run .ok, .run .ok, .run .ok, .run (.pid p)]

theorem statuses_reach_their_clients_redialed :
    ∃ s, Run (next twoLines) (fun s a => paired s a = true) initial s ∧
      s.children.map Child.noted = [some (0, true, 2), none] ∧ RightClient s := by
  have hrun : Run (next twoLines) (fun s a => paired s a = true) initial _ :=
    followAllowed_run (dial 0 4 100 ++ exits 0 1 ++ redial 200) rfl
  exact ⟨_, hrun, rfl, statuses_reach_their_clients hrun⟩

/-- The first client goes away while its child dials, the second client is given its entry and
sends nothing. The failure of the child is stored with the second client, and `child_done` dials
for it what the first client had asked for. -/
theorem status_of_departed_client :
    ∃ s, Run (next twoLines) anyStep initial s ∧
      s.children.map (fun c => (c.owner, c.argsOf, c.noted)) =
        [(0, some 0, some (1, true, 2)), (1, some 0, none)] ∧ ¬ RightClient s := by
  have hrun : Run (next twoLines) anyStep initial _ :=
    follow_run (dial 0 4 100 ++ [.run .ok, .run (.ready [4]), .run .eof, .run .ok] ++ connect 5 ++
      exits 0 1 ++ redial 200) rfl
  refine ⟨_, hrun, rfl, fun h => ?_⟩
  exact absurd (h.noted _ List.mem_cons_self 1 true 2 rfl).1 (by decide)

/-! ## No status is lost -/

def AllRecorded (s : State) : Prop :=
  ∀ c ∈ s.children, ∀ status, c.fate = .exited status →
    c.reaped = true ∧ c.noted = some (c.owner, true, status + 1)

/-- No child terminates while a signal is pending, and the run is paired. -/
def punctual (s : State) (a : Action) : Bool :=
  paired s a && match a with
    | .terminate _ _ => !s.pending
    | _ => true

def zombie (c : Child) : Bool := c.fate ≠ .running && !c.reaped

/-- Each child to wait for has a signal of its own, pending or being handled. -/
structure CountOK (s : State) : Prop where
  count : s.children.countP zombie = s.pending.toNat + s.handling.toNat
  reaped : ∀ c ∈ s.children, c.reaped = true → c.fate ≠ .running
  noted : ∀ c ∈ s.children, c.reaped = true → ∀ status, c.fate = .exited status →
    c.noted = some (c.owner, true, status + 1)

theorem CountOK.allRecorded {s : State} (h : CountOK s) (hp : s.pending = false)
    (hh : s.handling = false) : AllRecorded s := by
  intro c hc status hf
  have hcount : s.children.countP zombie = 0 := by simp [h.count, hp, hh]
  have hr : c.reaped = true := by
    have := List.countP_eq_zero.mp hcount c hc
    simpa [zombie, hf] using this
  exact ⟨hr, h.noted c hc hr status hf⟩

section Count

variable {s t : State} {k : ℕ} {child : Child}

theorem countP_modify {f : Child → Child} (hk : s.children[k]? = some child) :
    (s.children.modify k f).countP zombie + (zombie child).toNat =
      s.children.countP zombie + (zombie (f child)).toNat := by
  obtain ⟨hlt, he⟩ := List.getElem?_eq_some_iff.mp hk
  have hset : s.children.modify k f = s.children.set k (f child) := by
    simp [List.modify_eq_set_getElem?, hk]
  have hpos : zombie child = true → 0 < s.children.countP zombie := fun hz =>
    List.countP_pos_iff.mpr ⟨child, List.mem_of_getElem? hk, hz⟩
  rw [hset, List.countP_set hlt, he]
  cases hz : zombie child <;> cases hz' : zombie (f child) <;> simp_all

theorem CountOK.of_children (h : CountOK s) (hkids : t.children = s.children)
    (hsignal : t.pending.toNat + t.handling.toNat = s.pending.toNat + s.handling.toNat) :
    CountOK t where
  count := by rw [hkids, h.count, hsignal]
  reaped := fun c hc => h.reaped c (hkids ▸ hc)
  noted := fun c hc => h.noted c (hkids ▸ hc)

theorem CountOK.loop {ans : Answer} (h : CountOK s) (ht : LoopEffect s ans t) : CountOK t := by
  cases ht with
  | move _ hkids _ _ hsignal => exact h.of_children hkids (by rw [hsignal.1, hsignal.2])
  | clear i _ _ hkids _ _ hsignal => exact h.of_children hkids (by rw [hsignal.1, hsignal.2])
  | release i slot hpc hi ht => exact ht ▸ h.of_children rfl rfl
  | ask i rset slot sysname speed hpc hans hi hopen ht => exact ht ▸ h.of_children rfl rfl
  | hangup i rset slot fd hpc hans hi hfd ht => exact ht ▸ h.of_children rfl rfl
  | giveUp i tried hfinds ht => exact ht ▸ h.of_children rfl rfl
  | fork i slot fd tried p line pc hpc hi hfd hfinds hans hp hnew hfree hquiet ht =>
    have hkid {c : Child} (hc : c ∈ t.children) :
        c ∈ s.children ∨ c.reaped = false := by
      rw [ht] at hc
      rcases List.mem_append.mp hc with hc | hc
      · exact .inl hc
      · exact .inr (List.mem_singleton.mp hc ▸ rfl)
    refine ⟨?_, fun c hc hr => ?_, fun c hc hr => ?_⟩
    · rw [ht]
      exact (List.countP_append ..).trans h.count
    · rcases hkid hc with hc | hnew
      · exact h.reaped c hc hr
      · rw [hnew] at hr
        cases hr
    · rcases hkid hc with hc | hnew
      · exact h.noted c hc hr
      · rw [hnew] at hr
        cases hr
  | refuse i slot fd tried errmsg pc hpc hi hfd hfinds hquiet ht => exact ht ▸ h.of_children rfl rfl
  | listen fd fresh client i slot hpc hans halloc hnew hi hfree ht => exact ht ▸ h.of_children rfl rfl

theorem CountOK.terminate (h : CountOK s) {fate : Fate} (hk : s.children[k]? = some child)
    (hrun : child.fate = .running) (hfate : fate ≠ .running) (hp : s.pending = false) :
    CountOK { s.modifyChild k fun child => { child with fate := fate } with pending := true } := by
  have hr : child.reaped = false :=
    Bool.eq_false_iff.mpr fun hr => h.reaped child (List.mem_of_getElem? hk) hr hrun
  refine ⟨?_, fun c hc => ?_, fun c hc => ?_⟩
  · have hcount := countP_modify (f := fun child => { child with fate := fate }) hk
    have hz : zombie child = false := by simp [zombie, hrun]
    have hz' : zombie { child with fate := fate } = true := by simp [zombie, hr, hfate]
    have := h.count
    rw [hz, hz'] at hcount
    rw [hp] at this
    simp only [State.modifyChild, Bool.toNat_true, Bool.toNat_false] at *
    omega
  · rcases mem_of_modify hc with ⟨x, hx, rfl⟩ | hc
    · exact fun _ => hfate
    · exact h.reaped c hc
  · rcases eq_or_mem_of_modify hk hc with rfl | hc
    · intro hr'
      rw [hr] at hr'
      cases hr'
    · exact h.noted c hc

theorem CountOK.reap (h : CountOK s) {f : Child → Child} (hk : s.children[k]? = some child)
    (hr : child.reaped = false) (hfate : child.fate ≠ .running) (hh : s.handling = true)
    (hkids : t.children = s.children.modify k f) (hp : t.pending = s.pending)
    (hh' : t.handling = false) (hf : (f child).reaped = true ∧ (f child).fate = child.fate)
    (hnoted : ∀ status, child.fate = .exited status →
      (f child).noted = some ((f child).owner, true, status + 1)) : CountOK t := by
  have hmem {c : Child} (hc : c ∈ t.children) : c = f child ∨ c ∈ s.children :=
    eq_or_mem_of_modify hk (hkids ▸ hc)
  refine ⟨?_, fun c hc => ?_, fun c hc => ?_⟩
  · have hcount := countP_modify (f := f) hk
    have hz : zombie child = true := by simp [zombie, hr, hfate]
    have hz' : zombie (f child) = false := by simp [zombie, hf.1]
    have := h.count
    rw [hkids, hp, hh']
    rw [hz, hz'] at hcount
    rw [hh] at this
    simp only [Bool.toNat_true, Bool.toNat_false] at *
    omega
  · rcases hmem hc with rfl | hc
    · exact fun _ => hf.2 ▸ hfate
    · exact h.reaped c hc
  · rcases hmem hc with rfl | hc
    · exact fun _ status hs => hnoted status (hf.2 ▸ hs)
    · exact h.noted c hc

theorem countOK_next {files : Files} {a : Action} (h : CountOK s) (hs : StatusOK s)
    (ho : punctual s a = true) (ht : next files s a = some t) : CountOK t := by
  cases next_effect ht with
  | run ht => exact h.loop ht
  | terminate hk hrun hfate =>
    simp only [punctual, Bool.and_eq_true, Bool.not_eq_true'] at ho
    exact h.terminate hk hrun hfate ho.2
  | deliver hp hh => exact h.of_children rfl (by simp [hp, hh])
  | reap hh hk hr hf =>
    refine h.reap hk hr (by simp [hf]) hh rfl rfl rfl ⟨rfl, rfl⟩ fun status hs => ?_
    rw [hf] at hs
    cases hs
  | @record k child status i slot hh hk hr hf hi hpid =>
    obtain ⟨hopen, hconn, -⟩ := hs.waiting child (List.mem_of_getElem? hk) hr slot
      (List.mem_of_getElem? hi) hpid
    refine h.reap hk hr (by simp [hf]) hh (recordIn_children s k i slot (status + 1)) rfl rfl
      ⟨rfl, rfl⟩ fun status' hs' => ?_
    cases hf.symm.trans hs'
    have hsome : slot.fd.isSome = true := Option.isSome_iff_ne_none.mpr hopen
    simp only [hsome, hconn]
  | @stray k child status hk hr hf hnone =>
    -- a child that has not been waited for has an entry
    obtain ⟨x, hx, hp⟩ := hs.entry child (List.mem_of_getElem? hk) hr
    exact absurd hp (hnone x hx)
  | waitFails hh hall =>
    have hzero : s.children.countP zombie = 0 :=
      List.countP_eq_zero.mpr fun c hc => by simp [zombie, hall c hc]
    have := h.count
    simp [hzero, hh] at this

theorem countOK_initial : CountOK initial where
  count := rfl
  reaped := fun c hc => by cases hc
  noted := fun c hc => by cases hc

/-- In a punctual run every child that has exited has been waited for and its status has been
recorded once no signal is left. -/
theorem exits_recorded {files : Files}
    (hrun : Run (next files) (fun s a => punctual s a = true) initial s) (hp : s.pending = false)
    (hh : s.handling = false) : AllRecorded s := by
  have hpaired : ∀ (s : State) a, punctual s a = true → paired s a = true := by
    intro s a ho
    simp only [punctual, Bool.and_eq_true] at ho
    exact ho.1
  have hcount : (FdsDistinct s.client ∧ StatusOK s) ∧ CountOK s :=
    hrun.invariant (I := fun s => (FdsDistinct s.client ∧ StatusOK s) ∧ CountOK s)
      ⟨⟨fds_initial, statusOK_initial⟩, countOK_initial⟩ fun t a u h ho ht =>
        ⟨⟨fds_next h.1.1 ht, statusOK_next h.1.2 h.1.1 (hpaired t a ho) ht⟩,
          countOK_next h.2 h.1.2 ho ht⟩
  exact hcount.2.allRecorded hp hh

end Count

theorem exits_recorded_one :
    ∃ s, Run (next twoLines) (fun s a => punctual s a = true) initial s ∧
      s.children.map Child.fate = [.exited 1] ∧ AllRecorded s := by
  have hrun : Run (next twoLines) (fun s a => punctual s a = true) initial _ :=
    followAllowed_run (dial 0 4 100 ++ exits 0 1) rfl
  exact ⟨_, hrun, rfl, exits_recorded hrun rfl rfl⟩

/-- Two children exit before the first signal is delivered. The handler runs once and waits for
one of them. -/
theorem coalesced_exit_lost :
    ∃ s, Run (next twoLines) anyStep initial s ∧ s.pending = false ∧ s.handling = false ∧
      ¬ AllRecorded s := by
  have hrun : Run (next twoLines) anyStep initial _ :=
    follow_run (dial 0 4 100 ++ dial 1 5 200 ++
      [.terminate 0 (.exited 0), .terminate 1 (.exited 0), .deliver, .handle 0]) rfl
  refine ⟨_, hrun, rfl, rfl, fun h => ?_⟩
  exact absurd (h _ (List.mem_cons_of_mem _ List.mem_cons_self) 0 rfl).1 (by decide)

end CalldStatus
