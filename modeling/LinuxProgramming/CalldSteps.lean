import LinuxProgramming.Calld

/-! # What a step of the dialer daemon does

Each step of the loop and each run of the handler is one of a few changes to the entries, the
children and the locks. The properties of whole runs are proved from these alone. -/
namespace CalldSteps

open CStrings Interleaving Calld

/-! ## Lists with one element rewritten -/

theorem getElem?_of_modify {α : Type} {l : List α} {i j : ℕ} {f : α → α} {y : α}
    (h : (l.modify i f)[j]? = some y) :
    ∃ x, l[j]? = some x ∧ (j = i ∧ y = f x ∨ j ≠ i ∧ y = x) := by
  rw [List.getElem?_modify] at h
  obtain ⟨x, hx, he⟩ := Option.map_eq_some_iff.mp h
  refine ⟨x, hx, ?_⟩
  by_cases hij : i = j
  · exact .inl ⟨hij.symm, by rw [← he, if_pos hij]⟩
  · exact .inr ⟨fun h => hij h.symm, by rw [← he, if_neg hij]⟩

theorem getElem?_of_concat {α : Type} {l : List α} {a x : α} {j : ℕ}
    (h : (l ++ [a])[j]? = some x) : l[j]? = some x ∨ j = l.length ∧ x = a := by
  rw [List.getElem?_append] at h
  split at h
  · exact .inl h
  · obtain ⟨hlt, he⟩ := List.getElem?_eq_some_iff.mp h
    simp only [List.length_singleton, List.getElem_singleton] at hlt he
    exact .inr ⟨by omega, he.symm⟩

theorem mem_of_modify {α : Type} {l : List α} {i : ℕ} {f : α → α} {y : α} (hy : y ∈ l.modify i f) :
    (∃ x, l[i]? = some x ∧ y = f x) ∨ y ∈ l := by
  obtain ⟨j, hj⟩ := List.mem_iff_getElem?.mp hy
  obtain ⟨x, hx, ⟨rfl, rfl⟩ | ⟨-, rfl⟩⟩ := getElem?_of_modify hj
  · exact .inl ⟨x, hx, rfl⟩
  · exact .inr (List.mem_of_getElem? hx)

theorem eq_or_mem_of_modify {α : Type} {l : List α} {i : ℕ} {f : α → α} {x y : α}
    (hx : l[i]? = some x) (hy : y ∈ l.modify i f) : y = f x ∨ y ∈ l := by
  refine (mem_of_modify hy).imp_left ?_
  rintro ⟨x', hx', rfl⟩
  rw [Option.some.inj (hx.symm.trans hx')]

/-! ## The lock table -/

theorem pidOf_findLine (lock : List Lock) (line line' : Name) :
    pidOf (findLine lock line) line' = pidOf lock line' := by
  unfold findLine
  split
  · rfl
  · induction lock with
    | nil => simp [pidOf]
    | cons l ls ih =>
      rename_i h
      simp only [List.any_cons, Bool.or_eq_true, not_or] at h
      simp only [List.cons_append, pidOf, ih h.2]

theorem pidOf_setFirst {lock : List Lock} {line : Name} (pid : Pid) (line' : Name)
    (h : ∃ l ∈ lock, l.line = line) :
    pidOf (setFirst lock line pid) line' = if line' = line then pid else pidOf lock line' := by
  induction lock with
  | nil =>
    obtain ⟨l, hl, -⟩ := h
    cases hl
  | cons l ls ih =>
    by_cases hl : l.line = line
    · subst hl
      by_cases he : line' = l.line
      · simp [setFirst, pidOf, he]
      · simp [setFirst, pidOf, he, Ne.symm he]
    · have hrest : ∃ l ∈ ls, l.line = line := by
        obtain ⟨l', hl', he⟩ := h
        rcases List.mem_cons.mp hl' with rfl | hl'
        · exact absurd he hl
        · exact ⟨l', hl', he⟩
      simp only [setFirst, hl, if_false, pidOf, ih hrest]
      by_cases he : l.line = line'
      · have : line' ≠ line := fun h => hl (he.trans h)
        simp [he, this]
      · simp [he]

theorem pidOf_lockSet (lock : List Lock) (line : Name) (pid : Pid) (line' : Name) :
    pidOf (lockSet lock line pid) line' = if line' = line then pid else pidOf lock line' := by
  rw [lockSet, pidOf_setFirst, pidOf_findLine]
  unfold findLine
  split
  · rename_i h
    obtain ⟨l, hl, he⟩ := List.any_eq_true.mp h
    exact ⟨l, hl, by simpa using he⟩
  · exact ⟨⟨line, 0⟩, by simp, rfl⟩

theorem pidOf_lockRel {lock : List Lock} {pid : Pid} {line : Name} (h : pidOf lock line ≠ pid) :
    pidOf (lockRel lock pid) line = pidOf lock line := by
  induction lock with
  | nil => rfl
  | cons l ls ih =>
    simp only [pidOf] at h
    by_cases hl : l.line = line
    · rw [if_pos hl] at h
      simp [lockRel, h, pidOf, hl]
    · rw [if_neg hl] at h
      by_cases hp : l.pid = pid
      · simp [lockRel, hp, pidOf, hl]
      · simp [lockRel, hp, pidOf, hl, ih h]

theorem mem_of_pidOf {lock : List Lock} {line : Name} (h : pidOf lock line ≠ 0) :
    ∃ l ∈ lock, l.pid = pidOf lock line := by
  induction lock with
  | nil => exact absurd rfl h
  | cons l ls ih =>
    simp only [pidOf] at h ⊢
    split
    · exact ⟨l, by simp, rfl⟩
    · rename_i hl
      rw [if_neg hl] at h
      obtain ⟨l', hl', he⟩ := ih h
      exact ⟨l', by simp [hl'], he⟩

theorem mem_findLine {lock : List Lock} {line : Name} {l : Lock} (h : l ∈ findLine lock line) :
    l ∈ lock ∨ l.pid = 0 := by
  unfold findLine at h
  split at h
  · exact .inl h
  · rcases List.mem_append.mp h with h | h
    · exact .inl h
    · rw [List.mem_singleton.mp h]
      exact .inr rfl

/-- What `request` finds out: a line that is free. The locks stay as they are. -/
structure Finds (lock : List Lock) (tried : Tried) : Prop where
  same : ∀ line, pidOf tried.lock line = pidOf lock line
  entries : ∀ l ∈ tried.lock, l ∈ lock ∨ l.pid = 0
  free : ∀ line, tried.outcome = .inl line → pidOf lock line = 0

theorem finds_tryFrom (devices : List Devices) (sysname speed : Name) (rest : List Systems)
    (posn foundone : ℕ) (lock : List Lock) (errmsg : Option ErrMsg) :
    Finds lock (tryFrom devices sysname speed rest posn foundone lock errmsg) := by
  induction rest generalizing posn foundone lock errmsg with
  | nil => exact ⟨fun _ => rfl, fun _ => .inl, fun line h => by cases h⟩
  | cons sys rest ih =>
    simp only [tryFrom]
    split
    · split
      · exact ⟨fun _ => rfl, fun _ => .inl, fun line h => by cases h⟩
      · rename_i dev _
        split
        · rename_i hfree
          refine ⟨pidOf_findLine lock dev.line, fun _ => mem_findLine, fun line h => ?_⟩
          cases h
          rwa [pidOf_findLine] at hfree
        · have h := ih (posn + 1) (foundone + 1) (findLine lock dev.line)
            (some (.locked dev.line (pidOf (findLine lock dev.line) dev.line)))
          refine ⟨fun line => (h.same line).trans (pidOf_findLine _ _ _), fun l hl => ?_,
            fun line hline => pidOf_findLine lock dev.line line ▸ h.free line hline⟩
          rcases h.entries l hl with hl | hl
          · exact mem_findLine hl
          · exact .inr hl
    · exact ih _ _ _ _

theorem finds_request {files : Files} {slot : Slot} {lock : List Lock} {tried : Tried}
    (h : request files slot lock = some tried) : Finds lock tried := by
  obtain ⟨posn, -, rfl⟩ := Option.map_eq_some_iff.mp h
  exact finds_tryFrom ..

/-! ## The handler -/

section Handler

variable {s t : State} {k : ℕ}

def recordIn (s : State) (k i : ℕ) (slot : Slot) (stat : ℕ) : State :=
  ({ s.modifyChild k fun child => { child with reaped := true } with handling := false }.modifySlot i
      fun slot => { slot with childdone := stat }).modifyChild k
    fun child => { child with noted := some (slot.conn, slot.fd.isSome, stat) }

theorem recordIn_children (s : State) (k i : ℕ) (slot : Slot) (stat : ℕ) :
    (recordIn s k i slot stat).children = s.children.modify k fun child =>
      { child with reaped := true, noted := some (slot.conn, slot.fd.isSome, stat) } :=
  List.modify_modify_eq ..

end Handler

/-! ## Requests -/

def unreaped (s : State) (pid : Pid) : Bool := s.children.any fun c => !c.reaped && c.pid = pid

theorem unreaped_eq_false {s : State} {p : Pid} :
    unreaped s p = false ↔ ∀ c ∈ s.children, c.pid = p → c.reaped = true := by
  simp only [unreaped, List.any_eq_false, Bool.and_eq_true, Bool.not_eq_true', decide_eq_true_eq,
    not_and]
  exact ⟨fun h c hc he => Bool.of_not_eq_false fun hr => h c hc hr he,
    fun h c hc hr he => by simp [h c hc he] at hr⟩

theorem pid_ne_of_unreaped {s : State} {p : Pid} {c : Child} (h : unreaped s p = false)
    (hc : c ∈ s.children) (hr : c.reaped = false) : c.pid ≠ p :=
  fun he => Bool.eq_false_iff.mp hr (unreaped_eq_false.mp h c hc he)

section Request

variable {files : Files} {s t : State} {i fd : ℕ} {slot : Slot} {ans : Answer} {pc : Pc}

/-- The state after `request` has gone through the files, with the entry's new place in them. -/
def afterSearch (s : State) (i : ℕ) (tried : Tried) : State :=
  { s with lock := tried.lock }.modifySlot i fun slot =>
    { slot with sysftell := tried.sysftell, foundone := tried.foundone }

theorem tryRequest_cases (h : tryRequest files s i slot fd ans pc = some t) :
    t = s.goto .dead ∨ ∃ tried, Finds s.lock tried ∧
      (t = (afterSearch s i tried).goto .dead ∨
        (∃ p line, ans = .pid p ∧ p ≠ 0 ∧ unreaped s p = false ∧ pidOf s.lock line = 0 ∧
          t = { (afterSearch s i tried).modifySlot i fun slot => { slot with pid := p } with
            children := s.children ++ [⟨p, line, slot.conn, slot.argsOf, .running, false, none⟩]
            lock := lockSet tried.lock line p
            pc := pc }) ∨
        ∃ errmsg, t = (cliDone { afterSearch s i tried with
          errors := s.errors ++ [(slot.conn, errmsg)] } fd).goto pc) := by
  unfold tryRequest at h
  split at h
  · exact .inl (Option.some.inj h).symm
  · rename_i tried hreq
    have hfinds := finds_request hreq
    refine .inr ⟨tried, hfinds, ?_⟩
    dsimp only at h
    split at h
    · exact .inl (Option.some.inj h).symm
    · rename_i line p hline
      split at h
      · cases h
      · rename_i hp
        refine .inr (.inl ⟨p, line, rfl, fun h => hp (.inl h), ?_, hfinds.free line hline,
          (Option.some.inj h).symm⟩)
        refine Bool.eq_false_iff.mpr fun hu => hp (.inr ?_)
        simpa only [unreaped, State.modifySlot, Bool.and_comm] using hu
    · exact .inr (.inr ⟨_, (Option.some.inj h).symm⟩)
    · cases h

end Request

/-! ## The loop -/

def servedBy : Pc → Option ℕ
  | .start i _ | .doneCompare i | .doneFail i | .doneRel i | .doneRequest i => some i
  | _ => none

/-- The entry that `request` is called for. -/
def requests : Pc → Option ℕ
  | .start i _ | .doneRequest i => some i
  | _ => none

def Moves (s : State) (pc : Pc) : Prop :=
  servedBy pc = none ∨
  (∃ i slot, pc = .doneCompare i ∧ s.client[i]? = some slot ∧ slot.fd ≠ none ∧ slot.childdone ≠ 0) ∨
  ∃ i slot, s.pc = .doneCompare i ∧ pc = .doneFail i ∧ s.client[i]? = some slot ∧ slot.childdone ≠ 1

inductive LoopEffect (s : State) (ans : Answer) (t : State) : Prop
  | move (hclient : t.client = s.client) (hkids : t.children = s.children)
      (hnconn : t.nconn = s.nconn) (hlock : t.lock = s.lock)
      (hsignal : t.pending = s.pending ∧ t.handling = s.handling) (hpc : Moves s t.pc)
  | clear (i : ℕ) (hpc : s.pc = .doneOk i ∧ servedBy t.pc = none ∨
        s.pc = .doneFail i ∧ t.pc = .doneRel i)
      (hclient : t.client = s.client.modify i fun slot => { slot with childdone := 0 })
      (hkids : t.children = s.children) (hnconn : t.nconn = s.nconn) (hlock : t.lock = s.lock)
      (hsignal : t.pending = s.pending ∧ t.handling = s.handling)
  | release (i : ℕ) (slot : Slot) (hpc : s.pc = .doneRel i) (hi : s.client[i]? = some slot)
      (ht : t = (s.release slot.pid).goto (.doneRequest i))
  | ask (i : ℕ) (rset : List ℕ) (slot : Slot) (sysname speed : Name) (hpc : s.pc = .scan i rset)
      (hans : ans = .data sysname speed) (hi : s.client[i]? = some slot) (hopen : slot.fd ≠ none)
      (ht : t = (s.modifySlot i fun slot =>
        { slot with
          sysname := sysname
          speed := speed
          childdone := 0
          sysftell := some 0
          foundone := 0
          argsOf := some slot.conn }).goto (.start i rset))
  | hangup (i : ℕ) (rset : List ℕ) (slot : Slot) (fd : ℕ) (hpc : s.pc = .scan i rset)
      (hans : ans = .eof) (hi : s.client[i]? = some slot) (hfd : slot.fd = some fd)
      (ht : t = (cliDone (s.release slot.pid) fd).goto (.scan (i + 1) rset))
  | giveUp (i : ℕ) (tried : Tried) (hfinds : Finds s.lock tried)
      (ht : t = (afterSearch s i tried).goto .dead)
  | fork (i : ℕ) (slot : Slot) (fd : ℕ) (tried : Tried) (p : Pid) (line : Name) (pc : Pc)
      (hpc : requests s.pc = some i) (hi : s.client[i]? = some slot) (hfd : slot.fd = some fd)
      (hfinds : Finds s.lock tried) (hans : ans = .pid p) (hp : p ≠ 0)
      (hnew : unreaped s p = false) (hfree : pidOf s.lock line = 0) (hquiet : servedBy pc = none)
      (ht : t = { (afterSearch s i tried).modifySlot i fun slot => { slot with pid := p } with
        children := s.children ++ [⟨p, line, slot.conn, slot.argsOf, .running, false, none⟩]
        lock := lockSet tried.lock line p
        pc := pc })
  | refuse (i : ℕ) (slot : Slot) (fd : ℕ) (tried : Tried) (errmsg : ErrMsg) (pc : Pc)
      (hpc : requests s.pc = some i) (hi : s.client[i]? = some slot) (hfd : slot.fd = some fd)
      (hfinds : Finds s.lock tried) (hquiet : servedBy pc = none)
      (ht : t = (cliDone { afterSearch s i tried with
        errors := s.errors ++ [(slot.conn, errmsg)] } fd).goto pc)
  | listen (fd : ℕ) (fresh client : List Slot) (i : ℕ) (slot : Slot) (hpc : s.pc = .select)
      (hans : ans = .listen fd fresh)
      (halloc : client = s.client ∨ client = clientAlloc s.client fresh)
      (hnew : ∀ x ∈ client, x.fd ≠ some fd) (hi : client[i]? = some slot) (hfree : slot.fd = none)
      (ht : t = { s with
        client := client.modify i fun slot => { slot with fd := some fd, conn := s.nconn }
        nconn := s.nconn + 1
        maxi := max s.maxi i
        pc := .top })

theorem LoopEffect.still {s : State} {ans : Answer} {flag intr : Bool} {pc : Pc}
    (hpc : servedBy pc = none) :
    LoopEffect s ans { s with chldFlag := flag, intr := intr, pc := pc } :=
  .move rfl rfl rfl rfl ⟨rfl, rfl⟩ (.inl hpc)

section Loop

variable {files : Files} {s t : State} {i : ℕ} {ans : Answer} {pc : Pc}

theorem tryRequest_effect (hpc : requests s.pc = some i) (hquiet : servedBy pc = none)
    (ht : (s.client[i]?.bind fun slot => slot.fd.bind fun fd =>
      tryRequest files s i slot fd ans pc) = some t) : LoopEffect s ans t := by
  obtain ⟨slot, hi, ht⟩ := Option.bind_eq_some_iff.mp ht
  obtain ⟨fd, hfd, ht⟩ := Option.bind_eq_some_iff.mp ht
  rcases tryRequest_cases ht with
    rfl | ⟨tried, hfinds, rfl | ⟨p, line, hans, hp, hnew, hfree, ht⟩ | ⟨errmsg, ht⟩⟩
  · exact .move rfl rfl rfl rfl ⟨rfl, rfl⟩ (.inl rfl)
  · exact .giveUp i tried hfinds rfl
  · exact .fork i slot fd tried p line pc hpc hi hfd hfinds hans hp hnew hfree hquiet ht
  · exact .refuse i slot fd tried errmsg pc hpc hi hfd hfinds hquiet ht

theorem clientAdd_effect {fd : ℕ} {fresh : List Slot} (hpc : s.pc = .select)
    (hnew : ∀ x ∈ s.client, x.fd ≠ some fd)
    (ht : (clientAdd s fd fresh).map (fun s => s.goto .top) = some t) :
    LoopEffect s (.listen fd fresh) t := by
  obtain ⟨u, hu, rfl⟩ := Option.map_eq_some_iff.mp ht
  simp only [clientAdd] at hu
  split at hu
  · rename_i i hfind
    cases hu
    obtain ⟨hlt, he, -⟩ := List.findIdx?_eq_some_iff_getElem.mp hfind
    exact .listen fd fresh s.client i s.client[i] hpc rfl (.inl rfl) hnew
      (List.getElem?_eq_getElem hlt) (of_decide_eq_true he) rfl
  · split at hu
    · rename_i hlen
      cases hu
      have hlt : 0 < fresh.length := by rw [hlen]; decide
      have hget : (clientAlloc s.client fresh)[s.client.length]? =
          some { fresh[0] with fd := none } := by
        simp [clientAlloc, hlt]
      refine .listen fd fresh _ s.client.length _ hpc rfl (.inr rfl) (fun x hx => ?_) hget rfl rfl
      rcases List.mem_append.mp hx with hx | hx
      · exact hnew x hx
      · obtain ⟨y, -, rfl⟩ := List.mem_map.mp hx
        simp
    · cases hu

theorem childDone_effect (files : Files) (hpc : s.pc = pc) (ht : childDone files s ans pc = some t) :
    LoopEffect s ans t := by
  cases pc with
  | flagClear =>
    cases ht
    exact .still rfl
  | doneScan i =>
    simp only [childDone] at ht
    split at ht
    · cases ht
      exact .still rfl
    · obtain ⟨slot, hi, ht⟩ := Option.map_eq_some_iff.mp ht
      split at ht
      · subst ht
        exact .still rfl
      · rename_i hne
        subst ht
        exact .move rfl rfl rfl rfl ⟨rfl, rfl⟩
          (.inr (.inl ⟨i, slot, rfl, hi, fun h => hne (.inl h), fun h => hne (.inr h)⟩))
  | doneCompare i =>
    obtain ⟨slot, hi, ht⟩ := Option.map_eq_some_iff.mp ht
    split at ht
    · subst ht
      exact .still rfl
    · rename_i hne
      subst ht
      exact .move rfl rfl rfl rfl ⟨rfl, rfl⟩ (.inr (.inr ⟨i, slot, hpc, rfl, hi, hne⟩))
  | doneOk i =>
    cases ht
    exact .clear i (.inl ⟨hpc, rfl⟩) rfl rfl rfl rfl ⟨rfl, rfl⟩
  | doneFail i =>
    cases ht
    exact .clear i (.inr ⟨hpc, rfl⟩) rfl rfl rfl rfl ⟨rfl, rfl⟩
  | doneRel i =>
    obtain ⟨slot, hi, rfl⟩ := Option.map_eq_some_iff.mp ht
    exact .release i slot hpc hi rfl
  | doneRequest i => exact tryRequest_effect (by rw [hpc]; rfl) rfl ht
  | doneAgain =>
    cases ht
    split
    · exact .still rfl
    · refine .move rfl rfl rfl rfl ⟨rfl, rfl⟩ (.inl ?_)
      simp only [State.goto]
      split <;> rfl
  | _ => cases ht

theorem loop_effect (ht : loop files s ans s.pc = some t) : LoopEffect s ans t := by
  generalize hpc : s.pc = pc at ht
  cases pc with
  | top =>
    cases ht
    split <;> exact .still rfl
  | select =>
    cases ans with
    | eintr =>
      cases ht
      exact .still rfl
    | ready rset =>
      cases ht
      exact .still rfl
    | fail =>
      cases ht
      exact .still rfl
    | listen fd fresh =>
      simp only [loop] at ht
      split at ht
      · cases ht
      · rename_i hnew
        simp only [List.any_eq_true, decide_eq_true_eq, not_exists, not_and] at hnew
        exact clientAdd_effect hpc hnew ht
    | _ => cases ht
  | scan i rset =>
    simp only [loop] at ht
    split at ht
    · cases ht
      exact .still rfl
    · obtain ⟨slot, hi, ht⟩ := Option.bind_eq_some_iff.mp ht
      split at ht
      · cases ht
        exact .still rfl
      · rename_i clifd hfd
        split at ht
        · cases ht
          exact .still rfl
        · cases ans with
          | fail =>
            cases ht
            exact .still rfl
          | eof =>
            cases ht
            exact .hangup i rset slot clifd hpc rfl hi hfd rfl
          | data sysname speed =>
            cases ht
            exact .ask i rset slot sysname speed hpc rfl hi (by simp [hfd]) rfl
          | _ => cases ht
  | start i rset => exact tryRequest_effect (by rw [hpc]; rfl) rfl ht
  | _ => exact childDone_effect files hpc ht

/-- What the daemon, its children and the handler do in one action. -/
inductive Effect (s : State) : Action → State → Prop
  | run {ans : Answer} {t : State} (h : LoopEffect s ans t) : Effect s (.run ans) t
  | terminate {k : ℕ} {fate : Fate} {child : Child} (hk : s.children[k]? = some child)
      (hrun : child.fate = .running) (hfate : fate ≠ .running) : Effect s (.terminate k fate)
        { s.modifyChild k fun child => { child with fate := fate } with pending := true }
  | deliver (hpending : s.pending = true) (hhandling : s.handling = false) :
      Effect s .deliver { s with pending := false, chldFlag := true, handling := true }
  | reap {k : ℕ} {child : Child} (hhandling : s.handling = true) (hk : s.children[k]? = some child)
      (hr : child.reaped = false) (hf : child.fate = .killed) : Effect s (.handle k)
        { s.modifyChild k fun child => { child with reaped := true } with handling := false }
  | record {k : ℕ} {child : Child} {status : ℕ} (i : ℕ) {slot : Slot} (hhandling : s.handling = true)
      (hk : s.children[k]? = some child) (hr : child.reaped = false)
      (hf : child.fate = .exited status) (hi : s.client[i]? = some slot)
      (hpid : slot.pid = child.pid) : Effect s (.handle k) (recordIn s k i slot (status + 1))
  | stray {k : ℕ} {child : Child} {status : ℕ} (hk : s.children[k]? = some child)
      (hr : child.reaped = false) (hf : child.fate = .exited status)
      (hnone : ∀ slot ∈ s.client, slot.pid ≠ child.pid) : Effect s (.handle k)
        { s.modifyChild k fun child => { child with reaped := true } with
          handling := false, pc := .dead }
  | waitFails (hhandling : s.handling = true) (hall : ∀ c ∈ s.children, c.reaped = true) :
      Effect s .waitFails (s.goto .dead)

theorem sigChld_effect {k : ℕ} (hh : s.handling = true) (ht : sigChld s k = some t) :
    Effect s (.handle k) t := by
  obtain ⟨child, hk, ht⟩ := Option.bind_eq_some_iff.mp ht
  split at ht
  · cases ht
  · rename_i hr
    have hr := Bool.eq_false_iff.mpr hr
    dsimp only at ht
    split at ht
    · cases ht
    · rename_i status hf
      simp only [clientSigchld] at ht
      split at ht
      · rename_i i hfind
        obtain ⟨hlt, he, -⟩ := List.findIdx?_eq_some_iff_getElem.mp hfind
        have hget : s.client[i]? = some s.client[i] := List.getElem?_eq_getElem hlt
        simp only [State.modifyChild, hget] at ht
        obtain rfl := Option.some.inj ht
        exact .record i hh hk hr hf hget (of_decide_eq_true he)
      · rename_i hfind
        cases ht
        exact .stray hk hr hf (by simpa [State.modifyChild] using hfind)
    · rename_i hf
      cases ht
      exact .reap hh hk hr hf

theorem next_effect {a : Action} (ht : next files s a = some t) : Effect s a t := by
  cases a with
  | run ans =>
    simp only [next] at ht
    split at ht
    · cases ht
    · exact .run (loop_effect ht)
  | terminate k fate =>
    obtain ⟨child, hk, ht⟩ := Option.bind_eq_some_iff.mp ht
    split at ht
    · rename_i hf
      cases ht
      exact .terminate hk hf.1 hf.2
    · cases ht
  | deliver =>
    simp only [next] at ht
    split at ht
    · rename_i hd
      cases ht
      exact .deliver hd.1 (by simpa using hd.2.1)
    · cases ht
  | handle k =>
    simp only [next] at ht
    split at ht
    · exact sigChld_effect (by tauto) ht
    · cases ht
  | waitFails =>
    simp only [next] at ht
    split at ht
    · rename_i hw
      cases ht
      exact .waitFails hw.1 (List.all_eq_true.mp hw.2)
    · cases ht

end Loop

/-! ## Descriptors -/

def FdsDistinct (client : List Slot) : Prop :=
  ∀ (i j : ℕ) (x y : Slot), client[i]? = some x → client[j]? = some y → x.fd ≠ none →
    x.fd = y.fd → i = j

theorem FdsDistinct.modify {client : List Slot} (h : FdsDistinct client) (i : ℕ) {f : Slot → Slot}
    (hf : ∀ x, (f x).fd = x.fd ∨ (f x).fd = none) : FdsDistinct (client.modify i f) := by
  have hold {j : ℕ} {y : Slot} (hy : (client.modify i f)[j]? = some y) (hfd : y.fd ≠ none) :
      ∃ x, client[j]? = some x ∧ x.fd = y.fd := by
    obtain ⟨x, hx, ⟨-, rfl⟩ | ⟨-, rfl⟩⟩ := getElem?_of_modify hy
    · exact ⟨x, hx, ((hf x).resolve_right hfd).symm⟩
    · exact ⟨y, hx, rfl⟩
  intro j k x y hx hy hfd he
  obtain ⟨x', hx', hxfd⟩ := hold hx hfd
  obtain ⟨y', hy', hyfd⟩ := hold hy (he ▸ hfd)
  exact h j k x' y' hx' hy' (hxfd ▸ hfd) (by rw [hxfd, hyfd, he])

theorem FdsDistinct.alloc {client : List Slot} (h : FdsDistinct client) (fresh : List Slot) :
    FdsDistinct (clientAlloc client fresh) := by
  have hopen {j : ℕ} {y : Slot} (hy : (clientAlloc client fresh)[j]? = some y) (hfd : y.fd ≠ none) :
      client[j]? = some y := by
    rw [clientAlloc, List.getElem?_append] at hy
    split at hy
    · exact hy
    · obtain ⟨x, -, rfl⟩ := List.mem_map.mp (List.mem_of_getElem? hy)
      exact absurd rfl hfd
  intro j k x y hx hy hfd he
  exact h j k x y (hopen hx hfd) (hopen hy (he ▸ hfd)) hfd he

theorem FdsDistinct.occupy {client : List Slot} (h : FdsDistinct client) {fd : ℕ}
    (hnew : ∀ x ∈ client, x.fd ≠ some fd) (i conn : ℕ) :
    FdsDistinct (client.modify i fun slot => { slot with fd := some fd, conn := conn }) := by
  intro j k x y hx hy hfd he
  obtain ⟨x', hx', ⟨rfl, rfl⟩ | ⟨-, rfl⟩⟩ := getElem?_of_modify hx <;>
    obtain ⟨y', hy', ⟨rfl, rfl⟩ | ⟨-, rfl⟩⟩ := getElem?_of_modify hy
  · rfl
  · exact absurd he.symm (hnew y (List.mem_of_getElem? hy'))
  · exact absurd he (hnew x (List.mem_of_getElem? hx'))
  · exact h j k x y hx' hy' hfd he

theorem FdsDistinct.clientDel {client : List Slot} (h : FdsDistinct client) (fd : ℕ) :
    FdsDistinct (clientDel client fd) := by
  unfold Calld.clientDel
  split
  · exact h.modify _ fun _ => .inr rfl
  · exact h

/-- `client_del` finds the entry that is served. -/
theorem FdsDistinct.clientDel_eq {client : List Slot} (h : FdsDistinct client) {i fd : ℕ}
    {slot : Slot} (hi : client[i]? = some slot) (hfd : slot.fd = some fd) :
    Calld.clientDel client fd = client.modify i fun slot => { slot with fd := none } := by
  have hfind : client.findIdx? (fun slot => slot.fd = some fd) = some i := by
    obtain ⟨hlt, he⟩ := List.getElem?_eq_some_iff.mp hi
    refine List.findIdx?_eq_some_iff_getElem.mpr ⟨hlt, by simp [he, hfd], fun j hj hdup => ?_⟩
    have hjlt : j < client.length := by omega
    have hdup : client[j].fd = some fd := by simpa using hdup
    have := h i j slot client[j] hi (List.getElem?_eq_getElem hjlt) (by simp [hfd]) (by rw [hfd, hdup])
    omega
  simp only [Calld.clientDel, hfind]

theorem afterSearch_slot {s : State} {i : ℕ} {slot : Slot} (hi : s.client[i]? = some slot)
    (tried : Tried) :
    (afterSearch s i tried).client[i]? =
      some { slot with sysftell := tried.sysftell, foundone := tried.foundone } := by
  simp [afterSearch, State.modifySlot, hi]

section Fds

variable {files : Files} {s t : State}

theorem FdsDistinct.afterSearch (h : FdsDistinct s.client) (i : ℕ) (tried : Tried) :
    FdsDistinct (afterSearch s i tried).client :=
  h.modify i fun _ => .inl rfl

theorem fds_loop {ans : Answer} (h : FdsDistinct s.client) (ht : LoopEffect s ans t) :
    FdsDistinct t.client := by
  cases ht with
  | move hclient => exact hclient ▸ h
  | clear i hpc hclient => exact hclient ▸ h.modify i fun _ => .inl rfl
  | release i slot hpc hi ht => exact ht ▸ h
  | ask i rset slot sysname speed hpc hans hi hopen ht => exact ht ▸ h.modify i fun _ => .inl rfl
  | hangup i rset slot fd hpc hans hi hfd ht => exact ht ▸ h.clientDel fd
  | giveUp i tried hfinds ht => exact ht ▸ h.afterSearch i tried
  | fork i slot fd tried p line pc hpc hi hfd hfinds hans hp hnew hfree hquiet ht =>
    exact ht ▸ (h.afterSearch i tried).modify i fun _ => .inl rfl
  | refuse i slot fd tried errmsg pc hpc hi hfd hfinds hquiet ht =>
    exact ht ▸ (h.afterSearch i tried).clientDel fd
  | listen fd fresh client i slot hpc hans halloc hnew hi hfree ht =>
    have hu : FdsDistinct client := by
      rcases halloc with rfl | rfl
      · exact h
      · exact h.alloc fresh
    exact ht ▸ hu.occupy hnew i s.nconn

theorem fds_next {a : Action} (h : FdsDistinct s.client) (ht : next files s a = some t) :
    FdsDistinct t.client := by
  cases next_effect ht with
  | run ht => exact fds_loop h ht
  | record i => exact h.modify i fun _ => .inl rfl
  | _ => exact h

theorem fds_initial : FdsDistinct initial.client := by
  intro i j x y hx
  cases hx

end Fds

end CalldSteps
