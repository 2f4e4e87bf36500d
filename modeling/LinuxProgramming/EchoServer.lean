import Mathlib.Data.Finset.Card
import Mathlib.Data.List.Infix
import LinuxProgramming.CStrings
import LinuxProgramming.Interleaving
import LinuxProgramming.OpenFiles

/-! # The echo server of `select.c`

One process serves all clients through `select` and nonblocking sockets. Connections are numbered in
the order they are opened, whatever descriptor they are on; what arrived on each, what `recv` returned
and what `send` accepted is kept. Descriptors stay below `FD_SETSIZE`. -/
namespace EchoServer

open CStrings Interleaving OpenFiles Function

structure Conn where
  arrived : List Byte
  eof : Bool
  received : List Byte
  sent : List Byte
  deriving DecidableEq, Repr

/-- What `recv` has not returned yet. -/
def Conn.pending (c : Conn) : List Byte := c.arrived.drop c.received.length

/-- In `send` there is no block after a `recv` that failed: `len` is -1 then. -/
inductive Pc where
  | select
  | scan (i : ℕ)
  | accept (i : ℕ)
  | setup (i newSd : ℕ)
  | recv (i : ℕ) (closeConn : Bool)
  | send (i : ℕ) (block : Option (List Byte)) (closeConn : Bool)
  | close (i : ℕ)
  | cleanup (i : ℕ)
  | exited
  deriving DecidableEq, Repr

structure State where
  files : Files Unit
  conns : ℕ → Conn
  listenSd : ℕ
  masterSet : Finset ℕ
  workingSet : Finset ℕ
  maxSd : ℕ
  descReady : ℕ
  noRead : Bool
  pc : Pc

inductive SelectResult where
  | interrupted
  | failed
  | timedOut
  | ready (set : Finset ℕ)

inductive AcceptResult where
  | accepted
  | again
  | interrupted
  | failed

inductive RecvResult where
  | block (n : ℕ)
  | closed
  | again
  | interrupted
  | reset
  | failed

inductive SendResult where
  | accepted (bs : List Byte)
  | again
  | interrupted
  | failed
  | sigpipe

/-- The clients send and hang up, also before they are accepted; `SIGUSR1` switches reading. -/
inductive Action where
  | arrive (id : ℕ) (bs : List Byte)
  | hangUp (id : ℕ)
  | usr1
  | select (result : SelectResult)
  | scan
  | accept (result : AcceptResult)
  | setup (ok : Bool)
  | recv (result : RecvResult)
  | send (result : SendResult)
  | close
  | cleanup

def bufferSize : ℕ := 80

def State.setConn (s : State) (id : ℕ) (c : Conn) : State :=
  { s with conns := Function.update s.conns id c }

def State.closeFd (s : State) (fd : ℕ) : State :=
  { s with files := (s.files.closeFd fd).getD s.files }

def selectStep (s : State) (result : SelectResult) : Option State :=
  match s.pc, result with
  | .select, .interrupted => some s
  | .select, .failed => some { s with pc := .cleanup 0 }
  | .select, .timedOut => some { s with pc := .cleanup 0 }
  | .select, .ready set =>
    if set ⊆ s.masterSet ∧ set ≠ ∅ then
      some { s with workingSet := set, descReady := set.card, pc := .scan 0 }
    else none
  | _, _ => none

def scanStep (s : State) : Option State :=
  match s.pc with
  | .scan i =>
    if i ≤ s.maxSd ∧ 0 < s.descReady then
      if i ∈ s.workingSet then
        some { s with
          descReady := s.descReady - 1
          pc := if i = s.listenSd then .accept i else if s.noRead then .scan (i + 1) else .recv i false }
      else some { s with pc := .scan (i + 1) }
    else some { s with pc := .select }
  | _ => none

/-- After an interruption `continue` tests `new_sd` and leaves the loop. After any other failure the
descriptor -1 is given to `fcntl`, and the process exits. -/
def acceptStep (s : State) (result : AcceptResult) : Option State :=
  match s.pc, result with
  | .accept i, .accepted => some { s with files := s.files.openFile (), pc := .setup i s.files.fresh }
  | .accept i, .again => some { s with pc := .scan (i + 1) }
  | .accept i, .interrupted => some { s with pc := .scan (i + 1) }
  | .accept _, .failed => some { s with pc := .exited }
  | _, _ => none

def setupStep (s : State) (ok : Bool) : Option State :=
  match s.pc with
  | .setup i newSd =>
    if ok then
      some { s with masterSet := insert newSd s.masterSet, maxSd := max s.maxSd newSd, pc := .accept i }
    else some { s.closeFd newSd with pc := .exited }
  | _ => none

/-- Nothing is pending on the descriptor, and the client has hung up or not. -/
def State.drained (s : State) (fd : ℕ) (eof : Bool) : Bool :=
  match s.files.table fd with
  | some (id, _) => (s.conns id).pending = [] && (s.conns id).eof == eof
  | none => false

def recvStep (s : State) (result : RecvResult) : Option State :=
  match s.pc with
  | .recv i closeConn =>
    match result with
    | .block n =>
      match s.files.table i with
      | some (id, _) =>
        let c := s.conns id
        if 0 < n ∧ n ≤ bufferSize ∧ n ≤ c.pending.length then
          some { s.setConn id { c with received := c.received ++ c.pending.take n } with
            pc := .send i (some (c.pending.take n)) closeConn }
        else none
      | none => none
    | .closed => if s.drained i true then some { s with pc := .close i } else none
    | .again =>
      if s.drained i false then some { s with pc := if closeConn then .close i else .scan (i + 1) }
      else none
    | .interrupted => some s
    | .reset => some s
    | .failed => some { s with pc := .send i none true }
  | _ => none

/-- `send` takes some of the block, and the rest is not sent again. -/
def sendStep (s : State) (result : SendResult) : Option State :=
  match s.pc with
  | .send i block closeConn =>
    match result with
    | .accepted bs =>
      match s.files.table i with
      | some (id, _) =>
        let c := s.conns id
        if bs ≠ [] ∧ block.all (bs.isPrefixOf ·) then
          some { s.setConn id { c with sent := c.sent ++ bs } with pc := .recv i closeConn }
        else none
      | none => none
    | .again => some { s with pc := .recv i closeConn }
    | .interrupted => some s
    | .failed => some { s with pc := .close i }
    | .sigpipe => some { s with pc := .exited }
  | _ => none

/-- The largest descriptor of the set that is at most `n`. -/
def lowerMax (set : Finset ℕ) : ℕ → ℕ
  | 0 => 0
  | n + 1 => if n + 1 ∈ set then n + 1 else lowerMax set n

def closeStep (s : State) : Option State :=
  match s.pc with
  | .close i =>
    let masterSet := s.masterSet.erase i
    some { s.closeFd i with
      masterSet, maxSd := if i = s.maxSd then lowerMax masterSet s.maxSd else s.maxSd, pc := .scan (i + 1) }
  | _ => none

def cleanupStep (s : State) : Option State :=
  match s.pc with
  | .cleanup i =>
    if i ≤ s.maxSd then
      if i ∈ s.masterSet then some { s.closeFd i with pc := .cleanup (i + 1) }
      else some { s with pc := .cleanup (i + 1) }
    else some { s with pc := .exited }
  | _ => none

def next (s : State) : Action → Option State
  | .arrive id bs =>
    let c := s.conns id
    if c.eof then none else some (s.setConn id { c with arrived := c.arrived ++ bs })
  | .hangUp id => some (s.setConn id { s.conns id with eof := true })
  | .usr1 => some { s with noRead := !s.noRead }
  | .select result => selectStep s result
  | .scan => scanStep s
  | .accept result => acceptStep s result
  | .setup ok => setupStep s ok
  | .recv result => recvStep s result
  | .send result => sendStep s result
  | .close => closeStep s
  | .cleanup => cleanupStep s

/-- The listening socket is opened beside the files that were open at the start. -/
def start (inherited : Files Unit) : State where
  files := inherited.openFile ()
  conns _ := ⟨[], false, [], []⟩
  listenSd := inherited.fresh
  masterSet := {inherited.fresh}
  workingSet := ∅
  maxSd := inherited.fresh
  descReady := 0
  noRead := false
  pc := .select

/-! ## What the server has in hand -/

/-- The block between `recv` and `send`. -/
def Pc.block : Pc → ℕ → List Byte
  | .send i (some block) _, fd => if fd = i then block else []
  | _, _ => []

def Pc.serves : Pc → ℕ → Prop
  | .close i, fd => fd ≠ i
  | .exited, _ => False
  | _, _ => True

/-- The server has no block in hand and is not about to close a descriptor. -/
def Pc.idle : Pc → Bool
  | .send _ _ _ | .close _ | .exited => false
  | _ => true

theorem Pc.serves_of_idle {pc : Pc} (h : pc.idle = true) (fd : ℕ) : pc.serves fd := by
  cases pc <;> simp_all [Pc.idle, Pc.serves]

theorem Pc.block_of_idle {pc : Pc} (h : pc.idle = true) (fd : ℕ) : pc.block fd = [] := by
  cases pc <;> simp_all [Pc.idle, Pc.block]

def State.openOn (s : State) (fd id : ℕ) : Prop := s.files.table fd = some (id, ()) ∧ s.pc.serves fd

/-- `send` takes the whole block whenever it takes anything, it does not refuse a block for lack of
space, and it takes nothing after a `recv` that failed. -/
def wholeSend (s : State) (a : Action) : Bool :=
  match s.pc, a with
  | .send _ block _, .send (.accepted bs) => some bs == block
  | .send _ (some _) _, .send .again => false
  | _, _ => true

structure Inv (s : State) : Prop where
  exact : ∀ fd id, s.openOn fd id → (s.conns id).sent ++ s.pc.block fd = (s.conns id).received
  sent : ∀ id, (s.conns id).sent <+: (s.conns id).received
  received : ∀ id, (s.conns id).received <+: (s.conns id).arrived
  unborn : ∀ id, s.files.opened ≤ id → (s.conns id).sent = [] ∧ (s.conns id).received = []

theorem start_inv (inherited : Files Unit) : Inv (start inherited) := by
  constructor
  · intro fd id _
    rfl
  · intro id
    exact List.nil_prefix
  · intro id
    exact List.nil_prefix
  · intro id _
    exact ⟨rfl, rfl⟩

section Steps

variable {s t : State}

theorem Inv.fewer (h : Inv s) (hconns : t.conns = s.conns) (hopened : t.files.opened = s.files.opened)
    (hfiles : ∀ fd id, t.openOn fd id → s.openOn fd id ∧ t.pc.block fd = s.pc.block fd) : Inv t := by
  constructor
  · intro fd id hfd
    obtain ⟨hfd, hblock⟩ := hfiles fd id hfd
    rw [hconns, hblock]
    exact h.exact fd id hfd
  · rw [hconns]
    exact h.sent
  · rw [hconns]
    exact h.received
  · rw [hconns, hopened]
    exact h.unborn

theorem Inv.same (h : Inv s) (hconns : t.conns = s.conns) (hfiles : t.files = s.files)
    (hpc : ∀ fd, t.pc.serves fd → s.pc.serves fd ∧ t.pc.block fd = s.pc.block fd) : Inv t := by
  refine h.fewer hconns (by rw [hfiles]) ?_
  rintro fd id ⟨hfd, hserves⟩
  obtain ⟨hserves, hblock⟩ := hpc fd hserves
  exact ⟨⟨hfiles ▸ hfd, hserves⟩, hblock⟩

/-- Steps that change one connection and give or take the block of its descriptor. -/
theorem Inv.change (h : Inv s) {c : Conn} {pc : Pc} {i id : ℕ} (hi : s.openOn i id)
    (hconn : c.sent ++ pc.block i = c.received) (hreceived : c.received <+: c.arrived)
    (hothers : ∀ fd, fd ≠ i → pc.serves fd → s.pc.serves fd ∧ pc.block fd = s.pc.block fd) :
    Inv { s.setConn id c with pc } := by
  have hlive : id < s.files.opened := (s.files.live i id () hi.1).1
  constructor
  · rintro fd id' ⟨hfd, hserves⟩
    by_cases hid : id' = id
    · subst hid
      obtain rfl : fd = i := s.files.one fd i id' () () hfd hi.1
      simpa [State.setConn] using hconn
    · have hne : fd ≠ i := by
        rintro rfl
        have htable : s.files.table fd = some (id', ()) := hfd
        rw [hi.1] at htable
        exact hid (Prod.mk.inj (Option.some.inj htable)).1.symm
      obtain ⟨hserves, hblock⟩ := hothers fd hne hserves
      simpa [State.setConn, update_of_ne hid, hblock] using h.exact fd id' ⟨hfd, hserves⟩
  · intro id'
    by_cases hid : id' = id
    · subst hid
      have hprefix : c.sent <+: c.received := hconn ▸ List.prefix_append _ _
      simpa [State.setConn] using hprefix
    · simpa [State.setConn, update_of_ne hid] using h.sent id'
  · intro id'
    by_cases hid : id' = id
    · subst hid
      simpa [State.setConn] using hreceived
    · simpa [State.setConn, update_of_ne hid] using h.received id'
  · intro id' hid'
    have hid : id' ≠ id := (lt_of_lt_of_le hlive hid').ne'
    simpa [State.setConn, update_of_ne hid] using h.unborn id' hid'

theorem Inv.closeFd (h : Inv s) {i : ℕ} (ht : t.conns = s.conns)
    (hfiles : t.files = (s.files.closeFd i).getD s.files)
    (hpc : ∀ fd, fd ≠ i → t.pc.serves fd → s.pc.serves fd ∧ t.pc.block fd = s.pc.block fd) : Inv t := by
  refine h.fewer ht (by rw [hfiles, Files.opened_closeFd]) ?_
  rintro fd id ⟨hfd, hserves⟩
  rw [hfiles, Files.table_closeFd] at hfd
  obtain ⟨hne, hfd⟩ := Descriptors.close_eq_some.mp hfd
  obtain ⟨hserves, hblock⟩ := hpc fd hne hserves
  exact ⟨⟨hfd, hserves⟩, hblock⟩

theorem Inv.move (h : Inv s) (hidle : s.pc.idle = true) (hconns : t.conns = s.conns)
    (hfiles : t.files = s.files) (hblock : ∀ fd, t.pc.block fd = []) : Inv t :=
  h.same hconns hfiles fun fd _ =>
    ⟨Pc.serves_of_idle hidle fd, (hblock fd).trans (Pc.block_of_idle hidle fd).symm⟩

theorem Inv.selectStep (h : Inv s) {result : SelectResult} (ht : selectStep s result = some t) : Inv t := by
  unfold EchoServer.selectStep at ht
  split at ht
  · cases ht
    exact h
  · rename_i hpc
    cases ht
    exact h.move (by rw [hpc]; rfl) rfl rfl fun _ => rfl
  · rename_i hpc
    cases ht
    exact h.move (by rw [hpc]; rfl) rfl rfl fun _ => rfl
  · rename_i hpc
    split at ht
    · cases ht
      exact h.move (by rw [hpc]; rfl) rfl rfl fun _ => rfl
    · cases ht
  · cases ht

theorem Inv.scanStep (h : Inv s) (ht : scanStep s = some t) : Inv t := by
  unfold EchoServer.scanStep at ht
  split at ht
  · rename_i hpc
    have hidle : s.pc.idle = true := by rw [hpc]; rfl
    -- wherever the loop goes on, no block is in hand
    split_ifs at ht <;> cases ht <;> exact h.move hidle rfl rfl fun _ => rfl
  · cases ht

theorem Inv.openFile (h : Inv s) {i : ℕ} (hidle : s.pc.idle = true) :
    Inv { s with files := s.files.openFile (), pc := .setup i s.files.fresh } := by
  constructor
  · rintro fd id ⟨hfd, -⟩
    have htable : Function.update s.files.table s.files.fresh (some (s.files.opened, ())) fd =
        some (id, ()) := hfd
    by_cases hfresh : fd = s.files.fresh
    · rw [hfresh, update_self] at htable
      obtain rfl : s.files.opened = id := (Prod.mk.inj (Option.some.inj htable)).1
      obtain ⟨hsent, hreceived⟩ := h.unborn s.files.opened le_rfl
      simp [hsent, hreceived, Pc.block]
    · rw [update_of_ne hfresh] at htable
      have hexact := h.exact fd id ⟨htable, Pc.serves_of_idle hidle fd⟩
      rwa [Pc.block_of_idle hidle] at hexact
  · exact h.sent
  · exact h.received
  · intro id hid
    exact h.unborn id (Nat.le_of_succ_le hid)

theorem Inv.acceptStep (h : Inv s) {result : AcceptResult} (ht : acceptStep s result = some t) : Inv t := by
  unfold EchoServer.acceptStep at ht
  split at ht
  · rename_i hpc
    cases ht
    exact h.openFile (by rw [hpc]; rfl)
  · rename_i hpc
    cases ht
    exact h.move (by rw [hpc]; rfl) rfl rfl fun _ => rfl
  · rename_i hpc
    cases ht
    exact h.move (by rw [hpc]; rfl) rfl rfl fun _ => rfl
  · rename_i hpc
    cases ht
    exact h.move (by rw [hpc]; rfl) rfl rfl fun _ => rfl
  · cases ht

theorem Inv.setupStep (h : Inv s) {ok : Bool} (ht : setupStep s ok = some t) : Inv t := by
  unfold EchoServer.setupStep at ht
  split at ht
  · rename_i hpc
    split at ht
    · cases ht
      exact h.move (by rw [hpc]; rfl) rfl rfl fun _ => rfl
    · cases ht
      exact h.closeFd rfl rfl fun fd _ hserves => hserves.elim
  · cases ht

theorem Inv.recvStep (h : Inv s) {result : RecvResult} (ht : recvStep s result = some t) : Inv t := by
  unfold EchoServer.recvStep at ht
  split at ht
  · rename_i i closeConn hpc
    have hidle : s.pc.idle = true := by rw [hpc]; rfl
    cases result with
    | block n =>
      cases hi : s.files.table i with
      | none => simp [hi] at ht
      | some file =>
        obtain ⟨id, ⟨⟩⟩ := file
        simp only [hi] at ht
        split at ht
        · cases ht
          have hopen : s.openOn i id := ⟨hi, Pc.serves_of_idle hidle i⟩
          have hexact := h.exact i id hopen
          rw [Pc.block_of_idle hidle, List.append_nil] at hexact
          obtain ⟨rest, hrest⟩ := h.received id
          refine h.change hopen ?_ ?_ ?_
          · simp [Pc.block, hexact]
          · refine ⟨rest.drop n, ?_⟩
            simp [Conn.pending, ← hrest]
          · intro fd hne _
            refine ⟨Pc.serves_of_idle hidle fd, ?_⟩
            rw [Pc.block_of_idle hidle]
            exact if_neg hne
        · cases ht
    | closed =>
      simp only at ht
      split at ht
      · cases ht
        exact h.move hidle rfl rfl fun _ => rfl
      · cases ht
    | again =>
      simp only at ht
      split at ht
      · cases ht
        refine h.move hidle rfl rfl fun fd => ?_
        cases closeConn <;> rfl
      · cases ht
    | interrupted =>
      cases ht
      exact h
    | reset =>
      cases ht
      exact h
    | failed =>
      cases ht
      exact h.move hidle rfl rfl fun _ => rfl
  · cases ht

/-- With a whole block taken the connection is exact again; with no block taken it was. -/
theorem Inv.sendStep (h : Inv s) {result : SendResult} (hwhole : wholeSend s (.send result) = true)
    (ht : sendStep s result = some t) : Inv t := by
  unfold EchoServer.sendStep at ht
  split at ht
  · rename_i i block closeConn hpc
    simp only [wholeSend, hpc] at hwhole
    cases result with
    | accepted bs =>
      obtain rfl : some bs = block := by simpa using hwhole
      cases hi : s.files.table i with
      | none => simp [hi] at ht
      | some file =>
        obtain ⟨id, ⟨⟩⟩ := file
        simp only [hi] at ht
        split at ht
        · cases ht
          have hopen : s.openOn i id := ⟨hi, by rw [hpc]; trivial⟩
          have hexact := h.exact i id hopen
          refine h.change hopen ?_ (h.received id) ?_
          · simpa [hpc, Pc.block] using hexact
          · intro fd hne _
            simp [hpc, Pc.serves, Pc.block, hne]
        · cases ht
    | again =>
      cases block with
      | none =>
        cases ht
        exact h.same rfl rfl fun fd _ => by simp [hpc, Pc.serves, Pc.block]
      | some block => simp at hwhole
    | interrupted =>
      cases ht
      exact h
    | failed =>
      cases ht
      refine h.same rfl rfl fun fd hne => ?_
      have hne : fd ≠ i := hne
      cases block <;> simp [hpc, Pc.serves, Pc.block, hne]
    | sigpipe =>
      cases ht
      exact h.same rfl rfl fun fd hserves => hserves.elim
  · cases ht

theorem Inv.closeStep (h : Inv s) (ht : closeStep s = some t) : Inv t := by
  unfold EchoServer.closeStep at ht
  split at ht
  · rename_i i hpc
    cases ht
    refine h.closeFd rfl rfl fun fd hne _ => ?_
    simp [hpc, Pc.serves, Pc.block, hne]
  · cases ht

theorem Inv.cleanupStep (h : Inv s) (ht : cleanupStep s = some t) : Inv t := by
  unfold EchoServer.cleanupStep at ht
  split at ht
  · rename_i i hpc
    have hidle : s.pc.idle = true := by rw [hpc]; rfl
    split_ifs at ht
    · cases ht
      refine h.closeFd rfl rfl fun fd _ _ => ?_
      exact ⟨Pc.serves_of_idle hidle fd, (Pc.block_of_idle hidle fd).symm⟩
    · cases ht
      exact h.move hidle rfl rfl fun _ => rfl
    · cases ht
      exact h.move hidle rfl rfl fun _ => rfl
  · cases ht

/-- What the clients do touches neither what was received nor what was sent. -/
theorem Inv.setConn (h : Inv s) {id : ℕ} {c : Conn} (hsent : c.sent = (s.conns id).sent)
    (hreceived : c.received = (s.conns id).received) (harrived : (s.conns id).arrived <+: c.arrived) :
    Inv (s.setConn id c) := by
  have hconns : ∀ id', ((s.setConn id c).conns id').sent = (s.conns id').sent ∧
      ((s.setConn id c).conns id').received = (s.conns id').received := by
    intro id'
    by_cases hid : id' = id
    · subst hid
      simp [State.setConn, hsent, hreceived]
    · simp [State.setConn, update_of_ne hid]
  constructor
  · intro fd id' hfd
    rw [(hconns id').1, (hconns id').2]
    exact h.exact fd id' hfd
  · intro id'
    rw [(hconns id').1, (hconns id').2]
    exact h.sent id'
  · intro id'
    rw [(hconns id').2]
    by_cases hid : id' = id
    · subst hid
      simpa [State.setConn] using (h.received id').trans harrived
    · simpa [State.setConn, update_of_ne hid] using h.received id'
  · intro id' hid'
    rw [(hconns id').1, (hconns id').2]
    exact h.unborn id' hid'

theorem Inv.step (h : Inv s) {a : Action} (hwhole : wholeSend s a = true) (ht : next s a = some t) :
    Inv t := by
  cases a with
  | arrive id bs =>
    simp only [next] at ht
    split at ht
    · cases ht
    · cases ht
      exact h.setConn rfl rfl (List.prefix_append _ _)
  | hangUp id =>
    cases ht
    exact h.setConn rfl rfl List.prefix_rfl
  | usr1 =>
    cases ht
    exact h.same rfl rfl fun fd hserves => ⟨hserves, rfl⟩
  | select result => exact h.selectStep ht
  | scan => exact h.scanStep ht
  | accept result => exact h.acceptStep ht
  | setup ok => exact h.setupStep ht
  | recv result => exact h.recvStep ht
  | send result => exact h.sendStep hwhole ht
  | close => exact h.closeStep ht
  | cleanup => exact h.cleanupStep ht

end Steps

/-- As long as every block is taken whole, each connection gets back what it sent, in order: always a
prefix, and all that was received when the server has no block in hand. -/
theorem echo_exact (inherited : Files Unit) (t : State)
    (h : Run next (fun s a => wholeSend s a = true) (start inherited) t) :
    (∀ id, (t.conns id).sent <+: (t.conns id).received ∧
      (t.conns id).received <+: (t.conns id).arrived) ∧
    ∀ fd id, t.openOn fd id → t.pc.block fd = [] →
      (t.conns id).sent = (t.conns id).received ∧
        ((t.conns id).pending = [] → (t.conns id).sent = (t.conns id).arrived) := by
  have hinv : Inv t := h.invariant (start_inv inherited) fun s a t hs ha ht => hs.step ha ht
  refine ⟨fun id => ⟨hinv.sent id, hinv.received id⟩, ?_⟩
  intro fd id hopen hblock
  have hexact := hinv.exact fd id hopen
  rw [hblock, List.append_nil] at hexact
  refine ⟨hexact, fun hpending => ?_⟩
  obtain ⟨rest, hrest⟩ := hinv.received id
  rw [Conn.pending, ← hrest, List.drop_left] at hpending
  rw [hexact, ← hrest, hpending, List.append_nil]

/-! ## Runs -/

def noFiles : Files Unit where
  table _ := none
  bound := 0
  opened := 0
  closed := []
  finite _ _ := rfl
  live _ _ _ h := nomatch h
  one _ _ _ _ _ h := nomatch h
  once := List.nodup_nil
  past _ h := nomatch h
  accounted _ h := absurd h (Nat.not_lt_zero _)

def acceptTwo : List Action :=
  [.select (.ready {0}), .scan, .accept .accepted, .setup true, .accept .accepted, .setup true,
    .accept .again, .scan]

/-- Two clients, the first with two blocks. -/
theorem echo_exact_two_clients :
    ∃ t, Run next (fun s a => wholeSend s a = true) (start noFiles) t ∧
      (t.conns 1).sent = [104, 105] ∧ (t.conns 2).sent = [7] ∧
      (∀ id, (t.conns id).sent <+: (t.conns id).received) := by
  obtain ⟨t, ht, hsent⟩ := followAllowed_reaches wholeSend next (start noFiles)
    (acceptTwo ++ [.arrive 1 [104, 105], .arrive 2 [7], .select (.ready {1, 2}), .scan, .scan,
      .recv (.block 1), .send (.accepted [104]), .recv (.block 1), .send .interrupted,
      .send (.accepted [105]), .recv .again, .scan, .recv (.block 1), .send (.accepted [7])])
    (fun t => (t.conns 1).sent = [104, 105] ∧ (t.conns 2).sent = [7]) (by decide +kernel)
  obtain ⟨h1, h2⟩ := of_decide_eq_true hsent
  exact ⟨t, ht, h1, h2, fun id => ((echo_exact noFiles t ht).1 id).1⟩

/-- A short `send` leaves a gap in the echo; one that is refused leaves nothing of the block, on a
connection that stays open. -/
theorem echo_loses_bytes :
    (∃ t, Run next anyStep (start noFiles) t ∧
      ¬ (t.conns 1).sent <+: (t.conns 1).received) ∧
    ∃ t, Run next anyStep (start noFiles) t ∧ t.openOn 1 1 ∧ t.pc.block 1 = [] ∧
      (t.conns 1).pending = [] ∧ (t.conns 1).sent ≠ (t.conns 1).received := by
  constructor
  · obtain ⟨t, ht, hsent⟩ := followAllowed_reaches (fun _ _ => true) next (start noFiles)
      (acceptTwo ++ [.arrive 1 [104, 105, 33], .select (.ready {1}), .scan, .scan, .recv (.block 2),
        .send (.accepted [104]), .recv (.block 1), .send (.accepted [33])])
      (fun t => ¬ (t.conns 1).sent <+: (t.conns 1).received) (by decide +kernel)
    exact ⟨t, ht.mono fun _ _ _ => trivial, of_decide_eq_true hsent⟩
  · obtain ⟨t, ht, hlost⟩ := followAllowed_reaches (fun _ _ => true) next (start noFiles)
      (acceptTwo ++ [.arrive 1 [104, 105], .select (.ready {1}), .scan, .scan, .recv (.block 2),
        .send .again, .recv .again])
      (fun t => t.files.table 1 = some (1, ()) ∧ t.pc = .scan 2 ∧ (t.conns 1).pending = [] ∧
        (t.conns 1).sent ≠ (t.conns 1).received) (by decide +kernel)
    obtain ⟨htable, hpc, hpending, hne⟩ := of_decide_eq_true hlost
    refine ⟨t, ht.mono fun _ _ _ => trivial, ⟨htable, ?_⟩, ?_, hpending, hne⟩
    · rw [hpc]
      trivial
    · rw [hpc]
      rfl

end EchoServer
