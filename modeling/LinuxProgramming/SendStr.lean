import LinuxProgramming.ExpectStr

/-! # Sending a string to the device

`send_str` replaces escapes on the fly and calls itself for the phone number. Strings are lists
without a NUL. What the device sends back for a byte written to it is a parameter; a read beyond
that waits for ever or, after a hangup, fails. The depth of calls is bounded by a number, and a call
that needs more has no result. The trace for debugging is left out. -/
namespace SendStr

open CStrings ExpectStr

def backslash : Byte := 92
def carriageReturn : Byte := 13

/-- The device: what it sends for a byte behind those written before, unless the write fails. -/
structure Line where
  answer : List Byte → Byte → Option (List Byte)
  hangup : Bool

def echoing : Line := ⟨fun _ c => some [c], false⟩

structure State where
  written : List Byte
  input : List Byte
  errmsg : List Byte
  slept : ℕ
  deriving DecidableEq, Repr

/-- `log_sys` ends the process. -/
inductive Ending where
  | returned (value : ℤ)
  | exited (msg : List Byte)
  | blocked
  deriving DecidableEq, Repr

def State.fail (s : State) (errmsg : List Byte) : Ending × State :=
  (.returned (-1), { s with errmsg := errmsg })

/-- The switch; `byte` are the cases that go on to the write. -/
inductive Escape where
  | noReturn
  | sleep (us : ℕ)
  | echocheck (on : Bool)
  | phone
  | byte (b : Byte)
  deriving DecidableEq, Repr

def escape (c : Byte) : Option Escape :=
  if c = 99 then some .noReturn
  else if c = 100 then some (.sleep 2000000)
  else if c = 112 then some (.sleep 250000)
  else if c = 101 then some (.echocheck false)
  else if c = 69 then some (.echocheck true)
  else if c = 84 then some .phone
  else if c = 114 then some (.byte carriageReturn)
  else if c = 115 then some (.byte space)
  else none

def write (line : Line) (c : Byte) (s : State) : Option State :=
  (line.answer s.written c).map fun answer =>
    { s with written := s.written ++ [c], input := s.input ++ answer }

/-- The loop that waits for the echo of `c`; what is left of the input. -/
def waitEcho (line : Line) (c : Byte) : List Byte → Except Ending (List Byte)
  | [] => .error (if line.hangup then .exited (ascii "read error") else .blocked)
  | tempc :: input => if tempc = c then .ok input else waitEcho line c input

def put (line : Line) (echocheck : Bool) (c : Byte) (s : State) : Except (Ending × State) State :=
  match write line c s with
  | none => .error (.exited (ascii "write error"), s)
  | some s =>
    if echocheck then
      match waitEcho line c s.input with
      | .error ending => .error (ending, { s with input := [] })
      | .ok input => .ok { s with input := input }
    else .ok s

/-- The loop over the string; `call` is the call for the phone number. -/
def scan (line : Line) (call : Bool → State → Option (Ending × State)) :
    List Byte → Bool → State → Option (Ending × State)
  | [], _, s =>
    match write line carriageReturn s with
    | none => some (.exited (ascii "write error"), s)
    | some s => some (.returned 0, s)
  | c :: ptr, echocheck, s =>
    if c = backslash then
      match ptr with
      | [] => some (s.fail (ascii "backslash at end of send string\n"))
      | c :: ptr =>
        match escape c with
        | some .noReturn => if ptr = [] then some (.returned 0, s) else scan line call ptr echocheck s
        | some (.sleep us) => scan line call ptr echocheck { s with slept := s.slept + us }
        | some (.echocheck on) => scan line call ptr on s
        | some .phone =>
          match call echocheck s with
          | none => none
          -- the value is not looked at
          | some (.returned _, s) => scan line call ptr echocheck s
          | some ending => some ending
        | some (.byte c) =>
          match put line echocheck c s with
          | .error ending => some ending
          | .ok s => scan line call ptr echocheck s
        | none => some (s.fail (ascii "unknown send escape char: \\" ++ ctlStr c ++ ascii "\n"))
    else
      match put line echocheck c s with
      | .error ending => some ending
      | .ok s => scan line call ptr echocheck s

/-- `send_str`, with at most `depth` calls inside each other. -/
def sendStr (line : Line) (phone : List Byte) : ℕ → List Byte → Bool → State → Option (Ending × State)
  | 0, _, _, _ => none
  | depth + 1, ptr, echocheck, s => scan line (sendStr line phone depth phone) ptr echocheck s

/-! ## What a send string means -/

/-- A character, an escape, or a backslash with nothing behind it. -/
inductive Token where
  | plain (c : Byte)
  | escaped (c : Byte)
  | trailing
  deriving DecidableEq, Repr

def tokens : List Byte → List Token
  | [] => []
  | c :: ptr =>
    if c = backslash then
      match ptr with
      | [] => [.trailing]
      | c :: ptr => .escaped c :: tokens ptr
    else .plain c :: tokens ptr

def Token.bad : Token → Bool
  | .plain _ => false
  | .escaped c => escape c = none
  | .trailing => true

/-- The bytes that a token stands for; `number` are those of the phone string. -/
def Token.meaning (number : List Byte) : Token → List Byte
  | .plain c => [c]
  | .escaped c =>
    match escape c with
    | some (.byte b) => [b]
    | some .phone => number
    | _ => []
  | .trailing => []

def Bad (ptr : List Byte) : Prop := ∃ t ∈ tokens ptr, t.bad = true

def EndsWithoutReturn (ptr : List Byte) : Prop := (tokens ptr).getLast? = some (.escaped 99)

def body (number ptr : List Byte) : List Byte := (tokens ptr).flatMap (Token.meaning number)

def ending (ptr : List Byte) : List Byte :=
  if (tokens ptr).getLast? = some (.escaped 99) then [] else [carriageReturn]

def Dials (ptr : List Byte) : Prop :=
  ∃ before after, tokens ptr = before ++ .escaped 84 :: after ∧ ∀ t ∈ before, t.bad = false

/-! ## Strings by their tokens -/

theorem tokens_trailing : tokens [backslash] = [.trailing] := by
  rw [tokens.eq_def]
  exact if_pos rfl

theorem tokens_escaped (c : Byte) (ptr : List Byte) :
    tokens (backslash :: c :: ptr) = .escaped c :: tokens ptr := by
  rw [tokens.eq_def]
  exact if_pos rfl

theorem tokens_plain {c : Byte} (hc : c ≠ backslash) (ptr : List Byte) :
    tokens (c :: ptr) = .plain c :: tokens ptr := by
  rw [tokens.eq_def]
  exact if_neg hc

theorem token_induction {P : List Byte → Prop} (nil : P []) (trailing : P [backslash])
    (escaped : ∀ c ptr, P ptr → P (backslash :: c :: ptr))
    (plain : ∀ c ptr, c ≠ backslash → P ptr → P (c :: ptr)) (ptr : List Byte) : P ptr := by
  induction hlen : ptr.length using Nat.strong_induction_on generalizing ptr with
  | _ len ih =>
    cases ptr with
    | nil => exact nil
    | cons c ptr =>
      by_cases hc : c = backslash
      · subst hc
        cases ptr with
        | nil => exact trailing
        | cons c ptr =>
          refine escaped c ptr (ih _ ?_ ptr rfl)
          simp only [List.length_cons] at hlen
          omega
      · refine plain c ptr hc (ih _ ?_ ptr rfl)
        simp only [List.length_cons] at hlen
        omega

theorem tokens_eq_nil {ptr : List Byte} (h : tokens ptr = []) : ptr = [] := by
  cases ptr using token_induction with
  | nil => rfl
  | trailing => cases h
  | escaped c ptr ih =>
    rw [tokens_escaped] at h
    cases h
  | plain c ptr hc ih =>
    rw [tokens_plain hc] at h
    cases h

variable {c : Byte} {ptr number : List Byte}

theorem bad_escaped : Bad (backslash :: c :: ptr) ↔ escape c = none ∨ Bad ptr := by
  simp [Bad, tokens_escaped, Token.bad]

theorem bad_plain (hc : c ≠ backslash) : Bad (c :: ptr) ↔ Bad ptr := by
  simp [Bad, tokens_plain hc, Token.bad]

theorem dials_cons {t : Token} {ts : List Token} :
    (∃ before after, t :: ts = before ++ .escaped 84 :: after ∧ ∀ t ∈ before, t.bad = false) ↔
      t = .escaped 84 ∨ (t.bad = false ∧
        ∃ before after, ts = before ++ .escaped 84 :: after ∧ ∀ t ∈ before, t.bad = false) := by
  constructor
  · rintro ⟨before, after, heq, hgood⟩
    cases before with
    | nil => exact .inl (List.cons.inj heq).1
    | cons u before =>
      obtain ⟨rfl, rfl⟩ := List.cons.inj heq
      exact .inr ⟨hgood t List.mem_cons_self, before, after, rfl,
        fun v hv => hgood v (List.mem_cons_of_mem _ hv)⟩
  · rintro (rfl | ⟨ht, before, after, rfl, hgood⟩)
    · exact ⟨[], ts, rfl, fun t ht => by cases ht⟩
    · exact ⟨t :: before, after, rfl, List.forall_mem_cons.mpr ⟨ht, hgood⟩⟩

theorem dials_escaped : Dials (backslash :: c :: ptr) ↔ c = 84 ∨ (escape c ≠ none ∧ Dials ptr) := by
  rw [Dials, tokens_escaped, dials_cons]
  simp [Token.bad, Dials]

theorem dials_plain (hc : c ≠ backslash) : Dials (c :: ptr) ↔ Dials ptr := by
  rw [Dials, tokens_plain hc, dials_cons]
  simp [Token.bad, Dials]

theorem not_dials_nil : ¬Dials [] := by
  simp [Dials, tokens]

theorem not_dials_trailing : ¬Dials [backslash] := by
  rw [Dials, tokens_trailing, dials_cons]
  simp

theorem body_escaped : body number (backslash :: c :: ptr) =
    (Token.escaped c).meaning number ++ body number ptr := by
  rw [body, tokens_escaped, List.flatMap_cons]
  rfl

theorem body_plain (hc : c ≠ backslash) : body number (c :: ptr) = c :: body number ptr := by
  rw [body, tokens_plain hc, List.flatMap_cons]
  rfl

/-- Whether a carriage return follows is decided by what is left. -/
theorem ending_eq {p : List Byte} {t : Token} (hp : tokens p = t :: tokens ptr)
    (h : ptr ≠ [] ∨ t ≠ .escaped 99) : ending p = ending ptr := by
  rw [ending, hp, List.getLast?_cons, ending]
  cases hlast : (tokens ptr).getLast? with
  | none =>
    have ht := h.resolve_left fun hne => hne (tokens_eq_nil (List.getLast?_eq_none_iff.mp hlast))
    simp [ht]
  | some u => rfl

/-! ## On a line that echoes -/

theorem escape_eq_phone : escape c = some .phone ↔ c = 84 := by
  constructor
  · intro h
    unfold escape at h
    split_ifs at h <;> first | assumption | cases h
  · rintro rfl
    rfl

theorem escape_eq_noReturn : escape c = some .noReturn ↔ c = 99 := by
  constructor
  · intro h
    unfold escape at h
    split_ifs at h <;> first | assumption | cases h
  · rintro rfl
    rfl

theorem waitEcho_append (line : Line) (c : Byte) (input : List Byte) :
    ∃ rest, waitEcho line c (input ++ [c]) = .ok rest := by
  induction input with
  | nil => exact ⟨[], by rw [List.nil_append, waitEcho, if_pos rfl]⟩
  | cons b input ih =>
    rw [List.cons_append, waitEcho]
    split
    · exact ⟨_, rfl⟩
    · exact ih

theorem put_echoing (echocheck : Bool) (c : Byte) (s : State) :
    ∃ s', put echoing echocheck c s = .ok s' ∧ s'.written = s.written ++ [c] := by
  have hwrite : write echoing c s = some { s with written := s.written ++ [c], input := s.input ++ [c] } := rfl
  rw [put, hwrite]
  cases echocheck with
  | false => exact ⟨_, rfl, rfl⟩
  | true =>
    obtain ⟨rest, hrest⟩ := waitEcho_append echoing c s.input
    simp only [hrest, if_true]
    exact ⟨_, rfl, rfl⟩

variable {call : Bool → State → Option (Ending × State)}

theorem scan_plain (call : Bool → State → Option (Ending × State)) (ptr : List Byte) (hc : c ≠ backslash)
    (e : Bool) (s : State) :
    ∃ s', scan echoing call (c :: ptr) e s = scan echoing call ptr e s' ∧
      s'.written = s.written ++ [c] := by
  obtain ⟨s', hput, hwritten⟩ := put_echoing e c s
  refine ⟨s', ?_, hwritten⟩
  rw [scan.eq_def]
  simp only [if_neg hc, hput]

/-- A string that asks for the number never ends if the call for it does not. -/
theorem scan_eq_none (hdials : Dials ptr) (hcall : ∀ e s, call e s = none) (e : Bool) (s : State) :
    scan echoing call ptr e s = none := by
  induction ptr using token_induction generalizing e s with
  | nil => exact absurd hdials not_dials_nil
  | trailing => exact absurd hdials not_dials_trailing
  | plain c ptr hc ih =>
    obtain ⟨s', hscan, -⟩ := scan_plain call ptr hc e s
    rw [hscan]
    exact ih ((dials_plain hc).mp hdials) e s'
  | escaped c ptr ih =>
    rw [dials_escaped] at hdials
    rw [scan.eq_def]
    simp only [if_true]
    cases hesc : escape c with
    | none =>
      rcases hdials with rfl | hdials
      · cases hesc
      · exact absurd hesc hdials.1
    | some esc =>
      have hrest : esc = .phone ∨ Dials ptr := by
        rcases hdials with rfl | hdials
        · exact .inl (Option.some.inj hesc).symm
        · exact .inr hdials.2
      cases esc with
      | phone => simp only [hcall]
      | noReturn =>
        have hdials' := hrest.resolve_left (fun h => by cases h)
        have hne : ptr ≠ [] := by
          rintro rfl
          exact not_dials_nil hdials'
        simp only [if_neg hne]
        exact ih hdials' e s
      | sleep us => exact ih (hrest.resolve_left (fun h => by cases h)) e _
      | echocheck on => exact ih (hrest.resolve_left (fun h => by cases h)) on s
      | byte b =>
        obtain ⟨s', hput, -⟩ := put_echoing e b s
        simp only [hput]
        exact ih (hrest.resolve_left (fun h => by cases h)) e s'

/-- The call for the number returns; where `good` holds it has written `number`. -/
def Returns (call : Bool → State → Option (Ending × State)) (good : Prop) (number : List Byte) : Prop :=
  ∀ e s, ∃ v s', call e s = some (.returned v, s') ∧ (good → s'.written = s.written ++ number)

variable {good : Prop}

theorem scan_escaped {esc : Escape} (hesc : escape c = some esc) (hlast : ptr ≠ [] ∨ c ≠ 99)
    (hcall : c = 84 → Returns call good number) (e : Bool) (s : State) :
    ∃ e' s', scan echoing call (backslash :: c :: ptr) e s = scan echoing call ptr e' s' ∧
      (good → s'.written = s.written ++ (Token.escaped c).meaning number) := by
  rw [scan.eq_def, Token.meaning]
  dsimp only
  rw [if_pos rfl, hesc]
  cases esc with
  | noReturn =>
    have hne := hlast.resolve_right fun hc => hc (escape_eq_noReturn.mp hesc)
    exact ⟨e, s, if_neg hne, fun _ => (List.append_nil _).symm⟩
  | sleep us => exact ⟨e, _, rfl, fun _ => (List.append_nil _).symm⟩
  | echocheck on => exact ⟨on, s, rfl, fun _ => (List.append_nil _).symm⟩
  | phone =>
    obtain ⟨v, s', hreturn, hwritten⟩ := hcall (escape_eq_phone.mp hesc) e s
    refine ⟨e, s', ?_, hwritten⟩
    rw [hreturn]
  | byte b =>
    obtain ⟨s', hput, hwritten⟩ := put_echoing e b s
    refine ⟨e, s', ?_, fun _ => hwritten⟩
    simp only [hput]

/-- On a line that echoes a string is sent, unless something is wrong with it. -/
theorem scan_echoing (hcall : Dials ptr → Returns call good number) (e : Bool) (s : State) :
    ∃ v s', scan echoing call ptr e s = some (.returned v, s') ∧ (Bad ptr → v = -1) ∧
      (¬Bad ptr → v = 0 ∧ (good → s'.written = s.written ++ (body number ptr ++ ending ptr))) := by
  induction ptr using token_induction generalizing e s with
  | nil =>
    refine ⟨0, _, rfl, ?_, fun _ => ⟨rfl, fun _ => rfl⟩⟩
    rintro ⟨t, ht, -⟩
    cases ht
  | trailing =>
    have hbad : Bad [backslash] := ⟨.trailing, by rw [tokens_trailing]; exact List.mem_cons_self, rfl⟩
    have hscan : scan echoing call [backslash] e s =
        some (s.fail (ascii "backslash at end of send string\n")) := by
      rw [scan.eq_def]
      exact if_pos rfl
    exact ⟨-1, _, hscan, fun _ => rfl, fun h => absurd hbad h⟩
  | plain c ptr hc ih =>
    obtain ⟨s', hplain, hwritten⟩ := scan_plain call ptr hc e s
    obtain ⟨v, s'', hscan, hbad, hgood⟩ := ih (fun h => hcall ((dials_plain hc).mpr h)) e s'
    rw [hplain, bad_plain hc, body_plain hc, ending_eq (tokens_plain hc ptr) (.inr (by simp))]
    refine ⟨v, s'', hscan, hbad, fun h => ⟨(hgood h).1, fun hg => ?_⟩⟩
    rw [(hgood h).2 hg, hwritten]
    simp
  | escaped c ptr ih =>
    rw [bad_escaped, body_escaped]
    cases hesc : escape c with
    | none =>
      have hscan : scan echoing call (backslash :: c :: ptr) e s =
          some (s.fail (ascii "unknown send escape char: \\" ++ ctlStr c ++ ascii "\n")) := by
        rw [scan.eq_def]
        simp only [if_true, hesc]
      exact ⟨-1, _, hscan, fun _ => rfl, fun h => absurd (.inl rfl) h⟩
    | some esc =>
      have hsome : escape c ≠ none := by simp [hesc]
      by_cases hlast : ptr ≠ [] ∨ c ≠ 99
      · have hphone : c = 84 → Returns call good number := fun hc => hcall (dials_escaped.mpr (.inl hc))
        obtain ⟨e', s', hstep, hwritten⟩ := scan_escaped hesc hlast hphone e s
        obtain ⟨v, s'', hscan, hbad, hgood⟩ :=
          ih (fun h => hcall (dials_escaped.mpr (.inr ⟨hsome, h⟩))) e' s'
        rw [hstep, ending_eq (tokens_escaped c ptr) (hlast.imp_right fun hne => by simpa using hne)]
        simp only [reduceCtorEq, false_or]
        refine ⟨v, s'', hscan, hbad, fun h => ⟨(hgood h).1, fun hg => ?_⟩⟩
        rw [(hgood h).2 hg, hwritten hg]
        simp
      · simp only [not_or, not_not] at hlast
        obtain ⟨rfl, rfl⟩ := hlast
        have hscan : scan echoing call [backslash, 99] e s = some (.returned 0, s) := by
          rw [scan.eq_def]
          exact if_pos rfl
        refine ⟨0, s, hscan, ?_, fun _ => ⟨rfl, fun _ => (List.append_nil _).symm⟩⟩
        rintro (h | ⟨t, ht, -⟩)
        · cases h
        · cases ht

/-! ## The whole call -/

theorem sendStr_eq_none {phone : List Byte} (hphone : Dials phone) (hptr : Dials ptr) (depth : ℕ) (e : Bool)
    (s : State) : sendStr echoing phone depth ptr e s = none := by
  induction depth generalizing ptr e s with
  | zero => rfl
  | succ depth ih => exact scan_eq_none hptr (fun e s => ih hphone e s) e s

/-- The number is sent by a call of its own, with a carriage return of its own. -/
theorem returns_phone {phone : List Byte} (hphone : ¬Dials phone) (depth : ℕ) :
    Returns (sendStr echoing phone (depth + 1) phone) (¬Bad phone) (body [] phone ++ ending phone) := by
  intro e s
  have hcall : Dials phone → Returns (sendStr echoing phone depth phone) True [] :=
    fun h => absurd h hphone
  obtain ⟨v, s', hscan, -, hgood⟩ := scan_echoing hcall e s
  exact ⟨v, s', hscan, fun h => (hgood h).2 trivial⟩

theorem mem_tokens_of_dials (h : Dials ptr) : .escaped 84 ∈ tokens ptr := by
  obtain ⟨before, after, heq, -⟩ := h
  rw [heq]
  exact List.mem_append_right _ List.mem_cons_self

theorem dials_of_mem_tokens (hgood : ¬Bad ptr) (h : .escaped 84 ∈ tokens ptr) : Dials ptr := by
  obtain ⟨before, after, heq⟩ := List.append_of_mem h
  refine ⟨before, after, heq, fun t ht => ?_⟩
  by_contra hbad
  refine hgood ⟨t, ?_, by simpa using hbad⟩
  rw [heq]
  exact List.mem_append_left _ ht

theorem meaning_eq {t : Token} (ht : t ≠ .escaped 84) (number number' : List Byte) :
    t.meaning number = t.meaning number' := by
  cases t with
  | plain c => rfl
  | trailing => rfl
  | escaped c =>
    rw [Token.meaning, Token.meaning]
    cases hesc : escape c with
    | none => rfl
    | some esc =>
      cases esc with
      | phone => exact absurd (congrArg Token.escaped (escape_eq_phone.mp hesc)) ht
      | _ => rfl

/-- Each time the number is sent, what is sent with it adds to the length. -/
theorem length_body_append (number extra ptr : List Byte) :
    (body (number ++ extra) ptr).length =
      (body number ptr).length + extra.length * (tokens ptr).count (.escaped 84) := by
  unfold body
  induction tokens ptr with
  | nil => simp
  | cons t ts ih =>
    rw [List.flatMap_cons, List.flatMap_cons, List.length_append, List.length_append, ih]
    by_cases ht : t = .escaped 84
    · subst ht
      rw [List.count_cons_self, Nat.mul_add]
      change (number ++ extra).length + _ = number.length + _ + _
      rw [List.length_append]
      omega
    · rw [List.count_cons_of_ne ht, meaning_eq ht (number ++ extra) number]
      omega

theorem endsWithoutReturn_iff : EndsWithoutReturn ptr ↔ ending ptr = [] := by
  unfold EndsWithoutReturn ending
  split
  · rename_i h
    simp [h]
  · rename_i h
    simp [h]

/-- With a call for the number that returns, the string is sent, and every result is that. -/
theorem sendStr_spec (send : List Byte) {phone : List Byte}
    (hret : Dials send → ∀ depth, Returns (sendStr echoing phone (depth + 1) phone) good number) :
    (∀ e s, ∃ v s', sendStr echoing phone 2 send e s = some (.returned v, s')) ∧
      ∀ depth e s v s', sendStr echoing phone depth send e s = some (.returned v, s') →
        (Bad send → v = -1) ∧ (¬Bad send → v = 0 ∧
          (good → s'.written = s.written ++ (body number send ++ ending send))) := by
  constructor
  · intro e s
    obtain ⟨v, s', hscan, -⟩ := scan_echoing (fun h => hret h 0) e s
    exact ⟨v, s', hscan⟩
  · intro depth e s v s' hrun
    cases depth with
    | zero => cases hrun
    | succ depth =>
      have hcall : Dials send → Returns (sendStr echoing phone depth phone) good number := by
        intro hdials
        cases depth with
        | zero =>
          have hnone (e : Bool) (s : State) : sendStr echoing phone 0 phone e s = none := rfl
          rw [sendStr, scan_eq_none hdials hnone] at hrun
          cases hrun
        | succ depth => exact hret hdials depth
      obtain ⟨v', s'', hscan, hbad, hgood⟩ := scan_echoing hcall e s
      rw [sendStr, hscan] at hrun
      cases hrun
      exact ⟨hbad, hgood⟩

/-- What is expected of `send_str` on a line that echoes. -/
structure SendsExactly (send phone : List Byte) : Prop where
  terminates : ∀ e s, ∃ depth v s', sendStr echoing phone depth send e s = some (.returned v, s')
  value : ∀ depth e s v s', sendStr echoing phone depth send e s = some (.returned v, s') →
    (v = 0 ∨ v = -1) ∧ (v = -1 ↔ Bad send ∨ (.escaped 84 ∈ tokens send ∧ Bad phone))
  written : ∀ depth e s s', sendStr echoing phone depth send e s = some (.returned 0, s') →
    s'.written = s.written ++ (body (body [] phone) send ++ ending send)

theorem sendsExactly_of {send phone : List Byte}
    (hret : Dials send → ∀ depth, Returns (sendStr echoing phone (depth + 1) phone) good number)
    (hgood : ¬Bad send → good ∧ ¬(.escaped 84 ∈ tokens send ∧ Bad phone) ∧
      body number send = body (body [] phone) send) :
    SendsExactly send phone := by
  obtain ⟨hterm, hall⟩ := sendStr_spec send hret
  constructor
  · intro e s
    exact ⟨2, hterm e s⟩
  · intro depth e s v s' hrun
    by_cases hbad : Bad send
    · have hv := (hall depth e s v s' hrun).1 hbad
      simp [hv, hbad]
    · have hv := ((hall depth e s v s' hrun).2 hbad).1
      simp [hv, hbad, (hgood hbad).2.1]
  · intro depth e s s' hrun
    by_cases hbad : Bad send
    · have hv := (hall depth e s 0 s' hrun).1 hbad
      cases hv
    · rw [((hall depth e s 0 s' hrun).2 hbad).2 (hgood hbad).1, (hgood hbad).2.2]

/-- A string is sent exactly when it does not ask for the number, or the number does not ask for
itself and the string is wrong anyway or the number is right and ends with `\c`. -/
theorem sendsExactly_iff (send phone : List Byte) :
    SendsExactly send phone ↔
      ¬Dials send ∨ (¬Dials phone ∧ (Bad send ∨ (¬Bad phone ∧ EndsWithoutReturn phone))) := by
  constructor
  · intro h
    by_cases hsend : Dials send
    · let s : State := ⟨[], [], [], 0⟩
      have hphone : ¬Dials phone := by
        intro hphone
        obtain ⟨depth, v, s', hrun⟩ := h.terminates false s
        rw [sendStr_eq_none hphone hsend] at hrun
        cases hrun
      refine .inr ⟨hphone, ?_⟩
      obtain ⟨hterm, hall⟩ := sendStr_spec send fun _ depth => returns_phone hphone depth
      obtain ⟨v, s', hrun⟩ := hterm false s
      by_cases hbad : Bad send
      · exact .inl hbad
      · obtain ⟨rfl, hwritten⟩ := (hall 2 false s v s' hrun).2 hbad
        have hgood : ¬Bad phone := by
          intro hphone
          have hv := (h.value 2 false s 0 s' hrun).2.mpr (.inr ⟨mem_tokens_of_dials hsend, hphone⟩)
          cases hv
        refine .inr ⟨hgood, endsWithoutReturn_iff.mpr ?_⟩
        have hlen := congrArg List.length ((hwritten hgood).symm.trans (h.written 2 false s s' hrun))
        have hcount := List.count_pos_iff.mpr (mem_tokens_of_dials hsend)
        rw [List.length_append, List.length_append, List.length_append, List.length_append,
          length_body_append] at hlen
        have hzero : (ending phone).length * (tokens send).count (.escaped 84) = 0 := by omega
        exact List.length_eq_zero_iff.mp ((Nat.mul_eq_zero.mp hzero).resolve_right hcount.ne')
    · exact .inl hsend
  · rintro (hsend | ⟨hphone, hright⟩)
    · have hret : Dials send → ∀ depth,
          Returns (sendStr echoing phone (depth + 1) phone) True (body [] phone) :=
        fun h => absurd h hsend
      refine sendsExactly_of hret fun hbad => ?_
      exact ⟨trivial, fun h => hsend (dials_of_mem_tokens hbad h.1), rfl⟩
    · refine sendsExactly_of (fun _ depth => returns_phone hphone depth) fun hbad => ?_
      obtain ⟨hgood, hends⟩ := hright.resolve_left hbad
      refine ⟨hgood, fun h => hgood h.2, ?_⟩
      rw [endsWithoutReturn_iff.mp hends, List.append_nil]

/-- The number has a carriage return of its own. -/
theorem two_returns :
    (sendStr echoing (ascii "5551234") 2 (ascii "ATDT\\T") false ⟨[], [], [], 0⟩).map
        (fun r => (r.1, r.2.written)) =
      some (.returned 0, ascii "ATDT5551234\r\r") ∧
    body (body [] (ascii "5551234")) (ascii "ATDT\\T") ++ ending (ascii "ATDT\\T") =
      ascii "ATDT5551234\r" := by
  decide +kernel

end SendStr
