import Mathlib.Data.List.Sigma
import Mathlib.Data.List.TakeWhile

/-! # Updates of an ACL by `acl_update.c`

The entries given on the command line are applied one by one; after each of them the ACL is checked
and written to the file. An ACL is a list of entries; `libacl` follows acl(5). -/
namespace AclUpdate

/-- A tag with its qualifier, which only named users and groups have. -/
inductive Tag where
  | userObj
  | user (uid : ℕ)
  | groupObj
  | group (gid : ℕ)
  | mask
  | other
  deriving DecidableEq, Repr

structure Perms where
  read : Bool
  write : Bool
  execute : Bool
  deriving DecidableEq, Repr

abbrev Entry := (_ : Tag) × Perms

abbrev Acl := List Entry

/-! ## The command line -/

inductive ParseError where
  | missingColon (entry : List Char)
  | unwantedPerms
  | missingPerms
  | badTag (tag : List Char)
  | badUser (name : List Char)
  | badGroup (name : List Char)
  | badPerm (c : Char)
  | tooMany
  deriving DecidableEq, Repr

def ParseError.text : ParseError → String
  | .missingColon entry => "Missing initial colon in ACL entry: " ++ String.ofList entry
  | .unwantedPerms => "Cannot specify permissions here"
  | .missingPerms => "Must specify permissions"
  | .badTag tag => "Bad tag: " ++ String.ofList tag
  | .badUser name => "Bad user ID: " ++ String.ofList name
  | .badGroup name => "Bad group ID: " ++ String.ofList name
  | .badPerm c => "Bad character in permissions string: " ++ String.singleton c
  | .tooMany => "Too many entries in ACL"

/-- `userIdFromName` and `groupIdFromName`. -/
structure Names where
  user : List Char → Option ℕ
  group : List Char → Option ℕ

/-- The text before a colon and, if there is one, the text after it. -/
def cut (s : List Char) : List Char × Option (List Char) :=
  (s.takeWhile (· ≠ ':'), match s.dropWhile (· ≠ ':') with | [] => none | _ :: rest => some rest)

def parseTag (names : Names) (tag : List Char) (hasQual : Bool) (qual : List Char) :
    Except ParseError Tag :=
  if tag = ['u'] ∨ tag = "user".toList then
    if hasQual then match names.user qual with | some uid => .ok (.user uid) | none => .error (.badUser qual)
    else .ok .userObj
  else if tag = ['g'] ∨ tag = "group".toList then
    if hasQual then match names.group qual with | some gid => .ok (.group gid) | none => .error (.badGroup qual)
    else .ok .groupObj
  else if tag = ['o'] ∨ tag = "other".toList then .ok .other
  else if tag = ['m'] ∨ tag = "mask".toList then .ok .mask
  else .error (.badTag tag)

def parsePerms (perms : Perms) : List Char → Except ParseError Perms
  | [] => .ok perms
  | c :: cs =>
    if c = 'r' then parsePerms { perms with read := true } cs
    else if c = 'w' then parsePerms { perms with write := true } cs
    else if c = 'x' then parsePerms { perms with execute := true } cs
    else if c = '-' then parsePerms perms cs
    else .error (.badPerm c)

/-- Without permissions, as for `-x`, those of the entry are never used. -/
def parseEntrySpec (names : Names) (permsReqd : Bool) (entryStr : List Char) : Except ParseError Entry :=
  match cut entryStr with
  | (_, none) => .error (.missingColon entryStr)
  | (tag, some rest) =>
    let (qual, perms) := cut rest
    let hasPerms := perms.any (· ≠ [])
    if hasPerms ∧ ¬ permsReqd then .error .unwantedPerms
    else if ¬ hasPerms ∧ permsReqd then .error .missingPerms
    else
      (parseTag names tag (qual ≠ []) qual).bind fun tag =>
        (parsePerms ⟨false, false, false⟩ (perms.getD [])).map fun perms => ⟨tag, perms⟩

def maxEntries : ℕ := 10000

def parseEntries (names : Names) (permsReqd : Bool) : ℕ → List (List Char) → Except ParseError (List Entry)
  | _, [] => .ok []
  | n, entry :: entries =>
    if n ≥ maxEntries then .error .tooMany
    else (parseEntrySpec names permsReqd entry).bind fun e =>
      (parseEntries names permsReqd (n + 1) entries).map (e :: ·)

def parseACL (names : Names) (permsReqd : Bool) (aclStr : List Char) : Except ParseError (List Entry) :=
  parseEntries names permsReqd 0 (aclStr.splitOn ',')

/-! ## The update -/

inductive Operation where
  | modifyEntries
  | removeEntries
  deriving DecidableEq, Repr

def findEntry (acl : Acl) (tag : Tag) : Option Perms := acl.dlookup tag

/-- An entry gets these permissions; one that is not there is created. -/
def putEntry (acl : Acl) (tag : Tag) (perms : Perms) : Acl :=
  if (findEntry acl tag).isSome then acl.kreplace tag perms else acl ++ [⟨tag, perms⟩]

def applyEntry (op : Operation) (acl : Acl) (e : Entry) : Acl :=
  match op with
  | .removeEntries => acl.kerase e.1
  | .modifyEntries => putEntry acl e.1 e.2

def Tag.masked : Tag → Bool
  | .user _ | .groupObj | .group _ => true
  | _ => false

def Tag.named : Tag → Bool
  | .user _ | .group _ => true
  | _ => false

/-- `acl_calc_mask`: the union of the permissions that the mask limits; the mask is created if there is
none. -/
def groupClass (acl : Acl) : Perms :=
  ⟨acl.any fun e => e.1.masked && e.2.read, acl.any fun e => e.1.masked && e.2.write,
    acl.any fun e => e.1.masked && e.2.execute⟩

def aclCalcMask (acl : Acl) : Acl := putEntry acl .mask (groupClass acl)

def aclValid (acl : Acl) : Bool :=
  acl.keys.count .userObj = 1 && acl.keys.count .groupObj = 1 && acl.keys.count .other = 1 &&
    (!acl.keys.any Tag.named || acl.keys.contains .mask) && decide acl.keys.Nodup

def turn (op : Operation) (recalcMask : Bool) (acl : Acl) (e : Entry) : Acl :=
  let acl := applyEntry op acl e
  if recalcMask then aclCalcMask acl else acl

inductive AclType where
  | access
  | default
  deriving DecidableEq, Repr

structure File where
  access : Acl
  default : Acl
  deriving DecidableEq, Repr

def aclGetFile (file : File) : AclType → Acl
  | .access => file.access
  | .default => file.default

def aclSetFile (file : File) : AclType → Acl → File
  | .access, acl => { file with access := acl }
  | .default, acl => { file with default := acl }

@[simp] theorem get_set (file : File) (type : AclType) (acl : Acl) :
    aclGetFile (aclSetFile file type acl) type = acl := by cases type <;> rfl

@[simp] theorem set_get (file : File) (type : AclType) :
    aclSetFile file type (aclGetFile file type) = file := by cases type <;> rfl

@[simp] theorem set_set (file : File) (type : AclType) (acl acl' : Acl) :
    aclSetFile (aclSetFile file type acl) type acl' = aclSetFile file type acl' := by
  cases type <;> rfl

inductive Outcome where
  | success
  | errExit (call : String)
  deriving DecidableEq, Repr

def updateLoop (type : AclType) (op : Operation) (recalcMask : Bool) :
    List Entry → Acl → File → Outcome × File
  | [], _, file => (.success, file)
  | e :: es, acl, file =>
    let acl := turn op recalcMask acl e
    if aclValid acl then updateLoop type op recalcMask es acl (aclSetFile file type acl)
    else (.errExit "acl_valid", file)

def updateACL (file : File) (useDefaultACL : Bool) (aclist : List Entry) (op : Operation)
    (recalcMask : Bool) : Outcome × File :=
  let type := if useDefaultACL then AclType.default else .access
  updateLoop type op recalcMask aclist (aclGetFile file type) file

/-! ## What the entries ask for -/

def target (op : Operation) (recalcMask : Bool) (acl : Acl) (aclist : List Entry) : Acl :=
  let acl := aclist.foldl (applyEntry op) acl
  if recalcMask then aclCalcMask acl else acl

/-- With a valid target the file gets it; otherwise the call fails and the file keeps its ACL. The
order of the entries of an ACL does not matter. -/
def AllOrNothing (file : File) (type : AclType) (R : Acl) (result : Outcome × File) : Prop :=
  if aclValid R then ∃ acl, acl.Perm R ∧ result = (.success, aclSetFile file type acl)
  else ∃ call acl, acl.Perm (aclGetFile file type) ∧ result = (.errExit call, aclSetFile file type acl)

def turns (op : Operation) (recalcMask : Bool) : Acl → List Entry → List Acl
  | _, [] => []
  | acl, e :: es => turn op recalcMask acl e :: turns op recalcMask (turn op recalcMask acl e) es

def lastWritten (op : Operation) (recalcMask : Bool) (acl : Acl) (aclist : List Entry) : Acl :=
  ((turns op recalcMask acl aclist).takeWhile aclValid).getLastD acl

/-! ## Entries by their tags -/

theorem dlookup_kreplace (acl : Acl) {tag : Tag} (perms : Perms) (h : tag ∈ acl.keys) (t : Tag) :
    (acl.kreplace tag perms).dlookup t = if t = tag then some perms else acl.dlookup t := by
  induction acl with
  | nil => simp at h
  | cons e acl ih =>
    obtain ⟨a, b⟩ := e
    by_cases ha : tag = a
    · subst ha
      have hcons : List.kreplace tag perms (⟨tag, b⟩ :: acl) = ⟨tag, perms⟩ :: acl := by
        simp [List.kreplace, List.lookmap_cons_some]
      rw [hcons]
      by_cases ht : t = tag
      · subst ht
        simp
      · rw [List.dlookup_cons_ne _ _ ht, if_neg ht, List.dlookup_cons_ne _ _ ht]
    · have hcons : List.kreplace tag perms (⟨a, b⟩ :: acl) = ⟨a, b⟩ :: List.kreplace tag perms acl := by
        simp [List.kreplace, List.lookmap_cons_none, ha]
      have hmem : tag ∈ acl.keys := by simpa [ha] using h
      rw [hcons]
      by_cases ht : t = a
      · subst ht
        simp [Ne.symm ha]
      · rw [List.dlookup_cons_ne _ _ ht, List.dlookup_cons_ne _ _ ht]
        exact ih hmem

theorem putEntry_of_mem {acl : Acl} {tag : Tag} (h : tag ∈ acl.keys) (perms : Perms) :
    putEntry acl tag perms = acl.kreplace tag perms :=
  if_pos (List.dlookup_isSome.2 h)

theorem putEntry_of_notMem {acl : Acl} {tag : Tag} (h : tag ∉ acl.keys) (perms : Perms) :
    putEntry acl tag perms = acl ++ [⟨tag, perms⟩] :=
  if_neg fun hsome => h (List.dlookup_isSome.1 hsome)

theorem dlookup_putEntry (acl : Acl) (tag : Tag) (perms : Perms) (t : Tag) :
    (putEntry acl tag perms).dlookup t = if t = tag then some perms else acl.dlookup t := by
  by_cases h : tag ∈ acl.keys
  · rw [putEntry_of_mem h]
    exact dlookup_kreplace acl perms h t
  · have hnone : acl.dlookup tag = none := List.dlookup_eq_none.2 h
    rw [putEntry_of_notMem h, List.dlookup_append]
    by_cases ht : t = tag
    · subst ht
      simp [hnone]
    · rw [List.dlookup_cons_ne _ _ ht, if_neg ht, List.dlookup_nil, Option.or_none]

theorem dlookup_applyEntry {acl : Acl} (nd : acl.NodupKeys) (op : Operation) (e : Entry) (t : Tag) :
    (applyEntry op acl e).dlookup t =
      if t = e.1 then (if op = .removeEntries then none else some e.2) else acl.dlookup t := by
  cases op with
  | modifyEntries => exact dlookup_putEntry acl e.1 e.2 t
  | removeEntries =>
    by_cases ht : t = e.1
    · subst ht
      simp [applyEntry, List.dlookup_kerase e.1 nd]
    · simp [applyEntry, ht]

theorem nodupKeys_putEntry {acl : Acl} (nd : acl.NodupKeys) (tag : Tag) (perms : Perms) :
    (putEntry acl tag perms).NodupKeys := by
  by_cases h : tag ∈ acl.keys
  · rw [putEntry_of_mem h]
    exact (List.kreplace_nodupKeys tag perms).2 nd
  · rw [putEntry_of_notMem h, List.NodupKeys, List.keys_append]
    refine List.nodup_append.2 ⟨nd, by simp, ?_⟩
    intro a ha b hb hab
    obtain rfl : b = tag := by simpa using hb
    exact h (hab ▸ ha)

theorem nodupKeys_applyEntry {acl : Acl} (nd : acl.NodupKeys) (op : Operation) (e : Entry) :
    (applyEntry op acl e).NodupKeys := by
  cases op with
  | modifyEntries => exact nodupKeys_putEntry nd e.1 e.2
  | removeEntries => exact nd.kerase e.1

/-! ## Intermediate masks do not matter -/

/-- Two ACLs with the same entries, masks apart. -/
structure Agree (A B : Acl) : Prop where
  left : A.NodupKeys
  right : B.NodupKeys
  lookup : ∀ t, t ≠ .mask → A.dlookup t = B.dlookup t

theorem Agree.applyEntry (h : Agree A B) (op : Operation) (e : Entry) :
    Agree (applyEntry op A e) (applyEntry op B e) := by
  constructor
  · exact nodupKeys_applyEntry h.left op e
  · exact nodupKeys_applyEntry h.right op e
  · intro t ht
    rw [dlookup_applyEntry h.left, dlookup_applyEntry h.right, h.lookup t ht]

theorem Agree.calcMask (h : Agree A B) : Agree (aclCalcMask A) B := by
  constructor
  · exact nodupKeys_putEntry h.left _ _
  · exact h.right
  · intro t ht
    rw [aclCalcMask, dlookup_putEntry, if_neg ht, h.lookup t ht]

theorem Agree.symm (h : Agree A B) : Agree B A :=
  ⟨h.right, h.left, fun t ht => (h.lookup t ht).symm⟩

theorem Agree.any_masked_of (h : Agree A B) {p : Perms → Bool}
    (hA : A.any (fun e => e.1.masked && p e.2) = true) :
    B.any (fun e => e.1.masked && p e.2) = true := by
  obtain ⟨⟨t, perms⟩, hmem, hp⟩ := List.any_eq_true.1 hA
  have hmask : t ≠ .mask := by
    rintro rfl
    simp [Tag.masked] at hp
  have hlook : perms ∈ A.dlookup t := List.mem_dlookup h.left hmem
  rw [h.lookup t hmask] at hlook
  exact List.any_eq_true.2 ⟨⟨t, perms⟩, List.of_mem_dlookup hlook, hp⟩

theorem Agree.any_masked (h : Agree A B) (p : Perms → Bool) :
    (A.any fun e => e.1.masked && p e.2) = B.any fun e => e.1.masked && p e.2 :=
  Bool.eq_iff_iff.2 ⟨h.any_masked_of, h.symm.any_masked_of⟩

theorem Agree.groupClass_eq (h : Agree A B) : groupClass A = groupClass B := by
  simp only [groupClass, h.any_masked]

theorem Agree.calcMask_perm (h : Agree A B) : (aclCalcMask A).Perm (aclCalcMask B) := by
  refine List.lookup_ext (nodupKeys_putEntry h.left _ _) (nodupKeys_putEntry h.right _ _) ?_
  intro t perms
  by_cases ht : t = .mask
  · subst ht
    simp only [aclCalcMask, dlookup_putEntry, if_true, h.groupClass_eq]
  · simp only [aclCalcMask, dlookup_putEntry, if_neg ht, h.lookup t ht]

theorem Agree.foldl (h : Agree A B) (op : Operation) (es : List Entry) :
    Agree (es.foldl (turn op true) A) (es.foldl (AclUpdate.applyEntry op) B) := by
  induction es generalizing A B with
  | nil => exact h
  | cons e es ih => exact ih (h.applyEntry op e).calcMask

theorem foldl_turn_perm_target {acl : Acl} (nd : acl.NodupKeys) (op : Operation) (recalcMask : Bool)
    {aclist : List Entry} (hne : aclist ≠ []) :
    (aclist.foldl (turn op recalcMask) acl).Perm (target op recalcMask acl aclist) := by
  cases recalcMask with
  | false => exact List.Perm.refl _
  | true =>
    -- the last turn calculates the mask of an ACL that agrees with the specified one
    obtain ⟨es, e, rfl⟩ := List.eq_nil_or_concat aclist |>.resolve_left hne
    have h : Agree (es.foldl (turn op true) acl) (es.foldl (applyEntry op) acl) :=
      Agree.foldl ⟨nd, nd, fun _ _ => rfl⟩ op es
    simpa [target, turn] using (h.applyEntry op e).calcMask_perm

theorem aclValid_perm {A B : Acl} (h : A.Perm B) : aclValid A = aclValid B := by
  have hkeys : A.keys.Perm B.keys := h.map Sigma.fst
  have hcontains : A.keys.contains .mask = B.keys.contains .mask := by
    simp only [List.contains_eq_any_beq, hkeys.any_eq]
  simp only [aclValid, hkeys.count_eq, hkeys.any_eq, hcontains, hkeys.nodup_iff]

/-! ## The loop -/

theorem updateLoop_eq (type : AclType) (op : Operation) (recalcMask : Bool) (es : List Entry)
    (file : File) :
    updateLoop type op recalcMask es (aclGetFile file type) file =
      (if (turns op recalcMask (aclGetFile file type) es).all aclValid then .success
        else .errExit "acl_valid",
        aclSetFile file type (lastWritten op recalcMask (aclGetFile file type) es)) := by
  induction es generalizing file with
  | nil => simp [updateLoop, turns, lastWritten]
  | cons e es ih =>
    have hrest := ih (aclSetFile file type (turn op recalcMask (aclGetFile file type) e))
    rw [get_set, set_set] at hrest
    by_cases hv : aclValid (turn op recalcMask (aclGetFile file type) e) = true
    · simp only [updateLoop, hv, if_true, hrest, turns, lastWritten, List.all_cons, Bool.true_and,
        List.takeWhile_cons, List.getLastD_cons]
    · simp [updateLoop, hv, turns, lastWritten]

theorem turns_getLastD (op : Operation) (recalcMask : Bool) (acl : Acl) (es : List Entry) :
    (turns op recalcMask acl es).getLastD acl = es.foldl (turn op recalcMask) acl := by
  induction es generalizing acl with
  | nil => rfl
  | cons e es ih => rw [turns, List.getLastD_cons, ih, List.foldl_cons]

theorem lastWritten_of_valid {op : Operation} {recalcMask : Bool} {acl : Acl} {es : List Entry}
    (h : ∀ A ∈ turns op recalcMask acl es, aclValid A) :
    lastWritten op recalcMask acl es = es.foldl (turn op recalcMask) acl := by
  rw [lastWritten, List.takeWhile_eq_self_iff.2 h, turns_getLastD]

theorem turns_ne_nil {op : Operation} {recalcMask : Bool} {acl : Acl} {es : List Entry} (h : es ≠ []) :
    turns op recalcMask acl es ≠ [] := by
  cases es with
  | nil => exact absurd rfl h
  | cons e es => simp [turns]

theorem foldl_turn_mem {op : Operation} {recalcMask : Bool} {acl : Acl} {es : List Entry} (h : es ≠ []) :
    es.foldl (turn op recalcMask) acl ∈ turns op recalcMask acl es := by
  rw [← turns_getLastD, List.getLastD_eq_getLast?, List.getLast?_eq_some_getLast (turns_ne_nil h)]
  exact List.getLast_mem _

theorem parseEntries_ne_nil {names : Names} {permsReqd : Bool} {n : ℕ} {strs : List (List Char)}
    {es : List Entry} (hne : strs ≠ []) (h : parseEntries names permsReqd n strs = .ok es) : es ≠ [] := by
  cases strs with
  | nil => exact absurd rfl hne
  | cons entry strs =>
    rintro rfl
    rw [parseEntries] at h
    split_ifs at h
    cases he : parseEntrySpec names permsReqd entry with
    | error err => simp [he, Except.bind] at h
    | ok e =>
      cases hes : parseEntries names permsReqd (n + 1) strs with
      | error err => simp [he, hes, Except.bind, Except.map] at h
      | ok es => simp [he, hes, Except.bind, Except.map] at h

theorem nodupKeys_of_valid {acl : Acl} (h : aclValid acl = true) : acl.NodupKeys := by
  simp only [aclValid, Bool.and_eq_true, decide_eq_true_eq] at h
  exact h.2

/-- An update is all or nothing exactly when every ACL on the way is valid, or when the target is not
and nothing has been changed before the first ACL on the way that is not. -/
theorem all_or_nothing_iff (names : Names) (file : File) (useDefaultACL : Bool) (op : Operation)
    (recalcMask : Bool) (aclStr : List Char) (aclist : List Entry)
    (hparse : parseACL names (op = .modifyEntries) aclStr = .ok aclist)
    (hfile : aclValid (aclGetFile file (if useDefaultACL then .default else .access)) = true ∨
      useDefaultACL = true ∧ file.default = []) :
    let type := if useDefaultACL then AclType.default else .access
    let acl := aclGetFile file type
    AllOrNothing file type (target op recalcMask acl aclist)
        (updateACL file useDefaultACL aclist op recalcMask) ↔
      (∀ A ∈ turns op recalcMask acl aclist, aclValid A = true) ∨
        aclValid (target op recalcMask acl aclist) = false ∧
          (lastWritten op recalcMask acl aclist).Perm acl := by
  intro type acl
  have hne : aclist ≠ [] := parseEntries_ne_nil (List.splitOn_ne_nil ',' aclStr) hparse
  have nd : acl.NodupKeys := by
    rcases hfile with hv | ⟨hd, hnil⟩
    · exact nodupKeys_of_valid hv
    · have hacl : acl = [] := by simp [acl, type, hd, aclGetFile, hnil]
      rw [hacl]
      exact List.nodupKeys_nil
  have hperm := foldl_turn_perm_target nd op recalcMask hne
  have hresult := updateLoop_eq type op recalcMask aclist file
  rw [AllOrNothing, show updateACL file useDefaultACL aclist op recalcMask = _ from hresult]
  by_cases hall : ∀ A ∈ turns op recalcMask acl aclist, aclValid A = true
  · -- the last ACL written is the target
    have hvalid : aclValid (target op recalcMask acl aclist) = true :=
      (aclValid_perm hperm).symm.trans (hall _ (foldl_turn_mem hne))
    rw [if_pos hvalid, if_pos (List.all_eq_true.2 hall), lastWritten_of_valid hall]
    exact ⟨fun _ => Or.inl hall, fun _ => ⟨_, hperm, rfl⟩⟩
  · rw [if_neg (fun h => hall (List.all_eq_true.1 h))]
    by_cases hvalid : aclValid (target op recalcMask acl aclist) = true
    · simp [hvalid, hall]
    · rw [if_neg hvalid]
      constructor
      · rintro ⟨call, A, hA, heq⟩
        have hset := congrArg (fun r => aclGetFile r.2 type) heq
        simp only [get_set] at hset
        exact Or.inr ⟨by simpa using hvalid, hset ▸ hA⟩
      · rintro (h | ⟨-, h⟩)
        · exact absurd h hall
        · exact ⟨_, _, h, rfl⟩

/-! ## Runs -/

def sampleNames : Names where
  user name := if name = "alice".toList then some 1000 else none
  group name := if name = "staff".toList then some 50 else none

def sampleFile : File where
  access := [⟨.userObj, true, true, false⟩, ⟨.groupObj, true, false, false⟩,
    ⟨.other, false, false, false⟩]
  default := []

theorem all_or_nothing_named_user :
    let aclist : List Entry := [⟨.user 1000, true, true, false⟩, ⟨.group 50, true, false, false⟩]
    parseACL sampleNames true "u:alice:rw,g:staff:r".toList = .ok aclist ∧
      AllOrNothing sampleFile .access (target .modifyEntries true sampleFile.access aclist)
        (updateACL sampleFile false aclist .modifyEntries true) :=
  ⟨by decide +kernel,
    (all_or_nothing_iff sampleNames sampleFile false .modifyEntries true
      "u:alice:rw,g:staff:r".toList _ (by decide +kernel) (Or.inl (by decide +kernel))).2
      (Or.inl (by decide +kernel))⟩

/-- A default ACL cannot be built entry by entry, since the first entry alone is no valid ACL. With `-n`
an update can fail at its second entry, and the first one stays. -/
theorem update_not_all_or_nothing :
    (∃ aclist, parseACL sampleNames true "u::rwx,g::r-x,o::r-x".toList = .ok aclist ∧
      aclValid (target .modifyEntries true sampleFile.default aclist) = true ∧
      updateACL sampleFile true aclist .modifyEntries true = (.errExit "acl_valid", sampleFile)) ∧
    ∃ aclist, parseACL sampleNames true "u::rwx,u:alice:r".toList = .ok aclist ∧
      aclValid (target .modifyEntries false sampleFile.access aclist) = false ∧
      ∃ file, updateACL sampleFile false aclist .modifyEntries false = (.errExit "acl_valid", file) ∧
        ¬ file.access.Perm sampleFile.access := by
  constructor
  · refine ⟨[⟨.userObj, true, true, true⟩, ⟨.groupObj, true, false, true⟩,
      ⟨.other, true, false, true⟩], ?_⟩
    decide +kernel
  · refine ⟨[⟨.userObj, true, true, true⟩, ⟨.user 1000, true, false, false⟩], ?_, ?_,
      ⟨⟨⟨.userObj, true, true, true⟩ :: sampleFile.access.tail, []⟩, ?_, ?_⟩⟩ <;>
    decide +kernel

end AclUpdate
