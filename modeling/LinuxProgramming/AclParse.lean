import LinuxProgramming.CNumbers
import LinuxProgramming.SeparatedText

/-! # The text of an ACL, cut in place

`parseACL` and `parseEntrySpec` write a NUL over each comma and over the first two colons of an
entry and go on reading the same bytes. A pointer is what stands from there on; the entries are
those that the cuts leave. -/
namespace AclParse

open CStrings CNumbers SeparatedText

def colon : Byte := 58
def comma : Byte := 44

inductive AclTag where
  | userObj | user | groupObj | group | mask | other
  deriving DecidableEq, Repr

/-- `perms` is `none` where the function leaves it as it was. -/
structure AccessControlEntry where
  tag : AclTag
  qual : UInt32
  perms : Option ℕ
  deriving DecidableEq, Repr

def aclRead : ℕ := 4
def aclWrite : ℕ := 2
def aclExecute : ℕ := 1

/-- The messages, and what they quote. -/
inductive ParseError where
  | missingColon (entryStr : List Byte)
  | cannotSpecify
  | mustSpecify
  | badTag (tag : List Byte)
  | badUser (name : List Byte)
  | badGroup (name : List Byte)
  | badPerm (c : Byte)
  | tooMany
  deriving DecidableEq, Repr

def ParseError.text : ParseError → List Byte
  | .missingColon entryStr => ascii "Missing initial colon in ACL entry: " ++ entryStr ++ ascii "\n"
  | .cannotSpecify => ascii "Cannot specify permissions here\n"
  | .mustSpecify => ascii "Must specify permissions\n"
  | .badTag tag => ascii "Bad tag: " ++ tag ++ ascii "\n"
  | .badUser name => ascii "Bad user ID: " ++ name ++ ascii "\n"
  | .badGroup name => ascii "Bad group ID: " ++ name ++ ascii "\n"
  | .badPerm c => ascii "Bad character in permissions string: " ++ c :: ascii "\n"
  | .tooMany => ascii "Too many entries in ACL\n"

/-- The ids of the user and the group database. -/
structure Names where
  getpwnam : List Byte → Option UInt32
  getgrnam : List Byte → Option UInt32

/-- `(uid_t) -1` and `(gid_t) -1`. -/
def noId : UInt32 := 4294967295

def idFromName (getnam : List Byte → Option UInt32) (name : List Byte) : UInt32 :=
  if name = [] then noId
  else if (strtol name).2 = [] then UInt32.ofInt (strtol name).1
  else (getnam name).getD noId

def userIdFromName (names : Names) : List Byte → UInt32 := idFromName names.getpwnam
def groupIdFromName (names : Names) : List Byte → UInt32 := idFromName names.getgrnam

def tagOf (tag : List Byte) (hasQual : Bool) : Option AclTag :=
  if tag = ascii "u" ∨ tag = ascii "user" then some (if hasQual then .user else .userObj)
  else if tag = ascii "g" ∨ tag = ascii "group" then some (if hasQual then .group else .groupObj)
  else if tag = ascii "o" ∨ tag = ascii "other" then some .other
  else if tag = ascii "m" ∨ tag = ascii "mask" then some .mask
  else none

def qualOf (names : Names) (tag : AclTag) (name : List Byte) : Except ParseError UInt32 :=
  match tag with
  | .user => if userIdFromName names name = noId then .error (.badUser name)
      else .ok (userIdFromName names name)
  | .group => if groupIdFromName names name = noId then .error (.badGroup name)
      else .ok (groupIdFromName names name)
  | _ => .ok 0

def parsePerms (perms : ℕ) : List Byte → Except ParseError ℕ
  | [] => .ok perms
  | c :: p =>
    if c = 0 then .ok perms
    else if c = 114 then parsePerms (perms ||| aclRead) p
    else if c = 119 then parsePerms (perms ||| aclWrite) p
    else if c = 120 then parsePerms (perms ||| aclExecute) p
    else if c ≠ 45 then .error (.badPerm c)
    else parsePerms perms p

/-- The entry and the bytes from `entryStr` on, with the NULs that have been written. -/
def parseEntrySpec (names : Names) (permsReqd : Bool) (entryStr : List Byte) :
    Except ParseError AccessControlEntry × List Byte :=
  match strchr colon entryStr with
  | none => (.error (.missingColon (cstr entryStr)), entryStr)
  | some colon1 =>
    let next := (entryStr.drop (colon1 + 1)).headD 0
    let hasQual := next ≠ 0 && next ≠ colon
    let entryStr := entryStr.set colon1 0
    let colon2 := (strchr colon (entryStr.drop (colon1 + 1))).map (colon1 + 1 + ·)
    let hasPerms := colon2.any fun colon2 => (entryStr.drop (colon2 + 1)).headD 0 ≠ 0
    if hasPerms && !permsReqd then (.error .cannotSpecify, entryStr)
    else if !hasPerms && permsReqd then (.error .mustSpecify, entryStr)
    else
      match tagOf (cstr entryStr) hasQual with
      | none => (.error (.badTag (cstr entryStr)), entryStr)
      | some tag =>
        let entryStr := colon2.elim entryStr fun colon2 => entryStr.set colon2 0
        match qualOf names tag (cstr (entryStr.drop (colon1 + 1))) with
        | .error e => (.error e, entryStr)
        | .ok qual =>
          let perms := if hasPerms then
              (parsePerms 0 (entryStr.drop (colon2.getD 0 + 1))).map some else .ok none
          (perms.map fun perms => ⟨tag, qual, perms⟩, entryStr)

def maxEntries : ℕ := 10000

/-- The loop, with room for `room` more entries in `aclist`. -/
def parseLoop (names : Names) (permsReqd : Bool) :
    ℕ → List Byte → Except ParseError (List AccessControlEntry)
  | 0, _ => .error .tooMany
  | room + 1, nextEntry =>
    let comma := strchr comma nextEntry
    let nextEntry := comma.elim nextEntry fun comma => nextEntry.set comma 0
    match parseEntrySpec names permsReqd nextEntry with
    | (.error e, _) => .error e
    | (.ok ace, nextEntry) =>
      match comma with
      | none => .ok [ace]
      | some comma => (parseLoop names permsReqd room (nextEntry.drop (comma + 1))).map (ace :: ·)

/-- The entries that are filled in; their number is returned, or else -1. -/
def parseACL (names : Names) (permsReqd : Bool) (aclStr : List Byte) :
    Except ParseError (List AccessControlEntry) :=
  parseLoop names permsReqd maxEntries aclStr

/-! ## An entry whose parts are known -/

/-- What is made of the tag, the qualifier and, if there is a second colon, the permissions. -/
def parseParts (names : Names) (permsReqd : Bool) (tag qual : List Byte) (perms : Option (List Byte)) :
    Except ParseError AccessControlEntry :=
  let hasPerms := perms.any (· ≠ [])
  if hasPerms && !permsReqd then .error .cannotSpecify
  else if !hasPerms && permsReqd then .error .mustSpecify
  else
    match tagOf tag (qual ≠ []) with
    | none => .error (.badTag tag)
    | some t =>
      match qualOf names t qual with
      | .error e => .error e
      | .ok q =>
        let p := if hasPerms then (parsePerms 0 (perms.getD [])).map some else .ok none
        p.map fun p => ⟨t, q, p⟩

section Parts

variable (names : Names) (permsReqd : Bool) {s tag qual rest : List Byte} (post : List Byte)

theorem parsePerms_append_nul (h : (0 : Byte) ∉ s) (perms : ℕ) :
    parsePerms perms (s ++ 0 :: post) = parsePerms perms s := by
  induction s generalizing perms with
  | nil => rfl
  | cons c s ih =>
    simp only [List.mem_cons, not_or] at h
    simp only [List.cons_append, parsePerms, Ne.symm h.1, if_false, ih h.2]

theorem headD_ne_zero (h : (0 : Byte) ∉ s) :
    decide ((s ++ 0 :: post).headD 0 ≠ 0) = decide (s ≠ []) := by
  cases s with
  | nil => rfl
  | cons b s =>
    simp only [List.mem_cons, not_or] at h
    simp [Ne.symm h.1]

/-- The test for a qualifier, of the byte behind the first colon. -/
theorem hasQual_eq (hqual : colon ∉ qual ∧ (0 : Byte) ∉ qual) {c : Byte} (hc : c = 0 ∨ c = colon) :
    (decide ((qual ++ c :: rest).headD 0 ≠ 0) && decide ((qual ++ c :: rest).headD 0 ≠ colon)) =
      decide (qual ≠ []) := by
  cases qual with
  | nil => rcases hc with rfl | rfl <;> rfl
  | cons b qual =>
    simp only [List.mem_cons, not_or] at hqual
    simp [Ne.symm hqual.1.1, Ne.symm hqual.2.1]

theorem parseEntrySpec_two (htag : colon ∉ tag ∧ (0 : Byte) ∉ tag)
    (hqual : colon ∉ qual ∧ (0 : Byte) ∉ qual) :
    parseEntrySpec names permsReqd (tag ++ colon :: (qual ++ 0 :: post)) =
      (parseParts names permsReqd tag qual none, tag ++ 0 :: (qual ++ 0 :: post)) := by
  simp only [parseEntrySpec, strchr_append htag.1 htag.2, drop_append_cons, set_append_cons,
    strchr_before_nul (show colon ≠ 0 by decide) hqual.1, hasQual_eq hqual (.inl rfl),
    cstr_append_nul htag.2, parseParts, Option.map_none, Option.any_none, Option.elim_none,
    cstr_append_nul hqual.2]
  cases permsReqd with
  | true => rfl
  | false =>
    cases tagOf tag (decide (qual ≠ [])) with
    | none => rfl
    | some t =>
      cases hq : qualOf names t qual with
      | error e => simp [hq]
      | ok q => simp [hq]

theorem parseEntrySpec_three {perms : List Byte} (htag : colon ∉ tag ∧ (0 : Byte) ∉ tag)
    (hqual : colon ∉ qual ∧ (0 : Byte) ∉ qual) (hperms : (0 : Byte) ∉ perms) :
    ∃ c, parseEntrySpec names permsReqd (tag ++ colon :: (qual ++ colon :: (perms ++ 0 :: post))) =
      (parseParts names permsReqd tag qual (some perms),
        tag ++ 0 :: (qual ++ c :: (perms ++ 0 :: post))) := by
  have hlen : (tag ++ 0 :: qual).length = tag.length + 1 + qual.length := by
    simp only [List.length_append, List.length_cons]
    omega
  have hset : (tag ++ 0 :: (qual ++ colon :: (perms ++ 0 :: post))).set (tag.length + 1 + qual.length) 0 =
      tag ++ 0 :: (qual ++ 0 :: (perms ++ 0 :: post)) := by
    have := set_append_cons (tag ++ 0 :: qual) colon 0 (perms ++ 0 :: post)
    simpa only [hlen, List.append_assoc, List.cons_append] using this
  have hdrop (c : Byte) : (tag ++ 0 :: (qual ++ c :: (perms ++ 0 :: post))).drop
      (tag.length + 1 + qual.length + 1) = perms ++ 0 :: post := by
    have := drop_append_cons (tag ++ 0 :: qual) c (perms ++ 0 :: post)
    simpa only [hlen, List.append_assoc, List.cons_append] using this
  simp only [parseEntrySpec, strchr_append htag.1 htag.2, drop_append_cons, set_append_cons,
    strchr_append hqual.1 hqual.2, hasQual_eq hqual (.inr rfl),
    cstr_append_nul htag.2, parseParts, Option.map_some, Option.any_some, Option.elim_some,
    hset, hdrop, headD_ne_zero post hperms, cstr_append_nul hqual.2, Option.getD_some,
    parsePerms_append_nul post hperms]
  split
  · exact ⟨colon, rfl⟩
  · split
    · exact ⟨colon, rfl⟩
    · cases tagOf tag (decide (qual ≠ [])) with
      | none => exact ⟨colon, rfl⟩
      | some t =>
        refine ⟨0, ?_⟩
        cases hq : qualOf names t qual with
        | error e => simp [hq]
        | ok q => simp [hq]

/-- What is made of the C string `s`. -/
def entryOf (names : Names) (permsReqd : Bool) (s : List Byte) : Except ParseError AccessControlEntry :=
  (parseEntrySpec names permsReqd (s ++ [0])).1

def permsText : Option (List Byte) → List Byte
  | none => []
  | some perms => colon :: perms

theorem parseEntrySpec_parts {perms : Option (List Byte)} (htag : colon ∉ tag) (hqual : colon ∉ qual)
    (h0 : (0 : Byte) ∉ tag ++ colon :: (qual ++ permsText perms)) :
    ∃ s', s'.length = (tag ++ colon :: (qual ++ permsText perms)).length ∧
      parseEntrySpec names permsReqd (tag ++ colon :: (qual ++ permsText perms) ++ 0 :: post) =
        (parseParts names permsReqd tag qual perms, s' ++ 0 :: post) := by
  simp only [List.mem_append, List.mem_cons, not_or] at h0
  cases perms with
  | none =>
    refine ⟨tag ++ 0 :: qual, by simp [permsText], ?_⟩
    have := parseEntrySpec_two names permsReqd post ⟨htag, h0.1⟩ ⟨hqual, h0.2.2.1⟩
    simpa [permsText] using this
  | some perms =>
    have hperms : (0 : Byte) ∉ perms := fun h => h0.2.2.2 (List.mem_cons_of_mem _ h)
    obtain ⟨c, hc⟩ := parseEntrySpec_three names permsReqd post ⟨htag, h0.1⟩ ⟨hqual, h0.2.2.1⟩ hperms
    refine ⟨tag ++ 0 :: (qual ++ c :: perms), by simp [permsText], ?_⟩
    simpa [permsText] using hc

theorem parseEntrySpec_noColon (h : colon ∉ s) (h0 : (0 : Byte) ∉ s) :
    parseEntrySpec names permsReqd (s ++ 0 :: post) = (.error (.missingColon s), s ++ 0 :: post) := by
  rw [parseEntrySpec, strchr_before_nul (by decide) h, cstr_append_nul h0]

/-- A C string with a colon has a tag, a qualifier and perhaps permissions. -/
theorem exists_parts (h : colon ∈ s) : ∃ tag qual perms,
    s = tag ++ colon :: (qual ++ permsText perms) ∧ colon ∉ tag ∧ colon ∉ qual := by
  obtain ⟨tag, rest, rfl, htag⟩ := List.eq_append_cons_of_mem h
  by_cases hrest : colon ∈ rest
  · obtain ⟨qual, perms, rfl, hqual⟩ := List.eq_append_cons_of_mem hrest
    exact ⟨tag, qual, some perms, rfl, htag, hqual⟩
  · refine ⟨tag, rest, none, ?_, htag, hrest⟩
    rw [permsText, List.append_nil]

theorem parseEntrySpec_eq (h0 : (0 : Byte) ∉ s) : ∃ s', s'.length = s.length ∧
    parseEntrySpec names permsReqd (s ++ 0 :: post) = (entryOf names permsReqd s, s' ++ 0 :: post) := by
  by_cases h : colon ∈ s
  · obtain ⟨tag, qual, perms, rfl, htag, hqual⟩ := exists_parts h
    obtain ⟨s', hlen, heq⟩ := parseEntrySpec_parts names permsReqd post htag hqual h0
    obtain ⟨_, -, heq'⟩ := parseEntrySpec_parts names permsReqd [] htag hqual h0
    refine ⟨s', hlen, ?_⟩
    rw [heq, entryOf, heq']
  · refine ⟨s, rfl, ?_⟩
    rw [entryOf, parseEntrySpec_noColon _ _ _ h h0, parseEntrySpec_noColon _ _ _ h h0]

/-! ## The list -/

theorem map_eq_ok_iff {α β ε : Type*} {x : Except ε α} {f : α → β} {b : β} :
    x.map f = .ok b ↔ ∃ a, x = .ok a ∧ f a = b := by
  cases x <;> simp [Except.map]

theorem bind_eq_ok_iff {α β ε : Type*} {x : Except ε α} {f : α → Except ε β} {b : β} :
    x.bind f = .ok b ↔ ∃ a, x = .ok a ∧ f a = .ok b := by
  cases x <;> simp [Except.bind]

theorem parseLoop_last (room : ℕ) (hcomma : comma ∉ s) (h0 : (0 : Byte) ∉ s) :
    parseLoop names permsReqd (room + 1) (s ++ 0 :: post) =
      (entryOf names permsReqd s).map fun ace => [ace] := by
  obtain ⟨s', -, heq⟩ := parseEntrySpec_eq names permsReqd post h0
  rw [parseLoop, strchr_before_nul (by decide) hcomma]
  simp only [Option.elim_none, heq]
  cases entryOf names permsReqd s <;> rfl

theorem parseLoop_more (room : ℕ) (hcomma : comma ∉ s) (h0 : (0 : Byte) ∉ s) :
    parseLoop names permsReqd (room + 1) (s ++ comma :: rest) =
      (entryOf names permsReqd s).bind fun ace =>
        (parseLoop names permsReqd room rest).map (ace :: ·) := by
  obtain ⟨s', hlen, heq⟩ := parseEntrySpec_eq names permsReqd rest h0
  rw [parseLoop, strchr_append hcomma h0]
  simp only [Option.elim_some, set_append_cons, heq]
  cases entryOf names permsReqd s with
  | error e => rfl
  | ok ace =>
    simp only [← hlen, drop_append_cons]
    rfl

theorem parseLoop_ok_iff (room : ℕ) (h0 : (0 : Byte) ∉ s) (entries : List AccessControlEntry) :
    parseLoop names permsReqd room (s ++ 0 :: post) = .ok entries ↔
      (s.splitOn comma).length ≤ room ∧
        List.Forall₂ (fun t ace => entryOf names permsReqd t = .ok ace) (s.splitOn comma) entries := by
  induction s using separated_induction comma generalizing room entries with
  | last s hs =>
    rw [List.splitOn_eq_singleton hs]
    cases room with
    | zero => simp [parseLoop]
    | succ room =>
      rw [parseLoop_last _ _ _ room hs h0, map_eq_ok_iff, List.forall₂_cons_left_iff]
      simp [eq_comm]
  | more s t hs ih =>
    simp only [List.mem_append, List.mem_cons, not_or] at h0
    rw [List.splitOn_append_cons_self_of_not_mem hs, List.append_assoc, List.cons_append]
    cases room with
    | zero => simp [parseLoop]
    | succ room =>
      simp only [parseLoop_more _ _ room hs h0.1, bind_eq_ok_iff, map_eq_ok_iff, ih room h0.2.2,
        List.forall₂_cons_left_iff, List.length_cons, Nat.add_le_add_iff_right]
      constructor
      · rintro ⟨ace, hace, entries, ⟨hlen, hall⟩, rfl⟩
        exact ⟨hlen, ace, entries, hace, hall, rfl⟩
      · rintro ⟨hlen, ace, entries, hace, hall, rfl⟩
        exact ⟨ace, hace, entries, ⟨hlen, hall⟩, rfl⟩

end Parts

/-! ## The grammar -/

inductive TagWord where
  | u | user | g | group | o | other | m | mask
  deriving DecidableEq, Repr

def TagWord.text : TagWord → List Byte
  | .u => ascii "u"
  | .user => ascii "user"
  | .g => ascii "g"
  | .group => ascii "group"
  | .o => ascii "o"
  | .other => ascii "other"
  | .m => ascii "m"
  | .mask => ascii "mask"

def TagWord.tag : TagWord → Bool → AclTag
  | .u, hasQual | .user, hasQual => if hasQual then .user else .userObj
  | .g, hasQual | .group, hasQual => if hasQual then .group else .groupObj
  | .o, _ | .other, _ => .other
  | .m, _ | .mask, _ => .mask

/-- `tag:qualifier` or `tag:qualifier:perms`. -/
structure Item where
  word : TagWord
  qual : List Byte
  perms : Option (List Byte)
  deriving DecidableEq, Repr

def Item.text (i : Item) : List Byte := i.word.text ++ colon :: (i.qual ++ permsText i.perms)

def aclText (items : List Item) : List Byte := [comma].intercalate (items.map Item.text)

def Item.tag (i : Item) : AclTag := i.word.tag (i.qual ≠ [])

def tagId (names : Names) (tag : AclTag) (qual : List Byte) : UInt32 :=
  match tag with
  | .user => userIdFromName names qual
  | .group => groupIdFromName names qual
  | _ => 0

def permBits (perms : List Byte) : ℕ :=
  (if 114 ∈ perms then aclRead else 0) ||| (if 119 ∈ perms then aclWrite else 0) |||
    (if 120 ∈ perms then aclExecute else 0)

/-- What the grammar asks of the permissions. -/
structure PermsOK (permsReqd : Bool) (perms : Option (List Byte)) : Prop where
  reqd : perms.any (· ≠ []) = permsReqd
  chars : ∀ b ∈ perms.getD [], b ∈ [(114 : Byte), 119, 120, 45]

/-- What the grammar asks of an item. -/
structure Item.Accepted (names : Names) (permsReqd : Bool) (i : Item) : Prop where
  one : colon ∉ i.qual
  alone : comma ∉ i.qual
  resolves : tagId names i.tag i.qual ≠ noId
  perms : PermsOK permsReqd i.perms

def Item.entry (names : Names) (permsReqd : Bool) (i : Item) : AccessControlEntry where
  tag := i.tag
  qual := tagId names i.tag i.qual
  perms := if permsReqd then some (permBits (i.perms.getD [])) else none

variable {names : Names} {permsReqd : Bool} {s qual : List Byte}

theorem tagOf_text (w : TagWord) (hasQual : Bool) : tagOf w.text hasQual = some (w.tag hasQual) := by
  cases w <;> cases hasQual <;> decide +kernel

theorem exists_word {tag : List Byte} {hasQual : Bool} {a : AclTag} (h : tagOf tag hasQual = some a) :
    ∃ w : TagWord, tag = w.text ∧ a = w.tag hasQual := by
  have hword : ∃ w : TagWord, tag = w.text := by
    unfold tagOf at h
    split at h
    · rename_i ht
      exact ht.elim (⟨.u, ·⟩) (⟨.user, ·⟩)
    · split at h
      · rename_i ht
        exact ht.elim (⟨.g, ·⟩) (⟨.group, ·⟩)
      · split at h
        · rename_i ht
          exact ht.elim (⟨.o, ·⟩) (⟨.other, ·⟩)
        · split at h
          · rename_i ht
            exact ht.elim (⟨.m, ·⟩) (⟨.mask, ·⟩)
          · cases h
  obtain ⟨w, rfl⟩ := hword
  rw [tagOf_text] at h
  exact ⟨w, rfl, (Option.some.inj h).symm⟩

theorem qualOf_eq_ok_iff (a : AclTag) (q : UInt32) :
    qualOf names a qual = .ok q ↔ tagId names a qual ≠ noId ∧ q = tagId names a qual := by
  cases a <;> simp only [qualOf, tagId]
  case user => split <;> simp_all [eq_comm]
  case group => split <;> simp_all [eq_comm]
  all_goals
    simp [noId, eq_comm]

theorem or_bits (r w x r' w' x' : Prop) [Decidable r] [Decidable w] [Decidable x] [Decidable r']
    [Decidable w'] [Decidable x'] :
    ((if r ∨ r' then aclRead else 0) ||| (if w ∨ w' then aclWrite else 0) |||
      (if x ∨ x' then aclExecute else 0)) =
    ((if r then aclRead else 0) ||| (if w then aclWrite else 0) ||| (if x then aclExecute else 0)) |||
      ((if r' then aclRead else 0) ||| (if w' then aclWrite else 0) |||
        (if x' then aclExecute else 0)) := by
  by_cases r <;> by_cases w <;> by_cases x <;> by_cases r' <;> by_cases w' <;> by_cases x' <;>
    simp only [*, or_true, or_false, if_true, if_false] <;> decide

theorem permBits_append (s t : List Byte) : permBits (s ++ t) = permBits s ||| permBits t := by
  simp only [permBits, List.mem_append]
  exact or_bits _ _ _ _ _ _

theorem parsePerms_cons {c : Byte} (hc : c ≠ 0) (acc : ℕ) (s : List Byte) :
    parsePerms acc (c :: s) =
      if c ∈ [(114 : Byte), 119, 120, 45] then parsePerms (acc ||| permBits [c]) s
      else .error (.badPerm c) := by
  rw [parsePerms, if_neg hc]
  by_cases hr : c = 114
  · subst hr
    rfl
  · by_cases hw : c = 119
    · subst hw
      rfl
    · by_cases hx : c = 120
      · subst hx
        rfl
      · by_cases hminus : c = 45
        · subst hminus
          simp [permBits]
        · simp [hr, hw, hx, hminus]

theorem parsePerms_eq_ok_iff (h0 : (0 : Byte) ∉ s) (acc p : ℕ) :
    parsePerms acc s = .ok p ↔
      (∀ b ∈ s, b ∈ [(114 : Byte), 119, 120, 45]) ∧ p = acc ||| permBits s := by
  induction s generalizing acc with
  | nil => simp [parsePerms, permBits, eq_comm]
  | cons c s ih =>
    simp only [List.mem_cons, not_or] at h0
    rw [parsePerms_cons (Ne.symm h0.1), List.forall_mem_cons]
    split
    · rename_i hc
      have hbits : permBits (c :: s) = permBits [c] ||| permBits s := permBits_append [c] s
      rw [ih h0.2, hbits, Nat.or_assoc]
      simp only [hc, true_and]
    · rename_i hc
      simp [hc]

theorem parseParts_error (names : Names) {tag : List Byte} {perms : Option (List Byte)}
    (h : perms.any (· ≠ []) ≠ permsReqd ∨ tagOf tag (qual ≠ []) = none) :
    ∃ e, parseParts names permsReqd tag qual perms = .error e := by
  unfold parseParts
  by_cases hreqd : perms.any (· ≠ []) = permsReqd
  · have htag := h.resolve_left fun hne => hne hreqd
    rw [hreqd, htag]
    cases permsReqd <;> exact ⟨_, rfl⟩
  · revert hreqd
    cases perms.any (· ≠ []) <;> cases permsReqd <;> simp

theorem parseParts_word (w : TagWord) {perms : Option (List Byte)} (h : perms.any (· ≠ []) = permsReqd) :
    parseParts names permsReqd w.text qual perms =
      (qualOf names (w.tag (qual ≠ [])) qual).bind fun q =>
        (if permsReqd then (parsePerms 0 (perms.getD [])).map some else .ok none).map
          fun p => ⟨w.tag (qual ≠ []), q, p⟩ := by
  unfold parseParts
  rw [h]
  cases permsReqd <;> simp only [tagOf_text] <;>
    cases qualOf names (w.tag (decide (qual ≠ []))) qual <;> rfl

/-- The parts of an entry are accepted exactly when they make an item of the grammar. -/
theorem parseParts_eq_ok_iff {tag : List Byte} {perms : Option (List Byte)}
    (h0 : (0 : Byte) ∉ perms.getD []) (ace : AccessControlEntry) :
    parseParts names permsReqd tag qual perms = .ok ace ↔
      ∃ w : TagWord, tag = w.text ∧ tagId names (w.tag (qual ≠ [])) qual ≠ noId ∧
        PermsOK permsReqd perms ∧ ace = (Item.mk w qual perms).entry names permsReqd := by
  have herror (h : perms.any (· ≠ []) ≠ permsReqd ∨ tagOf tag (qual ≠ []) = none) :
      parseParts names permsReqd tag qual perms ≠ .ok ace := by
    obtain ⟨e, he⟩ := parseParts_error names h
    rw [he]
    intro hok
    cases hok
  constructor
  · intro h
    have hreqd : perms.any (· ≠ []) = permsReqd := by
      by_contra hne
      exact herror (.inl hne) h
    cases htag : tagOf tag (decide (qual ≠ [])) with
    | none => exact absurd h (herror (.inr htag))
    | some a =>
      obtain ⟨w, rfl, rfl⟩ := exists_word htag
      rw [parseParts_word w hreqd, bind_eq_ok_iff] at h
      obtain ⟨q, hq, h⟩ := h
      obtain ⟨hid, rfl⟩ := (qualOf_eq_ok_iff _ q).mp hq
      obtain ⟨p, hp, rfl⟩ := map_eq_ok_iff.mp h
      refine ⟨w, rfl, hid, ?_⟩
      cases permsReqd with
      | false =>
        cases hp
        refine ⟨⟨hreqd, ?_⟩, rfl⟩
        have hnil : perms.getD [] = [] := by
          cases perms with
          | none => rfl
          | some p => simpa using hreqd
        intro b hb
        rw [hnil] at hb
        cases hb
      | true =>
        rw [if_pos rfl, map_eq_ok_iff] at hp
        obtain ⟨bits, hbits, rfl⟩ := hp
        obtain ⟨hchars, rfl⟩ := (parsePerms_eq_ok_iff h0 0 bits).mp hbits
        refine ⟨⟨hreqd, hchars⟩, ?_⟩
        simp [Item.entry, Item.tag]
  · rintro ⟨w, rfl, hid, hp, rfl⟩
    rw [parseParts_word w hp.reqd, bind_eq_ok_iff]
    refine ⟨_, (qualOf_eq_ok_iff _ _).mpr ⟨hid, rfl⟩, map_eq_ok_iff.mpr ⟨_, ?_, rfl⟩⟩
    cases permsReqd with
    | false => rfl
    | true =>
      rw [if_pos rfl, (parsePerms_eq_ok_iff h0 0 _).mpr ⟨hp.chars, rfl⟩]
      simp [Except.map]

theorem TagWord.text_injective : Function.Injective TagWord.text := by
  intro w w' h
  cases w <;> cases w' <;> first | rfl | exact absurd h (by decide +kernel)

theorem notMem_word (w : TagWord) : colon ∉ w.text ∧ comma ∉ w.text ∧ (0 : Byte) ∉ w.text := by
  cases w <;> decide +kernel

theorem notMem_permsText {perms : Option (List Byte)} (h : PermsOK permsReqd perms) {b : Byte}
    (hb : b ∉ [(114 : Byte), 119, 120, 45]) (hcolon : b ≠ colon) : b ∉ permsText perms := by
  cases perms with
  | none => exact List.not_mem_nil
  | some p =>
    intro hmem
    rcases List.mem_cons.mp hmem with rfl | hmem
    · exact hcolon rfl
    · exact hb (h.chars b hmem)

/-- One entry is accepted exactly when it is an item of the grammar. -/
theorem entryOf_eq_ok_iff (h0 : (0 : Byte) ∉ s) (hcomma : comma ∉ s) (ace : AccessControlEntry) :
    entryOf names permsReqd s = .ok ace ↔
      ∃ i : Item, s = i.text ∧ i.Accepted names permsReqd ∧ ace = i.entry names permsReqd := by
  constructor
  · intro h
    by_cases hcolon : colon ∈ s
    · obtain ⟨tag, qual, perms, rfl, htag, hqual⟩ := exists_parts hcolon
      obtain ⟨_, -, heq⟩ := parseEntrySpec_parts names permsReqd [] htag hqual h0
      rw [entryOf, heq] at h
      simp only [List.mem_append, List.mem_cons, not_or] at h0 hcomma
      have hnul : (0 : Byte) ∉ perms.getD [] := by
        intro hmem
        cases perms with
        | none => cases hmem
        | some p => exact h0.2.2.2 (List.mem_cons_of_mem _ hmem)
      obtain ⟨w, rfl, hid, hperms, rfl⟩ := (parseParts_eq_ok_iff hnul ace).mp h
      exact ⟨⟨w, qual, perms⟩, rfl, ⟨hqual, hcomma.2.2.1, hid, hperms⟩, rfl⟩
    · rw [entryOf, parseEntrySpec_noColon _ _ _ hcolon h0] at h
      exact absurd h (fun h => by cases h)
  · rintro ⟨i, rfl, hi, rfl⟩
    obtain ⟨_, -, heq⟩ := parseEntrySpec_parts names permsReqd [] (notMem_word i.word).1 hi.one h0
    rw [entryOf, Item.text, heq]
    refine (parseParts_eq_ok_iff ?_ _).mpr ⟨i.word, rfl, hi.resolves, hi.perms, rfl⟩
    intro hmem
    exact absurd (hi.perms.chars 0 hmem) (by decide)

theorem comma_notMem_text {i : Item} (hi : i.Accepted names permsReqd) : comma ∉ i.text := by
  simp only [Item.text, List.mem_append, List.mem_cons, not_or]
  exact ⟨(notMem_word _).2.1, by decide, hi.alone, notMem_permsText hi.perms (by decide) (by decide)⟩

theorem parseACL_ok_iff (h0 : (0 : Byte) ∉ s) (post : List Byte) (entries : List AccessControlEntry) :
    parseACL names permsReqd (s ++ 0 :: post) = .ok entries ↔
      ∃ items : List Item, items ≠ [] ∧ items.length ≤ maxEntries ∧ s = aclText items ∧
        (∀ i ∈ items, i.Accepted names permsReqd) ∧
        entries = items.map (Item.entry names permsReqd) := by
  have hpiece (t : List Byte) (ht : t ∈ s.splitOn comma) (ace : AccessControlEntry) :
      entryOf names permsReqd t = .ok ace ↔
        ∃ i : Item, t = i.text ∧ i.Accepted names permsReqd ∧ ace = i.entry names permsReqd := by
    exact entryOf_eq_ok_iff (fun hmem => h0 (mem_of_mem_splitOn ht hmem)) (notMem_of_mem_splitOn ht) ace
  have hsplit (items : List Item) (hne : items ≠ []) (hi : ∀ i ∈ items, i.Accepted names permsReqd) :
      (aclText items).splitOn comma = items.map Item.text := by
    refine List.splitOn_intercalate comma ?_ (by simpa using hne)
    intro l hl
    obtain ⟨i, hmem, rfl⟩ := List.mem_map.mp hl
    exact comma_notMem_text (hi i hmem)
  have hforall (items : List Item) :
      List.Forall₂ (fun i ace => Item.Accepted names permsReqd i ∧ ace = i.entry names permsReqd) items entries ↔
        (∀ i ∈ items, i.Accepted names permsReqd) ∧
          entries = items.map (Item.entry names permsReqd) := by
    rw [List.forall₂_and_left, forall₂_eq_map_iff]
  rw [parseACL, parseLoop_ok_iff _ _ _ maxEntries h0, forall₂_iff_exists_items hpiece]
  constructor
  · rintro ⟨hlen, items, htext, hitems⟩
    obtain ⟨hi, rfl⟩ := (hforall items).mp hitems
    refine ⟨items, ?_, ?_, ?_, hi, rfl⟩
    · rintro rfl
      exact List.splitOn_ne_nil _ _ htext
    · rwa [htext, List.length_map] at hlen
    · rw [aclText, ← htext, List.intercalate_splitOn]
  · rintro ⟨items, hne, hlen, rfl, hi, rfl⟩
    refine ⟨?_, items, hsplit items hne hi, (hforall items).mpr ⟨hi, rfl⟩⟩
    rwa [hsplit items hne hi, List.length_map]

/-! ## Printing entries -/

def AclTag.word : AclTag → TagWord
  | .userObj | .user => .u
  | .groupObj | .group => .g
  | .mask => .m
  | .other => .o

def AclTag.named : AclTag → Bool
  | .user | .group => true
  | _ => false

/-- `r`, `w`, `x`, or `-` in place of each. -/
def permLetters (bits : ℕ) : List Byte :=
  [if bits.testBit 2 then 114 else 45, if bits.testBit 1 then 119 else 45,
    if bits.testBit 0 then 120 else 45]

def printEntry (ace : AccessControlEntry) : Item where
  word := ace.tag.word
  qual := if ace.tag.named then decimal ace.qual.toNat else []
  perms := ace.perms.map permLetters

/-- What holds of every entry that has been filled in. -/
structure EntryOK (permsReqd : Bool) (ace : AccessControlEntry) : Prop where
  named : ace.tag.named = true → ace.qual ≠ noId
  unnamed : ace.tag.named = false → ace.qual = 0
  perms : ace.perms.isSome = permsReqd
  bits : ∀ bits ∈ ace.perms, bits < 8

theorem permBits_permLetters {bits : ℕ} (h : bits < 8) : permBits (permLetters bits) = bits := by
  revert bits
  decide

theorem permLetters_chars (bits : ℕ) : ∀ b ∈ permLetters bits, b ∈ [(114 : Byte), 119, 120, 45] := by
  intro b hb
  simp only [permLetters, List.mem_cons, List.not_mem_nil, or_false] at hb
  rcases hb with rfl | rfl | rfl <;> split <;> decide

theorem permBits_lt (perms : List Byte) : permBits perms < 8 := by
  unfold permBits
  split_ifs <;> decide

theorem idFromName_decimal (getnam : List Byte → Option UInt32) (id : UInt32) :
    idFromName getnam (decimal id.toNat) = id := by
  have hlt := id.toNat_lt
  have hstrtol : strtol (decimal id.toNat) = ((id.toNat : ℤ), []) := by
    rw [Digits.strtol_text ⟨decimal id.toNat, decimal_ne_nil _, fun b hb => isDigit_of_mem_decimal hb⟩,
      Digits.value, digitsValue_decimal_self, clampLong_of_mem (by simp only [longMin]; omega) (by simp only [longMax]; omega)]
  rw [idFromName, if_neg (decimal_ne_nil _), hstrtol, if_pos rfl]
  refine UInt32.toNat_inj.mp ?_
  change (UInt32.ofInt (id.toNat : ℤ)).toNat = id.toNat
  have hmod := toNat_ofInt_uint32 (id.toNat : ℤ)
  omega

theorem printEntry_tag (ace : AccessControlEntry) : (printEntry ace).tag = ace.tag := by
  obtain ⟨tag, qual, perms⟩ := ace
  cases tag <;> simp [printEntry, Item.tag, TagWord.tag, AclTag.word, AclTag.named, decimal_ne_nil]

theorem notMem_printed_qual (ace : AccessControlEntry) {b : Byte} (hb : isDigit b = false) :
    b ∉ (printEntry ace).qual := by
  simp only [printEntry]
  split
  · exact notMem_decimal hb
  · exact List.not_mem_nil

variable {ace : AccessControlEntry}

theorem printEntry_id (names : Names) (h : EntryOK permsReqd ace) :
    tagId names (printEntry ace).tag (printEntry ace).qual = ace.qual := by
  rw [printEntry_tag]
  cases htag : ace.tag with
  | user =>
    simp only [tagId, printEntry, htag, AclTag.named, if_true]
    exact idFromName_decimal _ _
  | group =>
    simp only [tagId, printEntry, htag, AclTag.named, if_true]
    exact idFromName_decimal _ _
  | _ =>
    refine (h.unnamed ?_).symm
    rw [htag]
    rfl

theorem EntryOK.ne_noId (h : EntryOK permsReqd ace) : ace.qual ≠ noId := by
  cases hnamed : ace.tag.named with
  | true => exact h.named hnamed
  | false =>
    rw [h.unnamed hnamed]
    decide

theorem printEntry_perms (h : EntryOK permsReqd ace) : PermsOK permsReqd (printEntry ace).perms := by
  have hsome := h.perms
  cases hperms : ace.perms with
  | none =>
    rw [hperms] at hsome
    simp only [printEntry, hperms]
    exact ⟨hsome, fun b hb => by cases hb⟩
  | some bits =>
    rw [hperms] at hsome
    simp only [printEntry, hperms]
    exact ⟨hsome, permLetters_chars bits⟩

/-- An entry that is printed is accepted again and denotes what it was. -/
theorem printEntry_spec (names : Names) (h : EntryOK permsReqd ace) :
    (printEntry ace).Accepted names permsReqd ∧ (printEntry ace).entry names permsReqd = ace := by
  have hid := printEntry_id names h
  constructor
  · refine ⟨notMem_printed_qual ace (by decide), notMem_printed_qual ace (by decide), ?_, printEntry_perms h⟩
    rw [hid]
    exact h.ne_noId
  · have hbits : (if permsReqd then some (permBits ((printEntry ace).perms.getD [])) else none) = ace.perms := by
      have hsome := h.perms
      cases hperms : ace.perms with
      | none =>
        rw [hperms] at hsome
        subst hsome
        rfl
      | some bits =>
        rw [hperms] at hsome
        subst hsome
        simp only [printEntry, hperms, Option.map_some, Option.getD_some, Option.isSome_some, if_true,
          permBits_permLetters (h.bits bits hperms)]
    rw [Item.entry, printEntry_tag, ← printEntry_tag ace, hid, printEntry_tag, hbits]

theorem Item.Accepted.entry_ok {i : Item} (hi : i.Accepted names permsReqd) :
    EntryOK permsReqd (i.entry names permsReqd) := by
  constructor
  · exact fun _ => hi.resolves
  · intro hnamed
    simp only [Item.entry] at hnamed ⊢
    cases htag : i.tag with
    | user =>
      rw [htag] at hnamed
      cases hnamed
    | group =>
      rw [htag] at hnamed
      cases hnamed
    | _ => rfl
  · simp only [Item.entry]
    cases permsReqd <;> rfl
  · intro bits hbits
    simp only [Item.entry] at hbits
    split at hbits
    · cases hbits
      exact permBits_lt _
    · cases hbits

theorem nul_notMem_aclText (entries : List AccessControlEntry) :
    (0 : Byte) ∉ aclText (entries.map printEntry) := by
  intro hmem
  obtain hsep | ⟨piece, hpiece, hmem⟩ := mem_intercalate hmem
  · cases hsep
  · simp only [List.mem_map, exists_exists_and_eq_and] at hpiece
    obtain ⟨ace, -, rfl⟩ := hpiece
    simp only [Item.text, List.mem_append, List.mem_cons] at hmem
    rcases hmem with hmem | hmem | hmem | hmem
    · exact (notMem_word _).2.2 hmem
    · cases hmem
    · exact notMem_printed_qual ace (by decide) hmem
    · cases hperms : ace.perms with
      | none =>
        simp only [printEntry, hperms, Option.map_none, permsText] at hmem
        cases hmem
      | some bits =>
        simp only [printEntry, hperms, Option.map_some, permsText, List.mem_cons] at hmem
        rcases hmem with hmem | hmem
        · cases hmem
        · exact absurd (permLetters_chars bits 0 hmem) (by decide)

/-- `parseACL` accepts exactly the lists of items of its grammar and fills in the entries that they
denote; entries that it has filled in are read back when they are printed. -/
theorem parseACL_iff (names : Names) (permsReqd : Bool) (h0 : (0 : Byte) ∉ s) (post : List Byte)
    (entries : List AccessControlEntry) :
    (parseACL names permsReqd (s ++ 0 :: post) = .ok entries ↔
      ∃ items : List Item, items ≠ [] ∧ items.length ≤ maxEntries ∧ s = aclText items ∧
        (∀ i ∈ items, i.Accepted names permsReqd) ∧
        entries = items.map (Item.entry names permsReqd)) ∧
    (parseACL names permsReqd (s ++ 0 :: post) = .ok entries → ∀ post',
      parseACL names permsReqd (aclText (entries.map printEntry) ++ 0 :: post') = .ok entries) := by
  refine ⟨parseACL_ok_iff h0 post entries, ?_⟩
  intro h post'
  obtain ⟨items, hne, hlen, rfl, hi, rfl⟩ := (parseACL_ok_iff h0 post entries).mp h
  have hentry (i : Item) (hmem : i ∈ items) := printEntry_spec names (hi i hmem).entry_ok
  refine (parseACL_ok_iff ?_ post' _).mpr
    ⟨(items.map (Item.entry names permsReqd)).map printEntry, by simpa using hne, by simpa using hlen, rfl, ?_, ?_⟩
  · exact nul_notMem_aclText _
  · intro i hmem
    simp only [List.mem_map, exists_exists_and_eq_and] at hmem
    obtain ⟨i, hmem, rfl⟩ := hmem
    exact (hentry i hmem).1
  · simp only [List.map_map]
    refine List.map_congr_left ?_
    intro i hmem
    exact (hentry i hmem).2.symm

/-- Two entries, one of them with a name that is not a number. -/
theorem parseACL_iff_two_entries :
    let names : Names := ⟨fun _ => some 1000, fun _ => none⟩
    let s := ascii "user:mtk:rw-,g::r"
    let entries : List AccessControlEntry := [⟨.user, 1000, some 6⟩, ⟨.groupObj, 0, some 4⟩]
    parseACL names true (s ++ [0]) = .ok entries ∧
      parseACL names true (aclText (entries.map printEntry) ++ [0]) = .ok entries := by
  intro names s entries
  have hparse : parseACL names true (s ++ [0]) = .ok entries := by decide +kernel
  exact ⟨hparse, (parseACL_iff names true (s := s) (by decide +kernel) [] entries).2 hparse []⟩

/-! ## Numbers as qualifiers -/

theorem idFromName_number (getnam : List Byte → Option UInt32) {q : List Byte} {v : ℤ}
    (hq : scanInt q = some (v, [])) : idFromName getnam q = UInt32.ofInt (clampLong v) := by
  have hstrtol : strtol q = (clampLong v, []) := by rw [strtol, hq]
  rw [idFromName, if_neg (scanInt_chars hq).1, hstrtol, if_pos rfl]

theorem tagId_number (names : Names) {w : TagWord} (hw : (w.tag true).named = true) {q : List Byte}
    {v : ℤ} (hq : scanInt q = some (v, [])) :
    tagId names (w.tag (q ≠ [])) q = UInt32.ofInt (clampLong v) := by
  rw [decide_eq_true (scanInt_chars hq).1]
  cases w with
  | u => exact idFromName_number _ hq
  | user => exact idFromName_number _ hq
  | g => exact idFromName_number _ hq
  | group => exact idFromName_number _ hq
  | _ => cases hw

/-- A number is stored as it is, or not at all, exactly when it is an id of 32 bits or its last 32
bits, behind `strtol`, are all ones. -/
theorem numeric_qualifier_iff (names : Names) {w : TagWord} (hw : (w.tag true).named = true)
    {q : List Byte} {v : ℤ} (hq : scanInt q = some (v, [])) {perms : Option (List Byte)}
    (hperms : PermsOK permsReqd perms) (post : List Byte) :
    (∀ ace, (parseEntrySpec names permsReqd ((Item.mk w q perms).text ++ 0 :: post)).1 = .ok ace →
      (ace.qual.toNat : ℤ) = v) ↔
    (0 ≤ v ∧ v < 4294967296) ∨ clampLong v % 4294967296 = 4294967295 := by
  have hfree {b : Byte} (hb : ¬(isSpace b = true ∨ b = 45 ∨ b = 43 ∨ isDigit b = true)) : b ∉ q :=
    fun hmem => hb ((scanInt_chars hq).2 b hmem)
  have hnul : (0 : Byte) ∉ (Item.mk w q perms).text := by
    simp only [Item.text, List.mem_append, List.mem_cons, not_or]
    exact ⟨(notMem_word w).2.2, by decide, hfree (by decide),
      notMem_permsText hperms (by decide) (by decide)⟩
  have hnul' : (0 : Byte) ∉ perms.getD [] := fun hmem => absurd (hperms.chars 0 hmem) (by decide)
  have hid := tagId_number names hw hq
  have hmod := toNat_ofInt_uint32 (clampLong v)
  have hnoId : UInt32.ofInt (clampLong v) = noId ↔ clampLong v % 4294967296 = 4294967295 := by
    rw [← UInt32.toNat_inj, ← hmod]
    exact Nat.cast_inj.symm
  obtain ⟨_, -, heq⟩ :=
    parseEntrySpec_parts names permsReqd post (notMem_word w).1 (hfree (by decide)) hnul
  rw [Item.text, heq]
  constructor
  · intro h
    by_cases hno : UInt32.ofInt (clampLong v) = noId
    · exact .inr (hnoId.mp hno)
    · have hv := h _ ((parseParts_eq_ok_iff hnul' _).mpr ⟨w, rfl, hid ▸ hno, hperms, rfl⟩)
      simp only [Item.entry, Item.tag, hid] at hv
      omega
  · intro h ace hace
    obtain ⟨w', hw', hno, -, rfl⟩ := (parseParts_eq_ok_iff hnul' ace).mp hace
    obtain rfl := TagWord.text_injective hw'
    rw [hid] at hno
    simp only [Item.entry, Item.tag, hid]
    have hv := h.resolve_right fun hones => hno (hnoId.mpr hones)
    rw [hmod, clampLong_of_mem (by simp only [longMin]; omega) (by simp only [longMax]; omega)]
    omega

theorem numeric_qualifier_iff_thousand :
    let names : Names := ⟨fun _ => none, fun _ => none⟩
    let i : Item := ⟨.u, ascii "1000", some (permLetters 4)⟩
    (parseEntrySpec names true (i.text ++ [0])).1 = .ok ⟨.user, 1000, some 4⟩ ∧
      ∀ ace, (parseEntrySpec names true (i.text ++ [0])).1 = .ok ace → (ace.qual.toNat : ℤ) = 1000 := by
  intro names i
  have hperms : PermsOK true (some (permLetters 4)) := ⟨rfl, permLetters_chars 4⟩
  exact ⟨by decide +kernel, (numeric_qualifier_iff names (w := .u) (by decide) (v := 1000)
    (by decide +kernel) hperms []).mpr (.inl (by decide))⟩

/-- 2^32 is stored as the id of root. -/
theorem qualifier_is_root :
    (parseEntrySpec ⟨fun _ => none, fun _ => none⟩ true (ascii "u:4294967296:rwx" ++ [0])).1 =
      .ok ⟨.user, 0, some 7⟩ := by
  decide +kernel

end AclParse
