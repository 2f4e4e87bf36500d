import LinuxProgramming.Printd
import LinuxProgramming.IppEncoding

/-! # The request that the daemon sends to the printer

`submit_file` of the print command names the user and the job, `printer_thread` builds the
IPP header of the job and the HTTP header before it. Buffers are as long as they need to be
here; how much of `ibuf` is used is a result. -/
namespace IppRequest

open CStrings ByteFiles Printd IppEncoding

def ibufsz : ℕ := 512
def usernmMax : ℕ := 64
def jobnmMax : ℕ := 256
def ippPort : ℕ := 631
def prText : ℕ := 1
def opPrintJob : ℕ := 0x02

def tagOperationAttr : Byte := 0x01
def tagEndOfAttr : Byte := 0x03
def tagNamewolang : Byte := 0x42
def tagUri : Byte := 0x45
def tagCharset : Byte := 0x47
def tagNatulang : Byte := 0x48
def tagMimetype : Byte := 0x49

/-! ## Writing through a pointer -/

/-- A buffer and the place in it where the next byte goes. -/
structure Cursor where
  mem : List Byte
  pos : ℕ
  deriving DecidableEq

namespace Cursor

/-- `*cp++ = b` for each byte. -/
def put (c : Cursor) (bs : List Byte) : Cursor := ⟨pwrite c.mem c.pos bs, c.pos + bs.length⟩

/-- `strcpy(cp, s)` and then `cp += strlen(s)`. -/
def strcpy (c : Cursor) (s : List Byte) : Cursor :=
  ⟨pwrite c.mem c.pos (cstr s ++ [0]), c.pos + (cstr s).length⟩

def written (c : Cursor) : List Byte := c.mem.take c.pos

end Cursor

def addOption (cp : Cursor) (tag : Byte) (optname optval : List Byte) : Cursor :=
  let cp := cp.put [tag]
  let cp := cp.put (be 2 (cstr optname).length)
  let cp := cp.strcpy optname
  let cp := cp.put (be 2 (cstr optval).length)
  cp.strcpy optval

/-- `sprintf(str, "http://%s:%d", printer_name, IPP_PORT)`. -/
def printerUri (printerName : List Byte) : List Byte :=
  ascii "http://" ++ cstr printerName ++ ascii ":" ++ decimal ippPort

def documentFormat (flags : ℕ) : List Byte :=
  if flags &&& prText ≠ 0 then ascii "text/plain" else ascii "application/postscript"

/-- `htonl` keeps the low four bytes of a `long`. -/
def lowWord (n : ℤ) : ℕ := (n % 2 ^ 32).toNat

def ippHeader (printerName usernm jobnm : List Byte) (flags : ℕ) (jobid : ℤ) (ibuf : List Byte) :
    Cursor :=
  let icp : Cursor := ⟨ibuf, 0⟩
  -- the fields of struct ipp_hdr before attr_group
  let icp := icp.put ([1, 1] ++ be 2 opPrintJob ++ be 4 (lowWord jobid))
  let icp := icp.put [tagOperationAttr]
  let icp := addOption icp tagCharset (ascii "attributes-charset") (ascii "utf-8")
  let icp := addOption icp tagNatulang (ascii "attributes-natural-language") (ascii "en-us")
  let icp := addOption icp tagUri (ascii "printer-uri") (printerUri printerName)
  let icp := addOption icp tagNamewolang (ascii "requesting-user-name") usernm
  let icp := addOption icp tagNamewolang (ascii "job-name") jobnm
  let icp := addOption icp tagMimetype (ascii "document-format") (documentFormat flags)
  icp.put [tagEndOfAttr]

def requestLine (printerName : List Byte) : List Byte :=
  ascii "POST /" ++ cstr printerName ++ ascii "/ipp HTTP/1.1\r\n"

def contentLength (size ilen : ℕ) : List Byte :=
  ascii "Content-Length: " ++ decimalInt (toLong (size + ilen)) ++ ascii "\r\n"

def httpHeader (printerName : List Byte) (size ilen : ℕ) : List Byte :=
  requestLine printerName ++ contentLength size ilen ++ ascii "Content-Type: application/ipp\r\n" ++
    ascii "Host: " ++ cstr printerName ++ ascii ":" ++ decimal ippPort ++ ascii "\r\n" ++ ascii "\r\n"

/-! ## What has been written -/

namespace Cursor

variable {c : Cursor}

def Inside (c : Cursor) : Prop := c.pos ≤ c.mem.length

theorem inside_put (h : c.Inside) (bs : List Byte) : (c.put bs).Inside := le_length_pwrite h

theorem inside_strcpy (h : c.Inside) (s : List Byte) : (c.strcpy s).Inside := by
  have hlen : c.pos + (cstr s ++ [0]).length ≤ _ := le_length_pwrite h
  simp only [List.length_append] at hlen
  simp only [Inside, strcpy]
  omega

theorem written_put (h : c.Inside) (bs : List Byte) : (c.put bs).written = c.written ++ bs := by
  rw [written, put, take_pwrite h le_rfl, List.take_length]
  rfl

/-- The NUL that `strcpy` leaves is behind what counts as written. -/
theorem written_strcpy (h : c.Inside) (s : List Byte) :
    (c.strcpy s).written = c.written ++ cstr s := by
  rw [written, strcpy, take_pwrite h (by simp), List.take_left]
  rfl

theorem length_written (h : c.Inside) : c.written.length = c.pos := by
  rw [written, List.length_take]
  exact min_eq_left h

end Cursor

def optionBytes (tag : Byte) (optname optval : List Byte) : List Byte :=
  tag :: counted (cstr optname) ++ counted (cstr optval)

theorem inside_addOption {c : Cursor} (h : c.Inside) (tag : Byte) (optname optval : List Byte) :
    (addOption c tag optname optval).Inside := by
  have h₁ := Cursor.inside_put (Cursor.inside_put h [tag]) (be 2 (cstr optname).length)
  have h₂ := Cursor.inside_strcpy h₁ optname
  exact Cursor.inside_strcpy (Cursor.inside_put h₂ (be 2 (cstr optval).length)) optval

theorem written_addOption {c : Cursor} (h : c.Inside) (tag : Byte) (optname optval : List Byte) :
    (addOption c tag optname optval).written = c.written ++ optionBytes tag optname optval := by
  have h₁ := Cursor.inside_put h [tag]
  have h₂ := Cursor.inside_put h₁ (be 2 (cstr optname).length)
  have h₃ := Cursor.inside_strcpy h₂ optname
  have h₄ := Cursor.inside_put h₃ (be 2 (cstr optval).length)
  simp only [addOption, Cursor.written_strcpy h₄, Cursor.written_put h₃, Cursor.written_strcpy h₂,
    Cursor.written_put h₁, Cursor.written_put h, optionBytes, counted, List.append_assoc,
    List.cons_append, List.nil_append]

/-- The options of a request, in the order of `printer_thread`. -/
def options (printerName usernm jobnm : List Byte) (flags : ℕ) :
    List (Byte × List Byte × List Byte) :=
  [(tagCharset, ascii "attributes-charset", ascii "utf-8"),
   (tagNatulang, ascii "attributes-natural-language", ascii "en-us"),
   (tagUri, ascii "printer-uri", printerUri printerName),
   (tagNamewolang, ascii "requesting-user-name", usernm),
   (tagNamewolang, ascii "job-name", jobnm),
   (tagMimetype, ascii "document-format", documentFormat flags)]

theorem ippHeader_eq (printerName usernm jobnm : List Byte) (flags : ℕ) (jobid : ℤ)
    (ibuf : List Byte) :
    ippHeader printerName usernm jobnm flags jobid ibuf =
      ((options printerName usernm jobnm flags).foldl (fun c o => addOption c o.1 o.2.1 o.2.2)
        ((Cursor.mk ibuf 0).put ([1, 1] ++ be 2 opPrintJob ++ be 4 (lowWord jobid))
          |>.put [tagOperationAttr])).put [tagEndOfAttr] := rfl

theorem inside_foldl (l : List (Byte × List Byte × List Byte)) {c : Cursor} (h : c.Inside) :
    (l.foldl (fun c o => addOption c o.1 o.2.1 o.2.2) c).Inside ∧
    (l.foldl (fun c o => addOption c o.1 o.2.1 o.2.2) c).written =
      c.written ++ l.flatMap fun o => optionBytes o.1 o.2.1 o.2.2 := by
  induction l generalizing c with
  | nil => simp [h]
  | cons o l ih =>
    obtain ⟨hin, hwritten⟩ := ih (inside_addOption h o.1 o.2.1 o.2.2)
    refine ⟨hin, ?_⟩
    rw [List.foldl_cons, hwritten, written_addOption h, List.flatMap_cons, List.append_assoc]

/-- The bytes from `ibuf` up to `ilen`. -/
theorem written_ippHeader (printerName usernm jobnm : List Byte) (flags : ℕ) (jobid : ℤ)
    (ibuf : List Byte) :
    (ippHeader printerName usernm jobnm flags jobid ibuf).Inside ∧
    (ippHeader printerName usernm jobnm flags jobid ibuf).written =
      [1, 1] ++ be 2 opPrintJob ++ be 4 (lowWord jobid) ++ [tagOperationAttr] ++
      ((options printerName usernm jobnm flags).flatMap fun o => optionBytes o.1 o.2.1 o.2.2) ++
      [tagEndOfAttr] := by
  have h₀ : (Cursor.mk ibuf 0).Inside := Nat.zero_le _
  have h₁ := Cursor.inside_put h₀ ([1, 1] ++ be 2 opPrintJob ++ be 4 (lowWord jobid))
  have h₂ := Cursor.inside_put h₁ [tagOperationAttr]
  obtain ⟨h₃, hwritten⟩ := inside_foldl (options printerName usernm jobnm flags) h₂
  rw [ippHeader_eq]
  refine ⟨Cursor.inside_put h₃ _, ?_⟩
  rw [Cursor.written_put h₃, hwritten, Cursor.written_put h₁, Cursor.written_put h₀]
  rfl

/-! ## Reading the request -/

def fields (a : Attribute) : Byte × List Byte × List Byte := (a.tag, a.name, a.value)

def meant (printerName usernm jobnm : List Byte) (text : Bool) : List (Byte × List Byte × List Byte) :=
  [(0x47, ascii "attributes-charset", ascii "utf-8"),
   (0x48, ascii "attributes-natural-language", ascii "en-us"),
   (0x45, ascii "printer-uri", ascii "http://" ++ printerName ++ ascii ":631"),
   (0x42, ascii "requesting-user-name", usernm),
   (0x42, ascii "job-name", jobnm),
   (0x49, ascii "document-format",
     if text then ascii "text/plain" else ascii "application/postscript")]

/-- The option can be encoded. -/
structure Encodable (o : Byte × List Byte × List Byte) : Prop where
  tag : isDelimiter o.1 = false
  name : (0 : Byte) ∉ o.2.1 ∧ o.2.1.length < 65536
  value : (0 : Byte) ∉ o.2.2 ∧ o.2.2.length < 65536

theorem Encodable.of {tag : Byte} {name value : List Byte} (htag : isDelimiter tag = false)
    (hname : (0 : Byte) ∉ name ∧ name.length < 65536)
    (hvalue : (0 : Byte) ∉ value ∧ value.length < 65536) : Encodable (tag, name, value) :=
  ⟨htag, hname, hvalue⟩

theorem exists_attributes (l : List (Byte × List Byte × List Byte)) (h : ∀ o ∈ l, Encodable o) :
    ∃ as : List Attribute, as.map fields = l ∧
      as.flatMap Attribute.render = l.flatMap fun o => optionBytes o.1 o.2.1 o.2.2 := by
  induction l with
  | nil => exact ⟨[], rfl, rfl⟩
  | cons o l ih =>
    obtain ⟨as, hmap, hbytes⟩ := ih fun o ho => h o (by simp [ho])
    obtain ⟨htag, ⟨hname, hnamelt⟩, hvalue, hvaluelt⟩ := h o (by simp)
    refine ⟨⟨o.1, o.2.1, o.2.2, htag, hnamelt, hvaluelt⟩ :: as, ?_, ?_⟩
    · rw [List.map_cons, hmap]
      rfl
    · rw [List.flatMap_cons, List.flatMap_cons, hbytes, optionBytes, cstr_eq_self hname,
        cstr_eq_self hvalue]
      rfl

theorem options_eq {printerName : List Byte} (hp : (0 : Byte) ∉ printerName) (usernm jobnm : List Byte)
    (flags : ℕ) : options printerName usernm jobnm flags =
      meant printerName usernm jobnm (flags &&& prText ≠ 0) := by
  have hport : ascii ":" ++ decimal ippPort = ascii ":631" := by decide +kernel
  simp [options, meant, printerUri, cstr_eq_self hp, hport, documentFormat, tagCharset, tagNatulang,
    tagUri, tagNamewolang, tagMimetype]

theorem encodable_meant {printerName usernm jobnm : List Byte} (hp : (0 : Byte) ∉ printerName)
    (hu : (0 : Byte) ∉ usernm) (hj : (0 : Byte) ∉ jobnm)
    (huri : (ascii "http://" ++ printerName ++ ascii ":631").length < 65536)
    (hul : usernm.length < 65536) (hjl : jobnm.length < 65536) (text : Bool) :
    ∀ o ∈ meant printerName usernm jobnm text, Encodable o := by
  have hhttp : (0 : Byte) ∉ ascii "http://" := by decide +kernel
  have hport : (0 : Byte) ∉ ascii ":631" := by decide +kernel
  simp only [meant, List.forall_mem_cons, List.not_mem_nil, false_implies, implies_true, and_true]
  refine ⟨?_, ?_, ?_, ?_, ?_, ?_⟩
  · exact .of (by decide) (by decide +kernel) (by decide +kernel)
  · exact .of (by decide) (by decide +kernel) (by decide +kernel)
  · exact .of (by decide) (by decide +kernel) ⟨by simp [hhttp, hp, hport], huri⟩
  · exact .of (by decide) (by decide +kernel) ⟨hu, hul⟩
  · exact .of (by decide) (by decide +kernel) ⟨hj, hjl⟩
  · exact .of (by decide) (by decide +kernel) (by revert text; decide +kernel)

theorem lowWord_lt (n : ℤ) : lowWord n < 2 ^ 32 := by
  have h₀ := Int.emod_nonneg n (show (2 ^ 32 : ℤ) ≠ 0 by decide)
  have h₁ := Int.emod_lt_of_pos n (show (0 : ℤ) < 2 ^ 32 by decide)
  rw [lowWord, Int.toNat_lt h₀]
  exact h₁

def request (jobid : ℤ) (as : List Attribute) : Message :=
  ⟨1, 1, 2, UInt32.ofNat (lowWord jobid), [⟨tagOperationAttr, as, by decide, by decide⟩]⟩

theorem requestId_request (jobid : ℤ) (as : List Attribute) :
    (request jobid as).requestId.toNat = lowWord jobid :=
  Nat.mod_eq_of_lt (lowWord_lt jobid)

theorem render_request (jobid : ℤ) (as : List Attribute) :
    (request jobid as).render = [1, 1] ++ be 2 opPrintJob ++ be 4 (lowWord jobid) ++
      [tagOperationAttr] ++ as.flatMap Attribute.render ++ [tagEndOfAttr] := by
  rw [Message.render, Message.header, requestId_request]
  simp [request, Group.render, opPrintJob, endTag, tagEndOfAttr]

theorem decimalInt_toLong {n : ℕ} (h : (n : ℤ) ≤ longMax) : decimalInt (toLong n) = decimal n := by
  have hn : toLong n = n := by
    simp only [longMax] at h
    exact Int.bmod_eq_of_le (by omega) (by omega)
  rw [hn]
  rfl

/-- The request has one reading, the one that is meant, and the HTTP header announces its
length together with that of the file. -/
theorem request_decodes (printerName usernm jobnm : List Byte) (hp : (0 : Byte) ∉ printerName)
    (hu : (0 : Byte) ∉ usernm) (hj : (0 : Byte) ∉ jobnm)
    (huri : (ascii "http://" ++ printerName ++ ascii ":631").length < 65536)
    (hul : usernm.length < 65536) (hjl : jobnm.length < 65536) (flags : ℕ) (jobid : ℤ)
    (ibuf : List Byte) :
    (∃ m : Message,
      (∀ m' : Message, m'.render = (ippHeader printerName usernm jobnm flags jobid ibuf).written ↔
        m' = m) ∧
      m.major = 1 ∧ m.minor = 1 ∧ m.code.toNat = opPrintJob ∧
      (m.requestId.toNat : ℤ) = jobid % 2 ^ 32 ∧
      m.groups.map (fun g => (g.tag, g.attributes.map fields)) =
        [(tagOperationAttr, meant printerName usernm jobnm (flags &&& prText ≠ 0))]) ∧
    ∀ size : ℕ, size + (ippHeader printerName usernm jobnm flags jobid ibuf).pos ≤ longMax →
      ∃ rest, httpHeader printerName size (ippHeader printerName usernm jobnm flags jobid ibuf).pos =
        requestLine printerName ++ ascii "Content-Length: " ++
          decimal (size + (ippHeader printerName usernm jobnm flags jobid ibuf).written.length) ++
          ascii "\r\n" ++ rest := by
  obtain ⟨hin, hwritten⟩ := written_ippHeader printerName usernm jobnm flags jobid ibuf
  obtain ⟨as, hmap, hbytes⟩ := exists_attributes _
    (encodable_meant hp hu hj huri hul hjl (flags &&& prText ≠ 0))
  have hrender : (request jobid as).render =
      (ippHeader printerName usernm jobnm flags jobid ibuf).written := by
    rw [hwritten, options_eq hp, ← hbytes, render_request]
  constructor
  · refine ⟨request jobid as, fun m' => ?_, rfl, rfl, rfl, ?_, ?_⟩
    · rw [← hrender]
      exact Message.render_injective.eq_iff
    · rw [requestId_request, lowWord, Int.toNat_of_nonneg (Int.emod_nonneg _ (by decide))]
    · simp [request, hmap]
  · intro size hsize
    have hlen := decimalInt_toLong (n := size + (ippHeader printerName usernm jobnm flags jobid ibuf).pos)
      (by exact_mod_cast hsize)
    rw [Cursor.length_written hin, httpHeader, contentLength]
    rw [Int.natCast_add] at hlen
    rw [hlen]
    exact ⟨_, by simp only [List.append_assoc]; rfl⟩

theorem request_decodes_lp : ∃ m : Message,
    m.render = (ippHeader (ascii "lp") (ascii "sar") (ascii "a.txt") 1 4294967303 []).written ∧
      m.requestId.toNat = 7 := by
  obtain ⟨⟨m, hread, -, -, -, hid, -⟩, -⟩ := request_decodes (ascii "lp") (ascii "sar")
    (ascii "a.txt") (by decide +kernel) (by decide +kernel) (by decide +kernel) (by decide +kernel)
    (by decide +kernel) (by decide +kernel) 1 4294967303 []
  refine ⟨m, (hread m).mpr rfl, ?_⟩
  omega

/-! ## The request of the print command -/

/-- The user name that `submit_file` sends; `none` when the user is not in the password file. -/
def submitUsernm (pwName : Option (List Byte)) : List Byte := pwName.getD (ascii "unknown")

def submitJobnm (fname : List Byte) : List Byte :=
  if jobnmMax ≤ fname.length then
    ascii "... " ++ (fname.drop (fname.length - jobnmMax + 5)).take (jobnmMax - 5)
  else fname

theorem length_submitJobnm (fname : List Byte) : (submitJobnm fname).length < jobnmMax := by
  have hdots : (ascii "... ").length = 4 := by decide +kernel
  unfold submitJobnm
  split
  · simp only [List.length_append, hdots, List.length_take, List.length_drop, jobnmMax]
    omega
  · omega

/-- `req` of `submit_file` before the job name goes in; `junk` is what stood there before. -/
def submitFields (pwName : Option (List Byte)) (nbytes : ℕ) (text : Bool) (junk : List Byte) :
    List Byte :=
  let req := pwrite junk 16 (submitUsernm pwName ++ [0])
  let req := pwrite req 0 (be 8 (htonl nbytes).toNat).reverse
  pwrite req 8 (be 8 (if text then (htonl prText).toNat else 0)).reverse

section Submitted

variable {pwName : Option (List Byte)}

theorem submitFields_spec (nbytes : ℕ) (text : Bool) {junk : List Byte}
    (h : (submitUsernm pwName).length < usernmMax) (hjunk : junk.length = sizeofPrintreq) :
    (submitFields pwName nbytes text junk).length = sizeofPrintreq ∧
    ∃ rest, (submitFields pwName nbytes text junk).drop 16 = submitUsernm pwName ++ 0 :: rest := by
  simp only [sizeofPrintreq, usernmMax] at hjunk h ⊢
  have h₁ : (pwrite junk 16 (submitUsernm pwName ++ [0])).length = junk.length :=
    length_pwrite (by simp only [List.length_append, List.length_singleton]; omega)
  have h₂ : (pwrite (pwrite junk 16 (submitUsernm pwName ++ [0])) 0
      (be 8 (htonl nbytes).toNat).reverse).length = _ :=
    length_pwrite (by simp only [List.length_reverse, length_be]; omega)
  unfold submitFields
  constructor
  · rw [length_pwrite (by simp only [List.length_reverse, length_be]; omega)]
    omega
  · rw [drop_pwrite_behind (by omega) (by simp), drop_pwrite_behind (by omega) (by simp),
      drop_pwrite_self (by omega)]
    exact ⟨_, List.append_assoc _ _ _⟩

/-- The request that `submit_file` sends. -/
def submitReq (fname : List Byte) (nbytes : ℕ) (text : Bool) (junk : PrintReq)
    (h : (submitUsernm pwName).length < usernmMax) : PrintReq where
  image := pwrite (submitFields pwName nbytes text junk.image) 80 (submitJobnm fname ++ [0])
  length_eq := by
    have hlen := (submitFields_spec nbytes text h junk.length_eq).1
    have hjob := length_submitJobnm fname
    simp only [sizeofPrintreq, jobnmMax] at hlen hjob ⊢
    rw [length_pwrite (by simp only [List.length_append, List.length_singleton]; omega), hlen]

end Submitted

/-- The fields of a request that `printer_thread` reads. -/
def usernm (r : PrintReq) : List Byte := cstr (r.image.drop 16)
def jobnm (r : PrintReq) : List Byte := cstr (r.image.drop 80)
def flags (r : PrintReq) : ℕ := leNat ((r.image.drop 8).take 8)

def jobHeader (printerName : List Byte) (job : Job) (ibuf : List Byte) : Cursor :=
  ippHeader printerName (usernm job.req) (jobnm job.req) (flags job.req) job.jobid ibuf

/-- The request as the daemon keeps it; it may find the data to be plain text. -/
def received (r : PrintReq) (plain : Bool) : PrintReq := if plain then r.toHost.setText else r.toHost

theorem received_drop (r : PrintReq) (plain : Bool) {k : ℕ} (hk : 16 ≤ k) :
    (received r plain).image.drop k = r.image.drop k := by
  have hlen := r.length_eq
  simp only [sizeofPrintreq] at hlen
  have hhost : r.toHost.image.drop k = r.image.drop k := by
    obtain ⟨i, rfl⟩ := Nat.exists_eq_add_of_le hk
    have h16 : (swapLong (r.image.take 8) ++ swapLong ((r.image.drop 8).take 8)).length = 16 := by
      simp only [List.length_append, length_swapLong, List.length_take, List.length_drop]
      omega
    rw [PrintReq.toHost, ← List.drop_drop, List.drop_append, h16, Nat.sub_self, List.drop_zero,
      List.drop_eq_nil_of_le h16.le, List.nil_append, List.drop_drop]
  unfold received
  split
  · rw [PrintReq.setText, List.drop_set, if_pos (by omega), hhost]
  · exact hhost

section Submitted

variable {pwName : Option (List Byte)} (fname : List Byte) (nbytes : ℕ) (text : Bool)
  (junk : PrintReq) (h : (submitUsernm pwName).length < usernmMax) (plain : Bool)

theorem usernm_received (hu : (0 : Byte) ∉ submitUsernm pwName) :
    usernm (received (submitReq fname nbytes text junk h) plain) = submitUsernm pwName := by
  obtain ⟨hlen, rest, hrest⟩ := submitFields_spec nbytes text h junk.length_eq
  have hlt := h
  simp only [sizeofPrintreq, usernmMax] at hlen hlt
  have hsame : ((submitReq fname nbytes text junk h).image.drop 16).take 64 =
      ((submitFields pwName nbytes text junk.image).drop 16).take 64 := by
    rw [List.take_drop, List.take_drop, submitReq, take_pwrite_before (by omega) le_rfl]
  have hfront : submitUsernm pwName ++ [0] <+:
      ((submitFields pwName nbytes text junk.image).drop 16).take 64 := by
    refine List.prefix_take_iff.mpr ⟨⟨rest, ?_⟩, ?_⟩
    · rw [hrest, List.append_assoc]
      rfl
    · simp only [List.length_append, List.length_singleton]
      omega
  rw [← hsame] at hfront
  obtain ⟨tail, htail⟩ := (List.prefix_take_iff.mp hfront).1
  rw [usernm, received_drop _ _ le_rfl, ← htail, List.append_assoc]
  exact cstr_append_nul hu tail

theorem zero_notMem_submitJobnm {fname : List Byte} (hf : (0 : Byte) ∉ fname) :
    (0 : Byte) ∉ submitJobnm fname := by
  have hdots : (0 : Byte) ∉ ascii "... " := by decide +kernel
  unfold submitJobnm
  split
  · rw [List.mem_append, not_or]
    exact ⟨hdots, fun hmem => hf (List.mem_of_mem_drop (List.mem_of_mem_take hmem))⟩
  · exact hf

theorem jobnm_received (hf : (0 : Byte) ∉ fname) :
    jobnm (received (submitReq fname nbytes text junk h) plain) = submitJobnm fname := by
  have hlen := (submitFields_spec nbytes text h junk.length_eq).1
  simp only [sizeofPrintreq] at hlen
  rw [jobnm, received_drop _ _ (by decide), submitReq, drop_pwrite_self (by omega), List.append_assoc]
  exact cstr_append_nul (zero_notMem_submitJobnm hf) _

end Submitted

/-! ## How much of the buffer is used -/

theorem length_optionBytes (tag : Byte) (optname optval : List Byte) :
    (optionBytes tag optname optval).length = 5 + (cstr optname).length + (cstr optval).length := by
  simp only [optionBytes, List.length_append, List.length_cons, length_counted]
  omega

theorem cstr_printerUri (printerName : List Byte) :
    cstr (printerUri printerName) = printerUri printerName := by
  have hhttp : (0 : Byte) ∉ ascii "http://" := by decide +kernel
  have hcolon : (0 : Byte) ∉ ascii ":" := by decide +kernel
  have hport : (0 : Byte) ∉ decimal ippPort := notMem_decimal rfl
  refine cstr_eq_self ?_
  simp [printerUri, hhttp, zero_notMem_cstr, hcolon, hport]

theorem cstr_documentFormat (flags : ℕ) : cstr (documentFormat flags) = documentFormat flags := by
  unfold documentFormat
  split <;> decide +kernel

/-- Nine bytes of header and group tag, the six options and the end tag. -/
theorem pos_ippHeader (printerName usernm jobnm : List Byte) (flags : ℕ) (jobid : ℤ)
    (ibuf : List Byte) :
    (ippHeader printerName usernm jobnm flags jobid ibuf).pos =
      149 + (printerUri printerName).length + (cstr usernm).length + (cstr jobnm).length +
        (documentFormat flags).length := by
  obtain ⟨hin, hwritten⟩ := written_ippHeader printerName usernm jobnm flags jobid ibuf
  have hc₁ : (cstr (ascii "attributes-charset")).length = 18 := by decide +kernel
  have hc₂ : (cstr (ascii "utf-8")).length = 5 := by decide +kernel
  have hc₃ : (cstr (ascii "attributes-natural-language")).length = 27 := by decide +kernel
  have hc₄ : (cstr (ascii "en-us")).length = 5 := by decide +kernel
  have hc₅ : (cstr (ascii "printer-uri")).length = 11 := by decide +kernel
  have hc₆ : (cstr (ascii "requesting-user-name")).length = 20 := by decide +kernel
  have hc₇ : (cstr (ascii "job-name")).length = 8 := by decide +kernel
  have hc₈ : (cstr (ascii "document-format")).length = 15 := by decide +kernel
  rw [← Cursor.length_written hin, hwritten]
  simp only [options, List.flatMap_cons, List.flatMap_nil, List.length_append, List.length_cons,
    List.length_nil, length_be, length_optionBytes, hc₁, hc₂, hc₃, hc₄, hc₅, hc₆, hc₇, hc₈,
    cstr_printerUri, cstr_documentFormat]
  omega

/-- The header of a job fits its buffer exactly when the URI, the names and the format are
short enough together. -/
theorem ipp_header_fits (printerName : List Byte) (job : Job) (ibuf : List Byte) :
    (jobHeader printerName job ibuf).pos ≤ ibufsz ↔
      (printerUri printerName).length + (usernm job.req).length + (jobnm job.req).length +
        (documentFormat (flags job.req)).length ≤ 363 := by
  have huser : cstr (usernm job.req) = usernm job.req := cstr_eq_self (zero_notMem_cstr _)
  have hjob : cstr (jobnm job.req) = jobnm job.req := cstr_eq_self (zero_notMem_cstr _)
  rw [jobHeader, pos_ippHeader, huser, hjob, ibufsz]
  omega

/-- A printer name, a user name and a file name that are all allowed make 552 bytes. -/
theorem ipp_header_overflows :
    ∃ (printerName user fname : List Byte) (h : (submitUsernm (some user)).length < usernmMax),
      (printerUri printerName).length < 64 ∧ fname.length < jobnmMax ∧
      (jobHeader printerName ⟨1, received (submitReq fname 0 false blankReq h) false⟩ []).pos = 552 := by
  have h : (submitUsernm (some (List.replicate 63 117))).length < usernmMax := by decide
  have hu : (0 : Byte) ∉ submitUsernm (some (List.replicate 63 117)) := by decide
  have hf : (0 : Byte) ∉ List.replicate 255 102 := by
    intro hmem
    exact absurd (List.eq_of_mem_replicate hmem) (by decide)
  refine ⟨List.replicate 52 112, List.replicate 63 117, List.replicate 255 102, h, ?_, ?_, ?_⟩
  · decide +kernel
  · rw [List.length_replicate]
    decide
  · rw [jobHeader, pos_ippHeader, usernm_received _ _ _ _ _ _ hu, jobnm_received _ _ _ _ _ _ hf]
    revert h
    decide +kernel

end IppRequest
