import LinuxProgramming.PrintdSpool

/-! # What a positive reply says about the data file

One client thread by itself, with any answers of the system to its calls. -/
namespace PrintdClient

open CStrings ByteFiles Interleaving Volumes Printd
open PrintdSpool (Stored clientThread_stored addJob_next)

def clientStep (n : ℕ) (c : Shared × Pc) (ans : Answer) : Option (Shared × Pc) :=
  clientThread c.1 n ans c.2

/-- The bytes that one call of `tread` hands to the receive loop. -/
def heard : Pc → Answer → List Byte
  | .receive _, .bytes bs _ => bs
  | _, _ => []

def delivered (n : ℕ) : Shared × Pc → List Answer → List Byte
  | _, [] => []
  | c, ans :: as =>
    match clientStep n c ans with
    | some c' => heard c.2 ans ++ delivered n c' as
    | none => []

/-- The data file is what the client sent, and as long as it said it would be. -/
def Complete (v : Volume Printd.Path) (jobid : ℤ) (req : PrintReq) (sent : List Byte) : Prop :=
  v.file (dataPath jobid) = some sent ∧ sent.length = req.size

theorem size_setText (r : PrintReq) : r.setText.size = r.size := by
  simp [PrintReq.size, PrintReq.setText, List.take_set_of_le]

def dataOf : Pc → Option (List Byte)
  | .jobnoLock _ | .jobnoTake _ | .jobnoWrap _ _ | .jobnoUnlock _ _ | .creatData _ _ => some []
  | .receive x => some x.data
  | .writeData x buf => some (x.data ++ buf)
  | .creatReq _ _ data | .writeReq _ _ data _ | .reply _ _ data => some data
  | _ => none

def reqOf : Pc → Option PrintReq
  | .jobnoLock req | .jobnoTake req | .jobnoWrap req _ | .jobnoUnlock req _ | .creatData req _
  | .creatReq req _ _ | .writeReq req _ _ _ | .reply req _ _ | .adding (.malloc req _) => some req
  | .receive x | .writeData x _ => some x.req
  | _ => none

/-- A transfer that has been handed `got` under a request for `size` bytes. -/
structure Carried (c : Shared × Pc) (size : ℕ) (got : List Byte) : Prop where
  volume : c.1.spool.OK
  stored : Stored c.1.spool c.2
  data : ∀ d, dataOf c.2 = some d → d = got
  size : ∀ r, reqOf c.2 = some r → r.size = size
  accepted : ∀ req j, c.2 = .adding (.malloc req j) → c.1.spool.file (dataPath j) = some got
  begun : c.2 ≠ .down ∧ c.2 ≠ .header

/-- The results of `tread` as `treadn` puts them together: until the count is reached, the end
of file or an error. -/
def treadn (nleft : ℕ) (got : List Byte) : List Answer → Option Answer
  | [] => if nleft = 0 then some (.bytes got []) else none
  | r :: rs =>
    if nleft = 0 then some (.bytes got [])
    else match r with
      | .err e => some (if got = [] then .err e else .bytes got [])
      | .bytes bs _ =>
        if bs = [] then some (.bytes got [])
        else if bs.length ≤ nleft then treadn (nleft - bs.length) (got ++ bs) rs
        else none
      | _ => none

def block : Answer → List Byte
  | .bytes bs _ => bs
  | _ => []

theorem treadn_full {nleft : ℕ} {got hdr junk : List Byte} {rs : List Answer}
    (h : treadn nleft got rs = some (.bytes hdr junk)) (hlen : hdr.length = got.length + nleft) :
    hdr = got ++ (rs.flatMap block).take nleft := by
  induction rs generalizing nleft got with
  | nil =>
    simp only [treadn] at h
    split at h
    · cases h
      simp
    · cases h
  | cons r rs ih =>
    simp only [treadn] at h
    split at h
    · rename_i hzero
      cases h
      simp [hzero]
    · rename_i hzero
      split at h
      · -- an error after some bytes leaves the header short
        split at h
        · cases h
        · cases h
          omega
      · rename_i bs junk'
        split at h
        · cases h
          omega
        · split at h
          · have hrest := ih h (by simp only [List.length_append]; omega)
            rw [hrest, List.append_assoc, List.flatMap_cons]
            change _ = got ++ (bs ++ _).take nleft
            have hbs : bs.take nleft = bs := List.take_of_length_le ‹_›
            rw [List.take_append, hbs]
          · cases h
      · cases h

theorem Carried.keep {n size : ℕ} {s s' : Shared} {pc pc' : Pc} {got : List Byte} {ans : Answer}
    (h : Carried (s, pc) size got) (hstep : clientStep n (s, pc) ans = some (s', pc'))
    (hdata : ∀ d, dataOf pc' = some d → dataOf pc = some d)
    (hreq : ∀ r, reqOf pc' = some r → reqOf pc = some r)
    (hpc' : (∀ req j, pc' ≠ .adding (.malloc req j)) ∧ pc' ≠ .down ∧ pc' ≠ .header)
    (hheard : heard pc ans = []) : Carried (s', pc') size (got ++ heard pc ans) := by
  obtain ⟨hvolume', hstored'⟩ := clientThread_stored h.volume h.stored hstep
  rw [hheard, List.append_nil]
  exact ⟨hvolume', hstored', fun d hd => h.data d (hdata d hd), fun r hr => h.size r (hreq r hr),
    fun req j he => absurd he (hpc'.1 req j), hpc'.2⟩

theorem Carried.receive {n size : ℕ} {s s' : Shared} {x : Transfer} {pc' : Pc} {got : List Byte}
    {ans : Answer} (h : Carried (s, .receive x) size got)
    (hstep : clientStep n (s, .receive x) ans = some (s', pc')) :
    Carried (s', pc') size (got ++ heard (.receive x) ans) := by
  have h₀ := hstep
  obtain ⟨hvolume', hstored'⟩ := clientThread_stored h.volume h.stored hstep
  dsimp only [clientStep, clientThread] at hstep
  split at hstep
  · split at hstep
    · cases hstep
    · split at hstep
      · rename_i hempty
        cases hstep
        exact h.keep h₀ (fun _ hd => hd) (fun _ hr => hr) (by simp) hempty
      · cases hstep
        refine ⟨hvolume', hstored', fun d hd => ?_, fun r hr => ?_, by simp, by simp⟩
        · cases hd
          exact congrArg (· ++ _) (h.data x.data rfl)
        · cases hr
          split
          · rw [size_setText]
            exact h.size _ rfl
          · exact h.size _ rfl
  · cases hstep
    exact h.keep h₀ (fun _ hd => hd) (fun _ hr => hr) (by simp) rfl
  · cases hstep

theorem Carried.step {n size : ℕ} {c c' : Shared × Pc} {got : List Byte} {ans : Answer}
    (h : Carried c size got) (hstep : clientStep n c ans = some c') :
    Carried c' size (got ++ heard c.2 ans) := by
  obtain ⟨s, pc⟩ := c
  obtain ⟨s', pc'⟩ := c'
  have h₀ := hstep
  cases pc with
  | down => exact absurd rfl h.begun.1
  | header => exact absurd rfl h.begun.2
  | receive x => exact h.receive hstep
  | reply req j data =>
    obtain ⟨hvolume', hstored'⟩ := clientThread_stored h.volume h.stored hstep
    cases hstep
    refine ⟨hvolume', hstored', (fun d hd => by cases hd), fun r hr => ?_, fun r k he => ?_, by simp⟩
    · cases hr
      exact h.size req rfl
    · cases he
      rw [← h.data data rfl]
      exact h.stored.1.trans (congrArg some (List.append_nil data).symm)
  | jobnoLock req =>
    obtain ⟨s₁, hs₁, hact⟩ := Option.map_eq_some_iff.mp hstep
    cases hact
    exact h.keep h₀ (fun _ hd => hd) (fun _ hr => hr) (by simp) rfl
  | cleanup o paths =>
    cases paths with
    | nil =>
      cases hstep
      exact h.keep h₀ (fun _ hd => hd) (fun _ hr => hr) (by simp) rfl
    | cons p paths =>
      obtain ⟨s₁, hs₁, hact⟩ := Option.map_eq_some_iff.mp hstep
      cases hact
      exact h.keep h₀ (fun _ hd => hd) (fun _ hr => hr) (by simp) rfl
  | adding a =>
    obtain ⟨⟨s₁, a'⟩, hs₁, hact⟩ := Option.map_eq_some_iff.mp hstep
    cases hact
    have hnext := addJob_next hs₁
    cases a' with
    | none => exact h.keep h₀ (fun _ hd => by cases hd) (fun _ hr => by cases hr) (by simp) rfl
    | some b =>
      refine h.keep h₀ (fun _ hd => by cases hd) (fun r hr => ?_) ⟨fun req j he => ?_, by simp⟩ rfl
      · cases b with
        | malloc req j => exact absurd rfl (hnext req j)
        | _ => cases hr
      · cases he
        exact hnext req j rfl
  | _ =>
    dsimp only [clientStep, clientThread, getNewjobno] at hstep
    (try split at hstep) <;> (try split at hstep) <;> cases hstep <;>
      refine h.keep h₀ ?_ ?_ (by simp) rfl <;> intro x hx <;> first | exact hx | cases hx

theorem Carried.run {n size : ℕ} {c c' : Shared × Pc} {got : List Byte} {as : List Answer}
    (h : Carried c size got) (hrun : follow (clientStep n) c as = some c') :
    Carried c' size (got ++ delivered n c as) := by
  induction as generalizing c got with
  | nil =>
    cases hrun
    rwa [delivered, List.append_nil]
  | cons ans as ih =>
    obtain ⟨c₁, hc₁, hrun⟩ := Option.bind_eq_some_iff.mp hrun
    rw [delivered, hc₁]
    have := ih (h.step hc₁) hrun
    rwa [List.append_assoc] at this

/-- The file holds what `tread` delivered, whatever ended the transfer. So it is complete
exactly if all that was sent was delivered and the size was announced correctly. -/
theorem reply_complete_iff (s s' : Shared) (n : ℕ) (rs as : List Answer) (hdr junk sent : List Byte)
    (req : PrintReq) (jobid : ℤ) (hspool : s.spool.OK)
    (hlen : hdr.length = sizeofPrintreq) (hhdr : treadn sizeofPrintreq [] rs = some (.bytes hdr junk))
    (hrun : follow (clientStep n) (s, .header) (.bytes hdr junk :: as) =
      some (s', .adding (.malloc req jobid)))
    (hsent : delivered n (s, .header) (.bytes hdr junk :: as) <+: sent) :
    hdr = (rs.flatMap block).take sizeofPrintreq ∧ req.size = (PrintReq.toHost ⟨hdr, hlen⟩).size ∧
    s'.spool.file (dataPath jobid) = some (delivered n (s, .header) (.bytes hdr junk :: as)) ∧
    (Complete s'.spool jobid req sent ↔
      (delivered n (s, .header) (.bytes hdr junk :: as)).length = sent.length ∧
        sent.length = (PrintReq.toHost ⟨hdr, hlen⟩).size) := by
  have hfirst : clientStep n (s, .header) (.bytes hdr junk) =
      some (s, .jobnoLock (PrintReq.toHost ⟨hdr, hlen⟩)) := by
    simp [clientStep, clientThread, hlen]
  have hdelivered : delivered n (s, .header) (.bytes hdr junk :: as) =
      delivered n (s, .jobnoLock (PrintReq.toHost ⟨hdr, hlen⟩)) as := by
    rw [delivered, hfirst]
    rfl
  have hstart : Carried (s, .jobnoLock (PrintReq.toHost ⟨hdr, hlen⟩))
      (PrintReq.toHost ⟨hdr, hlen⟩).size [] := by
    refine ⟨hspool, trivial, fun d hd => ?_, fun r hr => ?_, by simp, by simp⟩
    · cases hd
      rfl
    · cases hr
      rfl
  rw [follow, hfirst] at hrun
  have hend := hstart.run hrun
  rw [hdelivered] at hsent ⊢
  have hsize := hend.size req rfl
  have hfile := hend.accepted req jobid rfl
  rw [List.nil_append] at hfile
  refine ⟨treadn_full hhdr (by simpa using hlen), hsize, hfile, ?_⟩
  rw [Complete, hfile, hsize]
  constructor
  · rintro ⟨he, hs⟩
    exact ⟨by rw [Option.some.inj he], hs⟩
  · rintro ⟨hl, hs⟩
    exact ⟨congrArg some (hsent.eq_of_length hl), hs⟩

def tenBytes : List Byte := [0, 0, 0, 10] ++ List.replicate 332 0

/-- A daemon that has just begun to accept clients, over an empty spool. -/
def ready : Shared := (boot (initial ⟨[], fun _ => [], 0⟩ []).shared [])

/-- The answers to a client whose blocks are those given; the transfer ends with `last`. -/
def transfer (blocks : List (List Byte)) (last : Answer) : List Answer :=
  [.ok, .ok, .ok, .ok, .ok] ++ blocks.flatMap (fun b => [.bytes b [], .ok]) ++ [last, .ok, .ok, .ok]

set_option maxRecDepth 8000 in
/-- All ten bytes arrive, then the connection is silent. -/
theorem reply_complete_iff_ten : ∃ (s' : Shared) (req : PrintReq),
    follow (clientStep 0) (ready, .header)
      (.bytes tenBytes [] :: transfer [[1, 2, 3, 4], [5, 6, 7, 8, 9, 10]] (.err 62)) =
      some (s', .adding (.malloc req 1)) ∧
    Complete s'.spool 1 req [1, 2, 3, 4, 5, 6, 7, 8, 9, 10] := by
  have h := reply_complete_iff ready _ 0 [.bytes tenBytes []]
    (transfer [[1, 2, 3, 4], [5, 6, 7, 8, 9, 10]] (.err 62)) tenBytes []
    [1, 2, 3, 4, 5, 6, 7, 8, 9, 10] _ 1 ⟨(fun _ _ hi => by cases hi), (fun _ _ _ hi => by cases hi)⟩
    (by decide) (by decide) rfl (List.prefix_refl _)
  exact ⟨_, _, rfl, h.2.2.2.mpr ⟨rfl, by decide⟩⟩

set_option maxRecDepth 8000 in
/-- Ten bytes are announced and sent, and after four of them the connection is silent: the
client is told that its job is stored. -/
theorem timeout_accepted : ∃ (s' : Shared) (req : PrintReq),
    follow (clientStep 0) (ready, .header)
      (.bytes tenBytes [] :: transfer [[1, 2, 3, 4]] (.err 62)) = some (s', .adding (.malloc req 1)) ∧
    s'.history = [.accepted 0 (success 1) 1 [1, 2, 3, 4] req.image] ∧ req.size = 10 ∧
    s'.spool.file (dataPath 1) = some [1, 2, 3, 4] ∧
    ¬ Complete s'.spool 1 req [1, 2, 3, 4, 5, 6, 7, 8, 9, 10] := by
  refine ⟨_, _, rfl, rfl, by decide, rfl, ?_⟩
  rintro ⟨h, -⟩
  cases h

end PrintdClient
