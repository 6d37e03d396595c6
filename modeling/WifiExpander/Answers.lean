import WifiExpander.Parse

/-!
Does a response reach the request it answers?

After the handler of an `RSP_UPG_DATA` has run, and perhaps linked another request,
`uart_protocol_parse` marks the first entry of the send list with the sequence number
and the command of the frame, whatever its type. `FindsRequest` says for which send
lists that marks the requests that are answered and nothing else.
-/

namespace WifiExpander

open WifiExpander.Theory

variable {σ τ : Type}

/-! ### The property -/

section

variable [SendOps τ]

def pollOf (s : τ) (b : BufId) : UartPoll := ((SendOps.vars s).mem b).poll

/-- The entry has the sequence number and the command of the data frame at `c`. -/
def hasSnOf (s : τ) (c : Mem) (b : BufId) : Bool :=
  hdrSn c = hdrSn ((SendOps.vars s).mem b).cmd ∧ rspUpgData = hdrCmdId ((SendOps.vars s).mem b).cmd

/-- From `s` to `s'` the data frame at `c` has been matched to the requests on the list. -/
structure AnswersRequest (c : Mem) (s s' : τ) : Prop where
  answered : ∀ b ∈ SendOps.linkedBufs s, hasSnOf s c b = true → (pollOf s b).type = 1 →
    (pollOf s' b).freeFlag = 1
  others : ∀ b ∈ SendOps.linkedBufs s, ¬ (hasSnOf s c b = true ∧ (pollOf s b).type = 1) →
    (pollOf s' b).freeFlag = (pollOf s b).freeFlag
  /-- the entry that the handler links, with `free_flag` 0 -/
  new : ∀ b ∈ SendOps.linkedBufs s', b ∉ SendOps.linkedBufs s → (pollOf s' b).freeFlag = 0

/-- The offset after the data frame at `c` -/
def Upgrade.offsetAfter (P : Platform σ) (c : Mem) (u : Upgrade σ) : UInt32 :=
  if pageOk (page c) (declared c) u.iap = true ∧
      (P.bootloaderWriteStorage u.iap.offset (page c).data u.world).1 = bootloaderOk then
    u.iap.offset + (page c).dataLength.toUInt32
  else u.iap.offset

/-- The frame meets the request first and no unanswered one behind it, or meets no
entry, not even the request for more that its handler is about to link. -/
def Device.FindsRequest (P : Platform σ) (c : Mem) (d : Device τ σ) : Prop :=
  match (SendOps.linkedBufs d.tx).filter (hasSnOf d.tx c) with
  | [] => ¬ (SendOps.freeBufs d.tx ≠ [] ∧ (SendOps.vars d.tx).uartSendSn = hdrSn c ∧
      d.toUpgrade.offsetAfter P c < d.iap.fwLen)
  | b :: rest => ((pollOf d.tx b).type = 1 ∨ (pollOf d.tx b).freeFlag = 1) ∧
      ∀ b ∈ rest, (pollOf d.tx b).type = 1 → (pollOf d.tx b).freeFlag = 1

end

/-! ### The matching loop -/

namespace Pool

variable {v : Pool} {b : BufId} {c : Mem} {info : SendInfo}

theorem markAnswered_freeFlag (sn cmdId : UInt8) :
    (pollOf (v.markAnswered sn cmdId) b).freeFlag =
      if v.linked.find? (v.answeredBy sn cmdId) = some b then 1 else (pollOf v b).freeFlag := by
  unfold markAnswered
  cases hfind : v.linked.find? (v.answeredBy sn cmdId) with
  | none => simp
  | some m =>
      by_cases hb : m = b
      · subst hb
        simp [pollOf, SendOps.vars, SendVars.setPoll_poll]
      · simp [pollOf, SendOps.vars, SendVars.setPoll_poll, hb, Ne.symm hb]

@[simp] theorem markAnswered_linked (sn cmdId : UInt8) :
    (v.markAnswered sn cmdId).linked = v.linked := by
  unfold markAnswered
  split <;> rfl

/-- What the handler links is matched if nothing before it is. -/
theorem new_matches {rest : List BufId} (hfree : v.free = b :: rest) :
    (v.send (.dispose info)).2.answeredBy (hdrSn c) rspUpgData b = true ↔
      v.uartSendSn = hdrSn c ∧ info.cmdId = rspUpgData := by
  have hmem : (v.send (.dispose info)).2.mem b =
      disposeFill info v.uartSendSn { v.mem b with buf := some b } := send_mem_head hfree _
  rw [answeredBy, hmem, disposeFill_hdrSn, disposeFill_hdrCmdId, decide_eq_true_iff]
  exact and_congr eq_comm eq_comm

theorem new_freeFlag {rest : List BufId} (hfree : v.free = b :: rest) :
    (pollOf (v.send (.dispose info)).2 b).freeFlag = 0 := by
  have hmem : (v.send (.dispose info)).2.mem b =
      disposeFill info v.uartSendSn { v.mem b with buf := some b } := send_mem_head hfree _
  rw [pollOf, SendOps.vars]
  change ((v.send (.dispose info)).2.mem b).poll.freeFlag = 0
  rw [hmem]
  rfl

theorem Separate.pollOf_send (h : v.Separate noHolder) (hb : b ∈ v.linked) :
    pollOf (v.send (.dispose info)).2 b = pollOf v b := by
  simp only [pollOf, SendOps.vars, h.send_mem _ hb]

/-- The flags after the handler has linked its entry and the loop has run. -/
theorem sendMarked_freeFlag :
    (pollOf (v.sendMarked c info) b).freeFlag =
      if (v.send (.dispose info)).2.linked.find?
          ((v.send (.dispose info)).2.answeredBy (hdrSn c) rspUpgData) = some b then 1
      else (pollOf (v.send (.dispose info)).2 b).freeFlag :=
  markAnswered_freeFlag _ _

theorem sendMarked_linked : (v.sendMarked c info).linked = v.linked ++ v.free.head?.toList := by
  rw [sendMarked, markAnswered_linked, send_linked]

/-- An entry that was not on the list is the one the handler has linked. -/
theorem free_of_new (hb : b ∈ SendOps.linkedBufs (v.sendMarked c info))
    (hold : b ∉ SendOps.linkedBufs v) : v.free = b :: v.free.tail := by
  have hlinked : (v.sendMarked c info).linked = v.linked ++ v.free.head?.toList :=
    sendMarked_linked
  have hmem : b ∈ v.linked ++ v.free.head?.toList := hlinked ▸ hb
  have hhead : v.free.head? = some b := by simpa using (List.mem_append.mp hmem).resolve_left hold
  exact List.eq_cons_of_mem_head? hhead

/-- With no old entry of that number the loop can only meet the new one. -/
theorem Separate.find_of_none (h : v.Separate noHolder)
    (hnone : v.linked.filter (hasSnOf v c) = []) :
    (v.send (.dispose info)).2.linked.find?
        ((v.send (.dispose info)).2.answeredBy (hdrSn c) rspUpgData) =
      v.free.head?.toList.find?
        ((v.send (.dispose info)).2.answeredBy (hdrSn c) rspUpgData) := by
  have hold : v.linked.find? (v.answeredBy (hdrSn c) rspUpgData) = none := by
    rw [← List.head?_filter]
    exact congrArg List.head? hnone
  rw [h.send_find, hold, Option.none_or]

theorem Separate.find_of_first {m : BufId} {rest : List BufId} (h : v.Separate noHolder)
    (hfirst : v.linked.filter (hasSnOf v c) = m :: rest) :
    (v.send (.dispose info)).2.linked.find?
      ((v.send (.dispose info)).2.answeredBy (hdrSn c) rspUpgData) = some m := by
  have hold : v.linked.find? (v.answeredBy (hdrSn c) rspUpgData) = some m := by
    rw [← List.head?_filter]
    exact congrArg List.head? hfirst
  rw [h.send_find, hold, Option.some_or]

theorem find_new_iff {rest : List BufId} (hfree : v.free = b :: rest) :
    v.free.head?.toList.find?
        ((v.send (.dispose info)).2.answeredBy (hdrSn c) rspUpgData) = some b ↔
      v.uartSendSn = hdrSn c ∧ info.cmdId = rspUpgData := by
  rw [hfree, List.head?_cons, Option.toList_some, List.find?_singleton, ← new_matches hfree]
  by_cases hp : (v.send (.dispose info)).2.answeredBy (hdrSn c) rspUpgData b = true
  · rw [if_pos hp]
    exact iff_of_true rfl hp
  · rw [if_neg hp]
    exact iff_of_false (by simp) hp

/-- No entry of the list has the number of the frame. -/
theorem Separate.answersRequest_of_none (h : v.Separate noHolder)
    (hnone : v.linked.filter (hasSnOf v c) = []) :
    AnswersRequest c v (v.sendMarked c info) ↔
      ¬ (v.free ≠ [] ∧ v.uartSendSn = hdrSn c ∧ info.cmdId = rspUpgData) := by
  constructor
  · rintro hanswers ⟨hfree, hmatches⟩
    obtain ⟨b, rest, hcons⟩ := List.exists_cons_of_ne_nil hfree
    have hhead : v.free = b :: v.free.tail := by rw [hcons, List.tail_cons]
    have hflag := hanswers.new b (by
      change b ∈ (v.sendMarked c info).linked
      rw [sendMarked_linked, hcons]
      simp) (h.free_linked b (by simp [hcons]))
    rw [sendMarked_freeFlag, h.find_of_none hnone, if_pos ((find_new_iff hhead).mpr hmatches)]
      at hflag
    exact absurd hflag Nat.one_ne_zero
  · intro hnot
    refine ⟨?_, ?_, ?_⟩
    · intro b hb hsn _
      have hmem : b ∈ v.linked.filter (hasSnOf v c) := List.mem_filter.mpr ⟨hb, hsn⟩
      rw [hnone] at hmem
      exact absurd hmem List.not_mem_nil
    · intro b hb _
      have hne : v.free.head?.toList.find?
          ((v.send (.dispose info)).2.answeredBy (hdrSn c) rspUpgData) ≠ some b := by
        intro heq
        have hmem := List.mem_of_find?_eq_some heq
        exact h.free_linked b (List.mem_of_mem_head? (by simpa using hmem)) hb
      rw [sendMarked_freeFlag, h.find_of_none hnone, if_neg hne, h.pollOf_send hb]
    · intro b hb hold
      have hfree := free_of_new hb hold
      have hne : ¬ (v.uartSendSn = hdrSn c ∧ info.cmdId = rspUpgData) := fun hmatches =>
        hnot ⟨by rw [hfree]; simp, hmatches⟩
      rw [sendMarked_freeFlag, h.find_of_none hnone, if_neg (hne ∘ (find_new_iff hfree).mp),
        new_freeFlag hfree]

/-- The loop meets `m` first. -/
theorem Separate.answersRequest_of_first {m : BufId} {rest : List BufId} (h : v.Separate noHolder)
    (hfirst : v.linked.filter (hasSnOf v c) = m :: rest) :
    AnswersRequest c v (v.sendMarked c info) ↔
      ((pollOf v m).type = 1 ∨ (pollOf v m).freeFlag = 1) ∧
        ∀ b ∈ rest, (pollOf v b).type = 1 → (pollOf v b).freeFlag = 1 := by
  have hmem : ∀ b, b ∈ m :: rest ↔ b ∈ v.linked ∧ hasSnOf v c b = true := by
    intro b
    rw [← hfirst, List.mem_filter]
  have hnd : (m :: rest).Nodup := hfirst ▸ h.linked_nodup.filter _
  have hm := (hmem m).mp List.mem_cons_self
  have hmarked : (pollOf (v.sendMarked c info) m).freeFlag = 1 := by
    rw [sendMarked_freeFlag, if_pos (h.find_of_first hfirst)]
  have hother : ∀ b, b ≠ m → (pollOf (v.sendMarked c info) b).freeFlag =
      (pollOf (v.send (.dispose info)).2 b).freeFlag := by
    intro b hne
    rw [sendMarked_freeFlag, h.find_of_first hfirst, if_neg fun heq => hne (Option.some.inj heq).symm]
  constructor
  · intro hanswers
    constructor
    · by_cases htype : (pollOf v m).type = 1
      · exact .inl htype
      · exact .inr ((hanswers.others m hm.1 fun hboth => htype hboth.2).symm.trans hmarked)
    · intro b hb htype
      have hbm : b ≠ m := fun heq => (List.nodup_cons.mp hnd).1 (heq ▸ hb)
      obtain ⟨hlinked, hsn⟩ := (hmem b).mp (List.mem_cons_of_mem m hb)
      have hflag := hanswers.answered b hlinked hsn htype
      rwa [hother b hbm, h.pollOf_send hlinked] at hflag
  · rintro ⟨hhead, hrest⟩
    refine ⟨?_, ?_, ?_⟩
    · intro b hb hsn htype
      rcases List.mem_cons.mp ((hmem b).mpr ⟨hb, hsn⟩) with rfl | hb'
      · exact hmarked
      · have hbm : b ≠ m := fun heq => (List.nodup_cons.mp hnd).1 (heq ▸ hb')
        rw [hother b hbm, h.pollOf_send hb]
        exact hrest b hb' htype
    · intro b hb hnot
      by_cases hbm : b = m
      · subst hbm
        rw [hmarked]
        exact (hhead.resolve_left fun htype => hnot ⟨hm.2, htype⟩).symm
      · rw [hother b hbm, h.pollOf_send hb]
    · intro b hb hold
      rw [hother b fun heq => hold (heq ▸ hm.1), new_freeFlag (free_of_new hb hold)]

end Pool

/-! ### Responses -/

/-- What storing the page does to the offset. -/
theorem Upgrade.storePage_offset (P : Platform σ) (c : Mem) (u : Upgrade σ) :
    (u.storePage P (page c) (declared c)).iap.offset = u.offsetAfter P c ∧
      (u.storePage P (page c) (declared c)).iap.fwLen = u.iap.fwLen := by
  have hspec := storePage_spec P (page c) (declared c) u
  generalize u.storePage P (page c) (declared c) = u' at hspec
  unfold offsetAfter
  cases hspec with
  | rejected hok => simp [hok]
  | failed hok hres => simp [hres]
  | stored hok hres => simp [hok, hres]

namespace Device

variable {P : Platform σ} {c : Mem}

/-- The same over sequences. -/
theorem answersRequest_parsed {a a' : Device Pool σ} (hsep : a.tx.Separate noHolder)
    (hdata : accepts rspUpgData c = true) (hparsed : Parsed P c a a')
    (halive : a'.rebooted = false) :
    AnswersRequest c a.tx a'.tx ↔ a.FindsRequest P c := by
  have hcheck : procotolCheck c = true ∧ hdrCmdId c = rspUpgData := by
    simp only [accepts, Bool.and_eq_true, beq_iff_eq] at hdata
    exact ⟨hdata.1.1, hdata.2⟩
  have hown : ownCommand c = true := ownCommand_of_accepts hdata (.inr rfl)
  have hreq : accepts cmdUpgRequest c = false := by
    have hne : (rspUpgData == cmdUpgRequest) = false := by decide
    simp [accepts, hcheck.2, hne]
  obtain ⟨hoffset, hfwLen⟩ := Upgrade.storePage_offset P c a.toUpgrade
  -- whatever is sent, the condition on the list is the same
  have hfinds : ∀ info : SendInfo,
      (info.cmdId = rspUpgData ↔ a.toUpgrade.offsetAfter P c < a.iap.fwLen) →
      (AnswersRequest c a.tx (a.tx.sendMarked c info) ↔ a.FindsRequest P c) := by
    intro info hinfo
    unfold FindsRequest
    cases hlist : a.tx.linked.filter (hasSnOf a.tx c) with
    | nil =>
        rw [hsep.answersRequest_of_none hlist, hinfo]
        exact Iff.rfl
    | cons m rest =>
        rw [hsep.answersRequest_of_first hlist]
  cases hparsed with
  | rejected hbad => simp [hcheck.1] at hbad
  | relayed _ hnot | dropped _ hnot => simp [hown] at hnot
  | silent _ _ hnot | answered _ _ hnot => simp [hdata] at hnot
  | refused hcmd | accepted hcmd => simp [hreq] at hcmd
  | requested _ hu hlt =>
      subst hu
      rw [hoffset, hfwLen] at hlt
      exact hfinds _ (iff_of_true rfl hlt)
  | failed _ hu hge hfinish =>
      subst hu
      rw [hoffset, hfwLen] at hge
      exact hfinds _ (iff_of_false (by decide) hge)
  | installed _ hu _ hfinish =>
      have hspec := Upgrade.finish_spec P (a.toUpgrade.storePage P (Upgrade.page c)
        (Upgrade.declared c))
      rw [← hu, hfinish] at hspec
      cases hspec
      simp at halive

end Device

/-- What the property and the condition look at is the same in the code. -/
theorem Tx.Rep.observed {s : Tx} {v : Pool} (h : s.Rep v) :
    pollOf s = pollOf v ∧ hasSnOf s = hasSnOf v ∧
      SendOps.linkedBufs s = SendOps.linkedBufs v := by
  refine ⟨funext ?_, funext fun c => funext ?_, h.linkedBufs⟩
  · intro b
    simp only [pollOf, SendOps.vars, h.vars]
  · intro b
    simp only [hasSnOf, SendOps.vars, h.vars]

theorem Tx.Rep.answersRequest {s s' : Tx} {v v' : Pool} {c : Mem} (h : s.Rep v) (h' : s'.Rep v') :
    AnswersRequest c s s' ↔ AnswersRequest c v v' := by
  obtain ⟨hpoll, hsn, hlinked⟩ := h.observed
  obtain ⟨hpoll', -, hlinked'⟩ := h'.observed
  constructor
  · rintro ⟨h₁, h₂, h₃⟩
    simp only [hpoll, hpoll', hsn, hlinked, hlinked'] at h₁ h₂ h₃
    exact ⟨h₁, h₂, h₃⟩
  · rintro ⟨h₁, h₂, h₃⟩
    constructor
    · simpa only [hpoll, hpoll', hsn, hlinked] using h₁
    · simpa only [hpoll, hpoll', hsn, hlinked] using h₂
    · simpa only [hpoll', hlinked, hlinked'] using h₃

/-- **A response reaches the request it answers**, and no other entry, exactly where
the frame `FindsRequest`. -/
theorem response_reaches_request (P : Platform σ) (c : Mem) (d : Device Tx σ)
    (list : d.Sound fun _ => True) (running : d.rebooted = false)
    (hdata : accepts rspUpgData c = true) :
    ∃ d', uartProtocolParse P c d = some d' ∧
      (d'.rebooted = false → (AnswersRequest c d.tx d'.tx ↔ d.FindsRequest P c)) := by
  obtain ⟨a, hrep, hsep, -⟩ := list
  have hreb : a.rebooted = false := by
    rw [← running, hrep.upgrade]
  obtain ⟨a', hparse, hparsed⟩ := Device.uartProtocolParse_spec (P := P) (c := c) hsep hreb
  obtain ⟨d', hparse', hrep'⟩ := Device.follows_uartProtocolParse d a a' hrep hparse
  refine ⟨d', hparse', ?_⟩
  intro halive
  have hpool := Device.answersRequest_parsed hsep hdata hparsed
    (by rw [← halive, hrep'.upgrade])
  obtain ⟨s, hs, rfl⟩ := hrep
  obtain ⟨s', hs', rfl⟩ := hrep'
  obtain ⟨hpoll, hsn, hlinked⟩ := hs.observed
  have hfinds : (a.withTx s).FindsRequest P c ↔ a.FindsRequest P c := by
    simp only [Device.FindsRequest, Device.withTx, hpoll, hsn, hlinked, SendOps.freeBufs,
      hs.freeBufs, SendOps.vars, hs.vars]
  rw [hfinds]
  exact (hs.answersRequest hs').trans hpool

/-- Frames from the phone with the number or the command of a request for data, the
answer to an upgrade request and the request for data behind them. -/
def strays : List DevEvent :=
  [.forward (Mem.ofList (wireFrame wifiampAppHeader 3 0 rspUpgData [])),
    .forward (Mem.ofList (wireFrame wifiampAppHeader 0 0 0x20 [7])),
    .parse (upgRequestFrame 5 1000)]

theorem response_reaches_request_stray :
    ∃ d d', Device.runFrom compliantPlatform Sys.blankHeap Sys.blankMem 0 () strays = some d ∧
      uartProtocolParse compliantPlatform (upgDataFrame 0 0 [1]) d = some d' ∧
      SendOps.linkedBufs d.tx = [0, 1, 2, 3] ∧ (pollOf d.tx 3).freeFlag = 0 ∧
      AnswersRequest (upgDataFrame 0 0 [1]) d.tx d'.tx ∧ (pollOf d'.tx 3).freeFlag = 1 := by
  obtain ⟨d, hrun, hd⟩ := Device.exists_run compliantPlatform () strays
    (fun d => decide (d.rebooted = false ∧ SendOps.linkedBufs d.tx = [0, 1, 2, 3] ∧
      (SendOps.linkedBufs d.tx).filter (hasSnOf d.tx (upgDataFrame 0 0 [1])) = [3] ∧
      (pollOf d.tx 3).type = 1 ∧ (pollOf d.tx 3).freeFlag = 0 ∧
      (uartProtocolParse compliantPlatform (upgDataFrame 0 0 [1]) d).any fun d' => !d'.rebooted))
    (by decide +kernel)
  obtain ⟨hawake, hlinked, hfilter, htype, hflag, halive⟩ := of_decide_eq_true hd
  have fresh : Device.GuardedFrom compliantPlatform (fun d e => d.InspectFresh e) Sys.blankHeap
      Sys.blankMem 0 () strays := by decide +kernel
  obtain ⟨d₁, hrun₁, hsound⟩ := Device.sound_runFrom fresh
  obtain rfl : d = d₁ := Option.some.inj (hrun.symm.trans hrun₁)
  obtain ⟨d', hparse, hiff⟩ := response_reaches_request compliantPlatform (upgDataFrame 0 0 [1]) d
    hsound hawake (by decide +kernel)
  have hfinds : d.FindsRequest compliantPlatform (upgDataFrame 0 0 [1]) := by
    simp only [Device.FindsRequest, hfilter]
    exact ⟨.inl htype, by simp⟩
  have hanswers := (hiff (by simpa [hparse] using halive)).mpr hfinds
  have hmem : (3 : BufId) ∈ (SendOps.linkedBufs d.tx).filter
      (hasSnOf d.tx (upgDataFrame 0 0 [1])) := by simp [hfilter]
  obtain ⟨hin, hsn⟩ := List.mem_filter.mp hmem
  exact ⟨d, d', hrun, hparse, hlinked, hflag, hanswers, hanswers.answered 3 hin hsn htype⟩

/-- A frame from the phone that happens to carry number 0 and command 0xD2, and behind
it the first request for data, which has number 0. -/
def lookalike : List DevEvent :=
  [.forward (Mem.ofList (wireFrame wifiampAppHeader 0 0 rspUpgData [])),
    .parse (upgRequestFrame 5 1000)]

/-- The forwarded frame is marked, the request is not. -/
theorem lookalike_takes_answer :
    accepts rspUpgData (upgDataFrame 0 0 [1]) = true ∧
      ∃ d d', Device.runFrom compliantPlatform Sys.blankHeap Sys.blankMem 0 () lookalike = some d ∧
        uartProtocolParse compliantPlatform (upgDataFrame 0 0 [1]) d = some d' ∧
        d'.rebooted = false ∧ ¬ AnswersRequest (upgDataFrame 0 0 [1]) d.tx d'.tx := by
  obtain ⟨d, hrun, hparse⟩ := Device.exists_run compliantPlatform () lookalike
    (fun d => (uartProtocolParse compliantPlatform (upgDataFrame 0 0 [1]) d).any fun d' =>
      !d'.rebooted && (SendOps.linkedBufs d.tx).any fun b => hasSnOf d.tx (upgDataFrame 0 0 [1]) b &&
        (pollOf d.tx b).type == 1 && (pollOf d'.tx b).freeFlag == 0)
    (by decide +kernel)
  obtain ⟨d', hparse, hmissed⟩ := Option.any_eq_true _ _ |>.mp hparse
  simp only [Bool.and_eq_true, Bool.not_eq_true', List.any_eq_true, beq_iff_eq] at hmissed
  obtain ⟨halive, b, hb, ⟨hsn, htype⟩, hflag⟩ := hmissed
  refine ⟨by decide +kernel, d, d', hrun, hparse, halive, ?_⟩
  intro hanswers
  rw [hanswers.answered b hb hsn htype] at hflag
  exact absurd hflag Nat.one_ne_zero

end WifiExpander
