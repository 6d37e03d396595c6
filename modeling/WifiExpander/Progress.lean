import WifiExpander.StopAndWait

/-!
Does a running upgrade wait for something?

After an accepted upgrade request, and until `offset` reaches `fw_len`, a request
for the current offset should be on the send list or have been given up after
three posts. Both handlers ask for data through `uart_protocol_dispose`, whose
failure they ignore: without a free buffer the transfer stays open and nobody is
asked. Where the buffers are there, `Pool.Asked` holds after every step.
-/

namespace WifiExpander

open WifiExpander.Theory

variable {σ τ : Type}

/-! ### Requests for one offset -/

/-- The frame that `iap_req_request` sends. -/
def requestFrame (sn : UInt8) (offset : UInt32) : List UInt8 :=
  mdlFrame sn pdttypeBleFlash reqUpgData (wordBytes offset)

/-- The buffer holds a request for this offset that is not marked answered. -/
def SendVars.asksFor (w : SendVars) (offset : UInt32) (b : BufId) : Prop :=
  w.unanswered b = true ∧ (w.mem b).frame = requestFrame (hdrSn (w.mem b).cmd) offset

/-- The entry is about the place of the buffer on the send list. -/
def Obs.about (b : BufId) : Obs → Bool
  | .linked c _ _ | .posted c _ _ | .answered c _ | .expired c _ => c = b
  | .transmitted _ _ _ => false

/-- A request for this offset was linked, posted three times and discarded, and
not marked answered in between. -/
def GivenUp (log : List Obs) (offset : UInt32) : Prop :=
  ∃ b sn pre post, log = pre ++ .linked b 1 (requestFrame sn offset) :: post ∧
    List.replicate 3 (.posted b 1 (requestFrame sn offset)) ++
      [.expired b (requestFrame sn offset)] <+: post.filter (Obs.about b)

theorem GivenUp.append {log : List Obs} {offset : UInt32} (h : GivenUp log offset)
    (l : List Obs) : GivenUp (log ++ l) offset := by
  obtain ⟨b, sn, pre, post, rfl, hpost⟩ := h
  refine ⟨b, sn, pre, post ++ l, by simp, ?_⟩
  rw [List.filter_append]
  exact hpost.trans (List.prefix_append _ _)

namespace Pool

variable {v w : Pool} {mark : Nat} {offset : UInt32} {b c : BufId}

/-- A request on the send list, linked since the log had length `mark`; all that
was logged of it since are its posts. -/
structure Tracked (v : Pool) (mark : Nat) (offset : UInt32) (b : BufId) : Prop where
  linked : b ∈ v.linked
  asks : v.asksFor offset b
  times : (v.mem b).poll.times ≤ 3
  logged : ∃ pre post, v.log.drop mark = pre ++ .linked b 1 (v.mem b).frame :: post ∧
    post.filter (Obs.about b) =
      List.replicate (v.mem b).poll.times (.posted b 1 (v.mem b).frame)

/-- A request for this offset waits for its answer, or was given up. -/
def Asked (v : Pool) (mark : Nat) (offset : UInt32) : Prop :=
  (∃ b, v.Tracked mark offset b) ∨ GivenUp (v.log.drop mark) offset

/-- What is logged after something that was logged since `mark`. -/
theorem drop_append {log l : List Obs} (h : log.drop mark ≠ []) :
    (log ++ l).drop mark = log.drop mark ++ l := by
  have hlt : mark < log.length := by
    by_contra hle
    exact h (List.drop_eq_nil_of_le (Nat.le_of_not_lt hle))
  exact List.drop_append_of_le_length hlt.le

theorem GivenUp.ne_nil {log : List Obs} (h : GivenUp log offset) : log ≠ [] := by
  obtain ⟨b, sn, pre, post, rfl, -⟩ := h
  simp

theorem Tracked.ne_nil (h : v.Tracked mark offset b) : v.log.drop mark ≠ [] := by
  obtain ⟨pre, post, heq, -⟩ := h.logged
  simp [heq]

/-- Steps that leave the buffer alone and log nothing of it. -/
theorem Tracked.mono (h : v.Tracked mark offset b) (hlinked : b ∈ w.linked)
    (hmem : w.mem b = v.mem b) {l : List Obs} (hlog : w.log = v.log ++ l)
    (hl : ∀ o ∈ l, o.about b = false) : w.Tracked mark offset b := by
  obtain ⟨pre, post, heq, hposts⟩ := h.logged
  have hnone : l.filter (Obs.about b) = [] :=
    List.filter_eq_nil_iff.mpr fun o ho => by simp [hl o ho]
  refine ⟨hlinked, ?_, hmem ▸ h.times, pre, post ++ l, ?_, ?_⟩
  · have := h.asks
    simp only [SendVars.asksFor, SendVars.unanswered, hmem] at this ⊢
    exact this
  · rw [hlog, drop_append h.ne_nil, heq, hmem]
    simp
  · rw [List.filter_append, hnone, List.append_nil, hposts, hmem]

/-- A log that only grew. -/
theorem GivenUp.mono (h : GivenUp (v.log.drop mark) offset) {l : List Obs}
    (hlog : w.log = v.log ++ l) : GivenUp (w.log.drop mark) offset := by
  rw [hlog, drop_append (GivenUp.ne_nil h)]
  exact h.append l

/-! ### The poll task -/

/-- What a visit logs is about the entry visited. -/
theorem pollStep_log {k : PollVerdict} (h : v.pollStep (k, c) = some w) :
    ∃ l, w.log = v.log ++ l ∧ ∀ o ∈ l, o.about c = true := by
  cases k with
  | skip => cases h; exact ⟨[], by simp, by simp⟩
  | wait => obtain rfl := Option.some.inj h; exact ⟨[], (List.append_nil _).symm, by simp⟩
  | answered | expired =>
      obtain ⟨-, rfl⟩ := recycle_eq h
      exact ⟨[_], rfl, by simp [Obs.about]⟩
  | release | first | again =>
      obtain rfl := Option.some.inj h
      exact ⟨[_], SendVars.osqPost_log _ _, by simp [Obs.about]⟩

/-- A visit unlinks no other entry. -/
theorem pollStep_keeps {k : PollVerdict} (h : v.pollStep (k, c) = some w) (hne : b ≠ c)
    (hb : b ∈ v.linked) : b ∈ w.linked := by
  cases k with
  | skip => cases h; exact hb
  | answered | expired => obtain ⟨-, rfl⟩ := recycle_eq h; exact (List.mem_erase_of_ne hne).mpr hb
  | release => obtain rfl := Option.some.inj h; exact (List.mem_erase_of_ne hne).mpr hb
  | wait | first | again => obtain rfl := Option.some.inj h; exact hb

theorem Obs.about_ne {o : Obs} (h : o.about c = true) (hne : c ≠ b) : o.about b = false := by
  cases o <;> simp_all [Obs.about]

/-- Only counters change. -/
theorem asksFor_setPoll {p : UartPoll} (h : v.asksFor offset b) (htype : p.type = 1)
    (hflag : p.freeFlag = 0) : (v.setPoll b p).asksFor offset b := by
  obtain ⟨hun, hframe⟩ := h
  have hcmd := (of_decide_eq_true hun).2.1
  refine ⟨decide_eq_true ?_, ?_⟩
  · simpa [SendVars.setPoll_poll, htype, hflag] using hcmd
  · simpa using hframe

/-- The tracked entry waits on. -/
theorem Tracked.waited (h : v.Tracked mark offset b) {p : UartPoll} (htype : p.type = 1)
    (hflag : p.freeFlag = 0) (htimes : p.times = (v.mem b).poll.times) :
    (v.withVars (v.setPoll b p)).Tracked mark offset b := by
  refine ⟨h.linked, asksFor_setPoll h.asks htype hflag, ?_, ?_⟩
  · simpa [SendVars.setPoll_poll, htimes] using h.times
  · simpa [SendVars.setPoll_poll, htimes] using h.logged

/-- The tracked entry is posted once more. -/
theorem Tracked.posted (h : v.Tracked mark offset b) {p : UartPoll} (htype : p.type = 1)
    (hflag : p.freeFlag = 0) (htimes : p.times = (v.mem b).poll.times + 1) (hle : p.times ≤ 3) :
    (v.withVars ((v.setPoll b p).osqPost b)).Tracked mark offset b := by
  obtain ⟨pre, post, heq, hposts⟩ := h.logged
  have hmem : ((v.setPoll b p).osqPost b).mem = (v.setPoll b p).mem := SendVars.osqPost_mem _ _
  have hlog : ((v.setPoll b p).osqPost b).log = v.log ++ [.posted b 1 (v.mem b).frame] := by
    rw [SendVars.osqPost_log]
    simp [SendVars.setPoll_poll, htype]
  refine ⟨h.linked, ?_, ?_, pre, post ++ [.posted b 1 (v.mem b).frame], ?_, ?_⟩
  · have := asksFor_setPoll h.asks htype hflag
    simp only [SendVars.asksFor, SendVars.unanswered, withVars_vars, hmem] at this ⊢
    exact this
  · simpa [hmem, SendVars.setPoll_poll] using hle
  · simp only [withVars_vars, hlog, drop_append h.ne_nil, heq, hmem, SendVars.setPoll_frame]
    simp
  · simp only [withVars_vars, hmem, SendVars.setPoll_poll, if_true, SendVars.setPoll_frame,
      List.filter_append, hposts, htimes, List.replicate_succ']
    simp [Obs.about]

/-- The tracked entry has been posted three times and is discarded. -/
theorem Tracked.expired (h : v.Tracked mark offset b) (htimes : (v.mem b).poll.times = 3)
    (hlog : w.log = v.log ++ [.expired b (v.mem b).frame]) :
    GivenUp (w.log.drop mark) offset := by
  obtain ⟨pre, post, heq, hposts⟩ := h.logged
  have hframe := h.asks.2
  rw [htimes] at hposts
  rw [hlog, drop_append h.ne_nil, heq]
  rw [hframe] at hposts ⊢
  refine ⟨b, hdrSn (v.mem b).cmd, pre,
    post ++ [.expired b (requestFrame (hdrSn (v.mem b).cmd) offset)], by simp, ?_⟩
  rw [List.filter_append, hposts]
  simp [Obs.about]

/-- A visit to the tracked entry leaves it waiting, posts it, or gives it up. -/
theorem Tracked.visit_self (h : v.Tracked mark offset b)
    (hstep : v.pollStep (pollVerdict (v.mem b).poll, b) = some w) : w.Asked mark offset := by
  obtain ⟨htype, -, hflag⟩ := of_decide_eq_true h.asks.1
  have hle := h.times
  by_cases hfirst : (v.mem b).poll.times = 0
  · have hverdict : pollVerdict (v.mem b).poll = .first := by simp [pollVerdict, htype, hfirst]
    rw [hverdict] at hstep
    obtain rfl := Option.some.inj hstep
    exact .inl ⟨b, h.posted htype hflag rfl (by simp [hfirst])⟩
  by_cases hdelay : (v.mem b).poll.delay + 5 ≥ 500
  · by_cases hthird : (v.mem b).poll.times + 1 > 3
    · have hverdict : pollVerdict (v.mem b).poll = .expired := by
        simp only [pollVerdict, htype, hfirst, hflag, if_pos hdelay, if_pos hthird]
        rfl
      rw [hverdict] at hstep
      obtain ⟨-, rfl⟩ := recycle_eq hstep
      exact .inr (h.expired (by omega) rfl)
    · have hverdict : pollVerdict (v.mem b).poll = .again := by
        simp only [pollVerdict, htype, hfirst, hflag, if_pos hdelay, if_neg hthird]
        rfl
      rw [hverdict] at hstep
      obtain rfl := Option.some.inj hstep
      exact .inl ⟨b, h.posted htype hflag rfl (by simpa using Nat.not_lt.mp hthird)⟩
  · have hverdict : pollVerdict (v.mem b).poll = .wait := by
      simp only [pollVerdict, htype, hfirst, hflag, if_neg hdelay]
      rfl
    rw [hverdict] at hstep
    obtain rfl := Option.some.inj hstep
    exact .inl ⟨b, h.waited htype hflag rfl⟩

theorem Asked.visit (h : v.Asked mark offset)
    (hstep : v.pollStep (pollVerdict (v.mem c).poll, c) = some w) : w.Asked mark offset := by
  obtain ⟨l, hlog, hl⟩ := pollStep_log hstep
  rcases h with ⟨b, h⟩ | h
  · by_cases hcb : c = b
    · subst hcb
      exact h.visit_self hstep
    · have hlinked := pollStep_keeps hstep (Ne.symm hcb) h.linked
      exact .inl ⟨b, h.mono hlinked (pollStep_mem hstep (Ne.symm hcb)) hlog fun o ho =>
        Obs.about_ne (hl o ho) hcb⟩
  · exact .inr (GivenUp.mono h hlog)

theorem Asked.pollTick (h : v.Asked mark offset) (hsep : v.Separate noHolder)
    (htick : v.pollTick = some w) : w.Asked mark offset :=
  hsep.pollTick (fun u => u.Asked mark offset) (fun _ _ _ _ hu _ hstep => hu.visit hstep) h htick

theorem pollTick_log_le (hsep : v.Separate noHolder) (htick : v.pollTick = some w) :
    v.log.length ≤ w.log.length := by
  refine hsep.pollTick (fun u => v.log.length ≤ u.log.length) ?_ le_rfl htick
  intro u b u' _ hle _ hstep
  obtain ⟨l, hlog, -⟩ := pollStep_log hstep
  rw [hlog, List.length_append]
  omega

/-! ### The other steps -/

theorem Asked.drives (h : v.Asked mark offset) (hdrives : Device.Drives v w) :
    w.Asked mark offset := by
  obtain ⟨l, hlog, hl⟩ := hdrives.log
  rcases h with ⟨b, h⟩ | h
  · refine .inl ⟨b, h.mono (hdrives.linked ▸ h.linked) (hdrives.mem b h.linked) hlog ?_⟩
    intro o ho
    obtain ⟨c, type, f, rfl⟩ := hl o ho
    rfl
  · exact .inr (GivenUp.mono h hlog)

theorem Asked.send (h : v.Asked mark offset) (hsep : v.Separate noHolder) (call : Call) :
    (v.send call).2.Asked mark offset := by
  rcases h with ⟨b, h⟩ | h
  · have hlinked : b ∈ (v.send call).2.linked := by
      rw [send_linked]
      exact List.mem_append_left _ h.linked
    refine .inl ⟨b, h.mono hlinked (hsep.send_mem call h.linked) (send_log v call) ?_⟩
    intro o ho
    obtain ⟨c, hc, rfl⟩ := List.mem_map.mp ho
    have hfree : c ∈ v.free := List.mem_of_head? (Option.mem_toList.mp hc)
    have hne : c ≠ b := fun heq => hsep.free_linked c hfree (heq ▸ h.linked)
    simpa [Obs.about] using hne
  · exact .inr (GivenUp.mono h (send_log v call))

/-- With a buffer at hand a request is tracked from its link on. -/
theorem tracked_request (offset : UInt32) {rest : List BufId} (hfree : v.free = b :: rest)
    (hmark : mark ≤ v.log.length) :
    (v.send (.dispose (iapReqRequestInfo offset))).2.Tracked mark offset b := by
  have hmem := send_mem_head hfree (.dispose (iapReqRequestInfo offset))
  have hlog := send_log v (.dispose (iapReqRequestInfo offset))
  rw [hfree] at hlog
  set f := Call.fill (.dispose (iapReqRequestInfo offset)) v.uartSendSn
    { v.mem b with buf := some b } with hf
  have hpoll : f.poll = ⟨0, 0, 1, 0⟩ := rfl
  have hsn : hdrSn f.cmd = v.uartSendSn := disposeFill_hdrSn _ _ _
  have hcmd : hdrCmdId f.cmd = reqUpgData := disposeFill_hdrCmdId _ _ _
  have hframe : f.frame = requestFrame v.uartSendSn offset := disposeFill_frame _ _ _
  refine ⟨?_, ⟨?_, ?_⟩, ?_, v.log.drop mark, [], ?_, ?_⟩
  · rw [send_linked, hfree]
    simp
  · simp [SendVars.unanswered, hmem, hpoll, hcmd]
  · rw [hmem, hsn, hframe]
  · simp [hmem, hpoll]
  · rw [hlog, List.drop_append_of_le_length hmark, hmem]
    rfl
  · simp [hmem, hpoll]

/-- Marking another entry. -/
theorem Tracked.markAnswered (h : v.Tracked mark offset b) {sn cmdId : UInt8}
    (hne : v.linked.find? (v.answeredBy sn cmdId) ≠ some b) :
    (v.markAnswered sn cmdId).Tracked mark offset b := by
  unfold Pool.markAnswered
  split
  · rename_i c hfind
    have hcb : b ≠ c := fun heq => hne (heq ▸ hfind)
    exact h.mono h.linked (by simp [SendVars.setPoll, SendVars.setMem_mem, hcb])
      (List.append_nil _).symm (by simp)
  · exact h

theorem drives_log_le (hdrives : Device.Drives v w) : v.log.length ≤ w.log.length := by
  obtain ⟨l, hlog, -⟩ := hdrives.log
  simp [hlog]

theorem send_log_le (v : Pool) (call : Call) : v.log.length ≤ (v.send call).2.log.length := by
  simp [send_log]

theorem sendMarked_log_le (v : Pool) (c : Mem) (info : SendInfo) :
    v.log.length ≤ (v.sendMarked c info).log.length := by
  rw [sendMarked, markAnswered_log]
  exact send_log_le _ _

theorem sendAccepted_log_le (v : Pool) (c : Mem) (pageLen : UInt32) :
    v.log.length ≤ (v.sendAccepted c pageLen).log.length := by
  unfold sendAccepted
  dsimp only
  split
  · exact (send_log_le _ _).trans (send_log_le _ _)
  · exact send_log_le _ _

/-- With two buffers at hand an accepted upgrade request is answered and data is
asked for. -/
theorem asked_sendAccepted (hfree : 2 ≤ v.free.length) (c : Mem) (pageLen : UInt32) :
    (v.sendAccepted c pageLen).Asked v.log.length 0 := by
  obtain ⟨b₁, b₂, rest, hcons⟩ : ∃ b₁ b₂ rest, v.free = b₁ :: b₂ :: rest := by
    match v.free, hfree with
    | b₁ :: b₂ :: rest, _ => exact ⟨b₁, b₂, rest, rfl⟩
  have hobtained := send_obtained v (.ask askUpgRequest c (wordBytes pageLen))
  have hnext := send_free v (.ask askUpgRequest c (wordBytes pageLen))
  rw [hcons] at hobtained hnext
  unfold sendAccepted
  dsimp only
  rw [if_pos (by simpa using hobtained)]
  exact .inl ⟨b₂, tracked_request 0 hnext (send_log_le _ _)⟩

/-- A data frame asks for the current offset: a buffer is free, and the frame is
not matched to the request that it causes. -/
theorem asked_sendMarked (hsep : v.Separate noHolder) (hmark : mark ≤ v.log.length) {c : Mem}
    (hfree : v.free ≠ []) (hsn : (matched v c).isSome = true ∨ hdrSn c ≠ v.uartSendSn) :
    (v.sendMarked c (iapReqRequestInfo offset)).Asked mark offset := by
  obtain ⟨b, rest, hcons⟩ := List.exists_cons_of_ne_nil hfree
  have htracked := tracked_request offset hcons hmark
  have hb : b ∉ v.linked := hsep.free_linked b (by simp [hcons])
  refine .inl ⟨b, htracked.markAnswered ?_⟩
  rw [hsep.send_find]
  cases hfind : v.linked.find? (v.answeredBy (hdrSn c) rspUpgData) with
  | some m =>
      intro heq
      exact hb (Option.some.inj heq ▸ List.mem_of_find?_eq_some hfind)
  | none =>
      have hnone : matched v c = none := hfind
      have hne : hdrSn c ≠ v.uartSendSn := hsn.resolve_left (by simp [hnone])
      have hnew := send_mem_head hcons (.dispose (iapReqRequestInfo offset))
      intro heq
      rw [Option.none_or] at heq
      have hanswers := List.find?_some heq
      rw [answeredBy, hnew] at hanswers
      exact hne ((of_decide_eq_true hanswers).1.trans (disposeFill_hdrSn _ _ _))

end Pool

/-! ### The transfer -/

namespace Upgrade

/-- How much had been logged when the current transfer was accepted. -/
def mark (u : Upgrade σ) : Option Nat := u.transfer.map fun t => t.1.2

/-- The same while data is missing. -/
def openSince (u : Upgrade σ) : Option Nat := if u.iap.offset < u.iap.fwLen then u.mark else none

/-- The bootloader erases the slot for this request. -/
def Granted (P : Platform σ) (u : Upgrade σ) (c : Mem) : Prop :=
  announced c ≤ maxFwLen ∧ (P.bootloaderInit u.world).1 = bootloaderOk ∧
    (P.bootloaderEraseStorageSlot (P.bootloaderInit u.world).2).1 = bootloaderOk

/-- The offset once the page of this frame is written, if it is. -/
def reached (P : Platform σ) (u : Upgrade σ) (c : Mem) : UInt32 :=
  if pageOk (page c) (declared c) u.iap = true ∧
      (P.bootloaderWriteStorage u.iap.offset (page c).data u.world).1 = bootloaderOk then
    u.iap.offset + (page c).dataLength.toUInt32
  else u.iap.offset

variable {P : Platform σ} {u u' : Upgrade σ} {c : Mem}

theorem request_granted (fwLen : UInt32) (m : Nat) (hc : announced c = fwLen) :
    (u.request P fwLen m).1 = true ↔ u.Granted P c := by
  subst hc
  unfold request Granted
  dsimp only [call, withWorld, record]
  split
  · rename_i hlong
    simp [UInt32.not_le.mpr hlong]
  rename_i hle
  have hle' : announced c ≤ maxFwLen := UInt32.not_lt.mp hle
  split
  · simp [‹_›]
  rename_i hinit
  split
  · simp [‹_›]
  · simp [hle', not_not.mp hinit, not_not.mp ‹_›]

theorem mark_concat {o : UpgObs} (ho : o.requested = none) (hhist : u'.hist = u.hist ++ [o]) :
    u'.mark = u.mark := by
  simp only [mark, transfer, hhist, sinceLast_concat_none ho, Option.map_map]
  rfl

theorem storePage_mark (pg : Page) (cur : UInt32) : (u.storePage P pg cur).mark = u.mark := by
  have hspec := storePage_spec P pg cur u
  generalize u.storePage P pg cur = u' at hspec
  cases hspec with
  | rejected => rfl
  | failed | stored => exact mark_concat rfl rfl

theorem storePage_iap (u : Upgrade σ) (c : Mem) :
    (u.storePage P (page c) (declared c)).iap.offset = u.reached P c ∧
      (u.storePage P (page c) (declared c)).iap.fwLen = u.iap.fwLen := by
  have hspec := storePage_spec P (page c) (declared c) u
  generalize u.storePage P (page c) (declared c) = u' at hspec
  unfold reached
  cases hspec with
  | rejected hok => simp [hok]
  | failed hok hres => simp [hok, hres]
  | stored hok hres => simp [hok, hres]

theorem finish_mark (u : Upgrade σ) : (u.finish P).2.mark = u.mark := by
  have hspec := finish_spec P u
  generalize u.finish P = res at hspec
  cases hspec with
  | bad => rfl
  | good => exact (mark_concat (u := u.record .setImage) rfl rfl).trans (mark_concat rfl rfl)

/-- The end of a transfer leaves no data missing. -/
theorem finish_openSince (h : ¬ u.iap.offset < u.iap.fwLen) : (u.finish P).2.openSince = none := by
  have hspec := finish_spec P u
  generalize u.finish P = res at hspec
  cases hspec with
  | bad | good => exact if_neg h

end Upgrade

/-! ### Steps -/

namespace Device

section

variable [SendOps τ]

/-- An upgrade request finds the buffers for its answer and for the first request,
if the slot is erased for it and data is needed; and if it is refused, it does not
open a transfer that is over. -/
def PromptsFirst (P : Platform σ) (d : Device τ σ) (c : Mem) : Prop :=
  (d.Granted P c → 0 < Upgrade.announced c → 2 ≤ (SendOps.freeBufs d.tx).length) ∧
    (¬ d.Granted P c → d.mark.isSome = true → Upgrade.announced c ≤ Upgrade.maxFwLen →
      d.iap.offset < Upgrade.announced c → d.iap.offset < d.iap.fwLen)

/-- A data frame that leaves data missing finds a buffer for the next request,
and does not have its sequence number, unless an entry on the list has it. -/
def PromptsNext (P : Platform σ) (d : Device τ σ) (c : Mem) : Prop :=
  d.mark.isSome = true → d.reached P c < d.iap.fwLen → SendOps.freeBufs d.tx ≠ [] ∧
    ((matched d.tx c).isSome = true ∨ hdrSn c ≠ (SendOps.vars d.tx).uartSendSn)

/-- The step does not lose a request. -/
def Prompts (P : Platform σ) (d : Device τ σ) : DevEvent → Prop
  | .parse c => d.rebooted = false →
      (accepts cmdUpgRequest c = true → d.PromptsFirst P c) ∧
        (accepts rspUpgData c = true → d.PromptsNext P c)
  | _ => True

/-- While data is missing, a request for the current offset waits for its answer,
or was posted three times and given up. -/
def AskedFor (d : Device τ σ) : Prop :=
  ∀ m ∈ d.openSince,
    (∃ b ∈ SendOps.linkedBufs d.tx, (SendOps.vars d.tx).asksFor d.iap.offset b) ∨
      GivenUp ((SendOps.vars d.tx).log.drop m) d.iap.offset

instance (P : Platform σ) (d : Device τ σ) (c : Mem) : Decidable (d.PromptsFirst P c) := by
  unfold PromptsFirst Upgrade.Granted
  infer_instance

instance (P : Platform σ) (d : Device τ σ) (c : Mem) : Decidable (d.PromptsNext P c) :=
  inferInstanceAs (Decidable (_ → _ → _))

instance (P : Platform σ) (d : Device τ σ) : ∀ e, Decidable (d.Prompts P e)
  | .parse _ => inferInstanceAs (Decidable (_ → _))
  | .tick | .pend | .transmit | .complete | .inspect | .otherMsgs _ | .connState _
  | .bleStateNotify _ | .iapDone _ | .forward _ => isTrue trivial

end

/-- The transfer is waiting for data that somebody was asked for. -/
structure Asking (a : Device Pool σ) : Prop where
  mark_le : ∀ m ∈ a.mark, m ≤ a.tx.log.length
  asked : ∀ m ∈ a.openSince, a.tx.Asked m a.iap.offset

variable {P : Platform σ} {a a' : Device Pool σ} {e : DevEvent} {c : Mem}

/-- A step of the send path alone. -/
theorem Asking.tx (h : a.Asking) {v : Pool} {u : Upgrade σ} {p : Param} {conn : UInt8}
    {ring : ByteRing} (hlog : a.tx.log.length ≤ v.log.length) (hmark : u.mark = a.mark)
    (hopen : ∀ m ∈ u.openSince, v.Asked m u.iap.offset) : Asking ⟨u, v, p, conn, ring⟩ :=
  ⟨fun m hm => (h.mark_le m (hmark ▸ hm)).trans hlog, hopen⟩

theorem Asking.refused (h : a.Asking) (hfirst : a.PromptsFirst P c) {u : Upgrade σ} {p : Param}
    (hres : a.toUpgrade.request P (Upgrade.announced c) a.tx.log.length = (false, u)) :
    Asking ⟨u, a.tx, p, a.bleConnState, a.notifyArray⟩ := by
  have hnot : ¬ a.Granted P c := by
    intro hg
    have := (Upgrade.request_granted _ a.tx.log.length rfl).mpr hg
    rw [hres] at this
    cases this
  have hspec := Upgrade.request_spec P (Upgrade.announced c) a.tx.log.length a.toUpgrade
  rw [hres] at hspec
  have hopen : ∀ w, Upgrade.announced c ≤ Upgrade.maxFwLen →
      ∀ m ∈ Upgrade.openSince ({ a.toUpgrade with
        iap := { a.iap with fwLen := Upgrade.announced c }, world := w } : Upgrade σ),
      a.tx.Asked m a.iap.offset := by
    intro w hle m hm
    have hlt : a.iap.offset < Upgrade.announced c := by
      by_contra hge
      simp [Upgrade.openSince, hge] at hm
    have hmark : m ∈ a.mark := by
      simp only [Upgrade.openSince, if_pos hlt] at hm
      exact hm
    have hopen := hfirst.2 hnot (Option.isSome_of_mem hmark) hle hlt
    exact h.asked m (by rwa [Upgrade.openSince, if_pos hopen])
  cases hspec with
  | tooLong => exact h.tx le_rfl rfl fun m hm => absurd hm (by simp [Upgrade.openSince])
  | initFailed hle => exact h.tx le_rfl rfl (hopen _ hle)
  | eraseFailed hle => exact h.tx le_rfl rfl (hopen _ hle)

theorem Asking.accepted (hfirst : a.PromptsFirst P c) {u : Upgrade σ} {p : Param}
    (hres : a.toUpgrade.request P (Upgrade.announced c) a.tx.log.length = (true, u)) :
    Asking ⟨u, a.tx.sendAccepted c u.iap.pageLen, p, a.bleConnState, a.notifyArray⟩ := by
  have hgranted : a.Granted P c :=
    (Upgrade.request_granted _ a.tx.log.length rfl).mp (by rw [hres])
  have hspec := Upgrade.request_spec P (Upgrade.announced c) a.tx.log.length a.toUpgrade
  rw [hres] at hspec
  cases hspec with
  | @accepted w =>
      have hmark : Upgrade.mark ({ a.toUpgrade with
          iap := ⟨1, 0, Upgrade.announced c, 128, 0, 0⟩, world := w,
          hist := a.hist ++ [.accepted (Upgrade.announced c) a.tx.log.length] } : Upgrade σ) =
          some a.tx.log.length := by
        have hlast := sinceLast_concat_some (l := a.hist) (f := UpgObs.requested)
          (a := .accepted (Upgrade.announced c) a.tx.log.length) rfl
        simp only [Upgrade.mark, Upgrade.transfer, hlast, Option.map_some]
      constructor
      · intro m hm
        obtain rfl : a.tx.log.length = m := Option.some.inj (hmark.symm.trans hm)
        exact Pool.sendAccepted_log_le ..
      · intro m hm
        have hpos : 0 < Upgrade.announced c := by
          by_contra hzero
          simp [Upgrade.openSince, hzero] at hm
        have hm' : a.tx.log.length = m := by
          simp only [Upgrade.openSince, if_pos hpos] at hm
          exact Option.some.inj (hmark.symm.trans hm)
        exact hm' ▸ Pool.asked_sendAccepted (hfirst.1 hgranted hpos) c 128

theorem Asking.requested (h : a.Asking) (hsep : a.tx.Separate noHolder)
    (hnext : a.PromptsNext P c) {u : Upgrade σ} {p : Param}
    (hu : u = a.toUpgrade.storePage P (Upgrade.page c) (Upgrade.declared c))
    (hlt : u.iap.offset < u.iap.fwLen) :
    Asking ⟨u, a.tx.sendMarked c (iapReqRequestInfo u.iap.offset), p, a.bleConnState,
      a.notifyArray⟩ := by
  have hmark : u.mark = a.mark := hu ▸ Upgrade.storePage_mark ..
  obtain ⟨hoffset, hlen⟩ := Upgrade.storePage_iap (P := P) a.toUpgrade c
  rw [← hu] at hoffset hlen
  apply h.tx (Pool.sendMarked_log_le ..) hmark
  intro m hm
  have hm' : m ∈ a.mark := by
    simpa only [Upgrade.openSince, if_pos hlt, hmark] using hm
  obtain ⟨hfree, hsn⟩ := hnext (Option.isSome_of_mem hm') (hoffset ▸ hlen ▸ hlt)
  exact Pool.asked_sendMarked hsep (h.mark_le m hm') hfree hsn

/-- No data is missing once the end of the transfer was tried. -/
theorem Asking.finished (h : a.Asking) {v : Pool} (hlog : a.tx.log.length ≤ v.log.length)
    {u u' : Upgrade σ} {p : Param} {good : Bool}
    (hu : u = a.toUpgrade.storePage P (Upgrade.page c) (Upgrade.declared c))
    (hge : ¬ u.iap.offset < u.iap.fwLen) (hfinish : u.finish P = (good, u')) :
    Asking ⟨u', v, p, a.bleConnState, a.notifyArray⟩ := by
  have hu' : u' = (u.finish P).2 := by rw [hfinish]
  have hmark : u.mark = a.mark := hu ▸ Upgrade.storePage_mark ..
  apply h.tx hlog (by rw [hu', Upgrade.finish_mark, hmark])
  intro m hm
  rw [hu', Upgrade.finish_openSince hge] at hm
  cases hm

theorem Parsed.asking (h : Parsed P c a a') (hsep : a.tx.Separate noHolder) (ha : a.Asking)
    (hfirst : accepts cmdUpgRequest c = true → a.PromptsFirst P c)
    (hnext : accepts rspUpgData c = true → a.PromptsNext P c) : a'.Asking := by
  cases h with
  | rejected | relayed | dropped | silent => exact ⟨ha.mark_le, ha.asked⟩
  | answered => exact ha.tx (Pool.send_log_le _ _) rfl fun m hm => (ha.asked m hm).send hsep _
  | refused hreq hres => exact ha.refused (hfirst hreq) hres
  | accepted hreq hres => exact .accepted (hfirst hreq) hres
  | requested hdata hu hlt => exact ha.requested hsep (hnext hdata) hu hlt
  | failed hdata hu hge hfinish => exact ha.finished (Pool.sendMarked_log_le ..) hu hge hfinish
  | installed hdata hu hge hfinish => exact ha.finished le_rfl hu hge hfinish

theorem Moves.asking (h : Moves P a e a') (hsep : a.tx.Separate noHolder) (ha : a.Asking)
    (hprompts : a.Prompts P e) : a'.Asking := by
  cases h with
  | off | withheld => exact ha
  | connState => exact ⟨ha.mark_le, ha.asked⟩
  | tick htick =>
      exact ha.tx (Pool.pollTick_log_le hsep htick) rfl fun m hm =>
        (ha.asked m hm).pollTick hsep htick
  | drive _ hdrives =>
      exact ha.tx (Pool.drives_log_le hdrives) rfl fun m hm => (ha.asked m hm).drives hdrives
  | sent => exact ha.tx (Pool.send_log_le _ _) rfl fun m hm => (ha.asked m hm).send hsep _
  | parse hreb hparsed => exact hparsed.asking hsep ha (hprompts hreb).1 (hprompts hreb).2

theorem Rep.prompts {d : Device Tx σ} (h : Rep d a) : d.Prompts P e ↔ a.Prompts P e := by
  cases e with
  | parse c =>
      obtain ⟨s, hs, rfl⟩ := h
      simp only [Prompts, PromptsFirst, PromptsNext, matched, withTx, SendOps.vars,
        SendOps.freeBufs, SendOps.linkedBufs, hs.vars, hs.freeBufs, hs.linkedBufs]
  | _ => exact Iff.rfl

theorem Rep.askedFor {d : Device Tx σ} (h : Rep d a) (ha : a.Asking) : d.AskedFor := by
  obtain ⟨s, hs, rfl⟩ := h
  intro m hm
  simp only [withTx, SendOps.vars, SendOps.linkedBufs, hs.vars, hs.linkedBufs]
  rcases ha.asked m hm with ⟨b, hb⟩ | hgiven
  · exact .inl ⟨b, hb.linked, hb.asks⟩
  · exact .inr hgiven

end Device

/-! ### Runs -/

/-- As many answers as there are buffers, and then an upgrade request. -/
def fullPool : List DevEvent :=
  List.replicate uartdrvMaxConcurrentTxBufs
    (.parse (Mem.ofList (wireFrame wifiampDevHeader 0 pdttypeBleModule cmdAdvCtrl [0]))) ++
      [.parse (upgRequestFrame 0 100)]

end WifiExpander
