import WifiExpander.Parse

/-!
Requests for firmware data.

A request stays on the send list until it is answered or has been posted three
times. The handler of a data frame runs before the frame is matched to an entry,
and asks again also when it rejects the data, so a duplicate answer leaves one
more request without an answer. `outstanding` counts these requests, `stray` says
which frames can add to them, and the count exceeds one by at most the number of
stray frames.
-/

namespace WifiExpander

open WifiExpander.Theory

variable {σ τ : Type}

/-- The buffer holds a `REQ_UPG_DATA` that is not marked answered. -/
def SendVars.unanswered (w : SendVars) (b : BufId) : Bool :=
  (w.mem b).poll.type = 1 ∧ hdrCmdId (w.mem b).cmd = reqUpgData ∧ (w.mem b).poll.freeFlag = 0

section

variable [SendOps τ]

/-- The entries of the send list that are such requests. -/
def outstanding (s : τ) : Nat := (SendOps.linkedBufs s).countP (SendOps.vars s).unanswered

/-- The entry that `uart_protocol_parse` marks for the data frame at `c`. -/
def matched (s : τ) (c : Mem) : Option BufId :=
  (SendOps.linkedBufs s).find? fun b =>
    hdrSn c = hdrSn ((SendOps.vars s).mem b).cmd ∧
      rspUpgData = hdrCmdId ((SendOps.vars s).mem b).cmd

/-- While a request is outstanding, a data frame that does not answer one, or an
upgrade request that erases the slot. -/
def Device.stray (P : Platform σ) (d : Device τ σ) : DevEvent → Bool
  | .parse c => outstanding d.tx ≠ 0 ∧
      (accepts rspUpgData c = true ∧ (matched d.tx c).any (SendOps.vars d.tx).unanswered = false ∨
        accepts cmdUpgRequest c = true ∧
          (d.toUpgrade.request P (Upgrade.announced c) (SendOps.vars d.tx).log.length).1 = true)
  | _ => false

end

/-- The requests that have been linked; no other entry has type 1. -/
def issued (log : List Obs) : Nat :=
  log.countP fun
    | .linked _ type _ => type = 1
    | _ => false

/-- A frame that the handlers of the firmware transfer see. -/
def ofTransfer (c : Mem) : Bool := accepts cmdUpgRequest c || accepts rspUpgData c

namespace Pool

variable {v w : Pool} {b c : BufId} {k : PollVerdict}

theorem outstanding_eq (v : Pool) : outstanding v = v.linked.countP v.unanswered := rfl

theorem unanswered_congr (h : w.mem b = v.mem b) : w.unanswered b = v.unanswered b := by
  simp only [SendVars.unanswered, h]

/-- Fewer entries, none of them newly a request without an answer. -/
theorem outstanding_le (hsub : w.linked.Sublist v.linked)
    (hsame : ∀ b ∈ w.linked, w.unanswered b = true → v.unanswered b = true) :
    outstanding w ≤ outstanding v :=
  (List.countP_mono_left hsame).trans hsub.countP_le

/-! ### The poll task -/

theorem pollStep_sublist (h : v.pollStep (k, b) = some w) : w.linked.Sublist v.linked := by
  cases k with
  | skip => cases h; exact .refl _
  | answered | expired => obtain ⟨-, rfl⟩ := recycle_eq h; exact List.erase_sublist
  | release => obtain rfl := Option.some.inj h; exact List.erase_sublist
  | wait | first | again => obtain rfl := Option.some.inj h; exact .refl _

/-- A visit neither makes nor answers a request. -/
theorem pollStep_unanswered (h : v.pollStep (k, b) = some w) (hnd : v.linked.Nodup)
    (hc : c ∈ w.linked) : w.unanswered c = v.unanswered c := by
  by_cases hcb : c = b
  · subst hcb
    cases k with
    | skip => cases h; rfl
    | answered | expired =>
        obtain ⟨-, rfl⟩ := recycle_eq h
        exact absurd hc hnd.not_mem_erase
    | release =>
        obtain rfl := Option.some.inj h
        exact absurd hc hnd.not_mem_erase
    | wait | first | again =>
        obtain rfl := Option.some.inj h
        simp [SendVars.unanswered, SendVars.setPoll_poll]
  · exact unanswered_congr (pollStep_mem h hcb)

theorem pollTick_outstanding (hsep : v.Separate noHolder) (h : v.pollTick = some w) :
    outstanding w ≤ outstanding v := by
  refine hsep.pollTick (fun u => outstanding u ≤ outstanding v) ?_ le_rfl h
  intro u b u' hu hle _ hstep
  refine le_trans (outstanding_le (pollStep_sublist hstep) fun c hc hun => ?_) hle
  rwa [pollStep_unanswered hstep hu.linked_nodup hc] at hun

theorem drives_outstanding (h : Device.Drives v w) : outstanding w ≤ outstanding v := by
  apply outstanding_le (h.linked ▸ .refl _)
  intro b hb hun
  rwa [unanswered_congr (h.mem b (h.linked ▸ hb))] at hun

/-! ### Calls that send -/

theorem send_outstanding (hsep : v.Separate noHolder) (call : Call) :
    outstanding (v.send call).2 ≤ outstanding v + call.pollType := by
  have hsame : v.linked.countP (v.send call).2.unanswered = outstanding v :=
    List.countP_congr fun b hb => by rw [unanswered_congr (hsep.send_mem call hb)]; rfl
  rw [outstanding_eq, send_linked, List.countP_append, hsame]
  cases hfree : v.free with
  | nil => exact Nat.le_add_right _ _
  | cons b rest =>
      rw [List.head?_cons, Option.toList_some, List.countP_singleton]
      by_cases hun : (v.send call).2.unanswered b = true
      · have hone : ((v.send call).2.mem b).poll.type = 1 := (of_decide_eq_true hun).1
        rw [send_mem_head hfree, Call.fill_type] at hone
        rw [if_pos hun, hone]
      · rw [if_neg hun]
        omega

theorem issued_append (log : List Obs) (b : BufId) (type : Nat) (f : List UInt8) :
    issued (log ++ [.linked b type f]) ≤ issued log + type := by
  simp only [issued, List.countP_append, List.countP_singleton]
  split
  · rename_i hone
    rw [of_decide_eq_true hone]
  · exact Nat.le_add_right _ _

theorem send_issued (v : Pool) (call : Call) :
    issued (v.send call).2.log ≤ issued v.log + call.pollType := by
  rw [send_log]
  cases v.free.head? with
  | none => exact (List.append_nil v.log).symm ▸ Nat.le_add_right _ _
  | some b => exact issued_append ..

@[simp] theorem markAnswered_log (sn cmdId : UInt8) : (v.markAnswered sn cmdId).log = v.log := by
  unfold markAnswered
  split <;> rfl

/-! ### Answers -/

theorem markAnswered_le (sn cmdId : UInt8) :
    outstanding (v.markAnswered sn cmdId) ≤ outstanding v := by
  unfold markAnswered
  split
  · refine outstanding_le (.refl _) ?_
    intro c _ hun
    simp only [SendVars.unanswered, withVars_vars, SendVars.setPoll_poll, SendVars.setPoll_cmd,
      decide_eq_true_eq] at hun ⊢
    split at hun
    · cases hun.2.2
    · exact hun
  · exact le_rfl

/-- Marking a request leaves one less without an answer. -/
theorem markAnswered_lt {sn cmdId : UInt8} (hfind : v.linked.find? (v.answeredBy sn cmdId) = some b)
    (hun : v.unanswered b = true) : outstanding (v.markAnswered sn cmdId) + 1 ≤ outstanding v := by
  have hb : b ∈ v.linked := List.mem_of_find?_eq_some hfind
  have hperm := List.perm_cons_erase hb
  simp only [markAnswered, hfind]
  set w := v.withVars (v.setPoll b { (v.mem b).poll with freeFlag := 1 }) with hw
  have hmarked : ¬ w.unanswered b = true := by
    simp [hw, SendVars.unanswered, SendVars.setPoll_poll]
  have hrest : (v.linked.erase b).countP w.unanswered ≤ (v.linked.erase b).countP v.unanswered := by
    apply List.countP_mono_left
    intro c _ hc
    have hne : c ≠ b := fun h => hmarked (h ▸ hc)
    have hmem : w.mem c = v.mem c := by simp [hw, SendVars.setPoll, SendVars.setMem_mem, hne]
    rwa [unanswered_congr hmem] at hc
  calc outstanding w + 1
      = (b :: v.linked.erase b).countP w.unanswered + 1 :=
        congrArg (· + 1) (hperm.countP_eq w.unanswered)
    _ ≤ (b :: v.linked.erase b).countP v.unanswered := by
        rw [List.countP_cons_of_neg hmarked, List.countP_cons_of_pos hun]
        omega
    _ = outstanding v := (hperm.countP_eq v.unanswered).symm

end Pool

/-! ### Steps -/

namespace Device

variable {P : Platform σ} {a a' : Device Pool σ} {e : DevEvent} {c : Mem}

/-- After a data frame one request more is outstanding at most, and none more if
the frame answers one. -/
theorem sendMarked_outstanding (hsep : a.tx.Separate noHolder) {info : SendInfo}
    (hpoll : info.pollType ≤ 1) (hdata : accepts rspUpgData c = true) :
    outstanding (a.tx.sendMarked c info) ≤
      max 1 (outstanding a.tx + (a.stray P (.parse c)).toNat) := by
  have hsend := Pool.send_outstanding hsep (.dispose info)
  have hmark : outstanding (a.tx.sendMarked c info) ≤ outstanding (a.tx.send (.dispose info)).2 :=
    Pool.markAnswered_le _ _
  have hcall : (Call.dispose info).pollType ≤ 1 := hpoll
  by_cases hnone : outstanding a.tx = 0
  · omega
  by_cases hstray : a.stray P (.parse c) = true
  · rw [hstray, Bool.toNat_true]
    omega
  · have hanswers : (matched a.tx c).any (SendOps.vars a.tx).unanswered = true := by
      by_contra hnot
      exact hstray (by simp [stray, hnone, hdata, Bool.not_eq_true _ ▸ hnot])
    obtain ⟨b, hfind, hun⟩ : ∃ b, matched a.tx c = some b ∧ a.tx.unanswered b = true := by
      cases hm : matched a.tx c with
      | none => simp [hm] at hanswers
      | some b => exact ⟨b, rfl, by rwa [hm] at hanswers⟩
    have hfind' := hsep.send_find (.dispose info) (hdrSn c) rspUpgData
    rw [show a.tx.linked.find? (a.tx.answeredBy (hdrSn c) rspUpgData) = some b from hfind,
      Option.some_or] at hfind'
    have hun' : (a.tx.send (.dispose info)).2.unanswered b = true := by
      rwa [Pool.unanswered_congr (hsep.send_mem _ (List.mem_of_find?_eq_some hfind))]
    have hlt := Pool.markAnswered_lt hfind' hun'
    unfold Pool.sendMarked
    omega

/-- The request that follows the answer to an accepted upgrade request. -/
theorem sendAccepted_outstanding {u : Upgrade σ} (hsep : a.tx.Separate noHolder)
    (hreq : accepts cmdUpgRequest c = true)
    (hres : a.toUpgrade.request P (Upgrade.announced c) a.tx.log.length = (true, u)) :
    outstanding (a.tx.sendAccepted c u.iap.pageLen) ≤
      max 1 (outstanding a.tx + (a.stray P (.parse c)).toNat) := by
  have hanswer := Pool.send_outstanding hsep (.ask askUpgRequest c (wordBytes u.iap.pageLen))
  have hrequest := Pool.send_outstanding
    (hsep.send (.ask askUpgRequest c (wordBytes u.iap.pageLen))) (.dispose (iapReqRequestInfo 0))
  have hzero : (Call.ask askUpgRequest c (wordBytes u.iap.pageLen)).pollType = 0 := rfl
  have hone : (Call.dispose (iapReqRequestInfo 0)).pollType = 1 := rfl
  have hstray : outstanding a.tx ≠ 0 → a.stray P (.parse c) = true := by
    intro hne
    simp [stray, hne, hreq, SendOps.vars, hres]
  have hle : outstanding (a.tx.sendAccepted c u.iap.pageLen) ≤ outstanding a.tx + 1 := by
    unfold Pool.sendAccepted
    dsimp only
    split <;> omega
  by_cases hnone : outstanding a.tx = 0
  · omega
  · rw [hstray hnone, Bool.toNat_true]
    omega

/-- **One step.** A stray frame adds one request at most, and every other step
leaves one at most where it does not leave fewer. -/
theorem Moves.outstanding_le (h : Moves P a e a') (hsep : a.tx.Separate noHolder) :
    outstanding a'.tx ≤ max 1 (outstanding a.tx + (a.stray P e).toNat) := by
  have hfewer : ∀ {n}, n ≤ outstanding a.tx →
      n ≤ max 1 (outstanding a.tx + (a.stray P e).toNat) := fun hle => by omega
  cases h with
  | off | connState | withheld => exact hfewer le_rfl
  | tick htick => exact hfewer (Pool.pollTick_outstanding hsep htick)
  | drive _ hdrives => exact hfewer (Pool.drives_outstanding hdrives)
  | @sent _ call _ hpoll =>
      have hsend := Pool.send_outstanding hsep call
      rw [hpoll] at hsend
      exact hfewer hsend
  | parse hreb hparsed =>
      cases hparsed with
      | rejected | relayed | dropped | silent | refused | installed => exact hfewer le_rfl
      | answered => exact hfewer (Pool.send_outstanding hsep (.ask _ _ _))
      | accepted hreq hres => exact sendAccepted_outstanding hsep hreq hres
      | requested hdata => exact sendMarked_outstanding hsep le_rfl hdata
      | failed hdata => exact sendMarked_outstanding hsep (Nat.zero_le 1) hdata

/-- **A parsed frame issues one request at most**, and only in a transfer. -/
theorem Parsed.issued_le (h : Parsed P c a a') :
    issued a'.tx.log ≤ issued a.tx.log + (ofTransfer c).toNat := by
  cases h with
  | rejected | relayed | dropped | silent | refused | installed => exact Nat.le_add_right _ _
  | answered => exact (Pool.send_issued a.tx (.ask _ _ _)).trans (Nat.le_add_right _ _)
  | @accepted u _ hreq hres =>
      have hanswer := Pool.send_issued a.tx (.ask askUpgRequest c (wordBytes u.iap.pageLen))
      have hrequest := Pool.send_issued
        (a.tx.send (.ask askUpgRequest c (wordBytes u.iap.pageLen))).2
        (.dispose (iapReqRequestInfo 0))
      have hzero : (Call.ask askUpgRequest c (wordBytes u.iap.pageLen)).pollType = 0 := rfl
      have hone : (Call.dispose (iapReqRequestInfo 0)).pollType = 1 := rfl
      have hof : (ofTransfer c).toNat = 1 := by simp [ofTransfer, hreq]
      change issued (a.tx.sendAccepted c u.iap.pageLen).log ≤ _
      unfold Pool.sendAccepted
      dsimp only
      split <;> omega
  | @requested u _ hdata =>
      have hof : (ofTransfer c).toNat = 1 := by simp [ofTransfer, hdata]
      rw [hof]
      change issued (Pool.markAnswered _ _ _).log ≤ _
      rw [Pool.markAnswered_log]
      exact Pool.send_issued a.tx (.dispose (iapReqRequestInfo u.iap.offset))
  | failed hdata =>
      change issued (Pool.markAnswered _ _ _).log ≤ _
      rw [Pool.markAnswered_log]
      exact (Pool.send_issued a.tx (.dispose (iapDoneInfo 1))).trans (Nat.le_add_right _ _)

theorem Rep.outstanding {d : Device Tx σ} (h : Rep d a) : outstanding d.tx = outstanding a.tx := by
  obtain ⟨s, hs, rfl⟩ := h
  simp only [WifiExpander.outstanding, withTx, SendOps.vars, SendOps.linkedBufs, hs.vars,
    hs.linkedBufs]

theorem Rep.log {d : Device Tx σ} (h : Rep d a) : d.tx.log = a.tx.log :=
  congrArg SendVars.log h.vars

theorem Rep.stray {d : Device Tx σ} (h : Rep d a) (e : DevEvent) : d.stray P e = a.stray P e := by
  cases e with
  | parse c =>
      have hout := h.outstanding
      obtain ⟨s, hs, rfl⟩ := h
      simp only [Device.stray, hout]
      simp only [matched, withTx, SendOps.vars, SendOps.linkedBufs, hs.vars, hs.linkedBufs]
  | _ => rfl

/-- The stray frames of a run of the code. -/
def straysFrom (P : Platform σ) (heap : Heap) (mem : BufId → UartSendFormat) (msgPoolSize : Nat)
    (world : σ) (es : List DevEvent) : Nat :=
  match Tx.uartContextInit heap mem msgPoolSize with
  | none => 0
  | some tx => (machine Tx P).tally (stray P) (boot tx world) es

end Device

/-! ### Runs -/

/-- Where the send task recycles no buffer that is free or linked, **one request
more than there were stray frames is outstanding at most**, and no parsed frame
issues more than one. -/
theorem outstanding_bounded (P : Platform σ) (heap : Heap) (mem : BufId → UartSendFormat)
    (msgPoolSize : Nat) (world : σ) (es : List DevEvent)
    (guarded : Device.GuardedFrom P (fun d e => d.InspectFresh e) heap mem msgPoolSize world es) :
    ∃ d, Device.runFrom P heap mem msgPoolSize world es = some d ∧
      outstanding d.tx ≤ 1 + Device.straysFrom P heap mem msgPoolSize world es ∧
      ∀ c, ∃ d', d.step P (.parse c) = some d' ∧
        issued d'.tx.log ≤ issued d.tx.log + (ofTransfer c).toNat := by
  obtain ⟨tx, htx, hboot⟩ := Device.sound_boot (fun a : Device Pool σ => outstanding a.tx = 0) heap
    mem msgPoolSize world rfl
  obtain ⟨a, hrep, hsep, hzero⟩ := hboot
  have hstart : outstanding tx = 0 := hrep.outstanding.trans hzero
  simp only [Device.GuardedFrom, htx] at guarded
  simp only [Device.runFrom, Device.straysFrom, htx, Option.bind_eq_bind, Option.bind_some]
  have hprogress : ∀ (d : Device Tx σ) e, Device.Sound (fun _ => True) d → d.InspectFresh e →
      ∃ d', d.step P e = some d' ∧ Device.Sound (fun _ => True) d' ∧
        outstanding d'.tx ≤ max 1 (outstanding d.tx + (d.stray P e).toNat) := by
    rintro d e ⟨a, hrep, hsep, -⟩ hfresh
    obtain ⟨d', a', hstep, hrep', hmoves, hsep'⟩ := hrep.moves (P := P) hsep hfresh
    refine ⟨d', hstep, ⟨a', hrep', hsep', trivial⟩, ?_⟩
    rw [hrep.outstanding, hrep'.outstanding, hrep.stray]
    exact hmoves.outstanding_le hsep
  obtain ⟨d, hrun, ⟨a, hrep, hsep, -⟩, hle⟩ := Machine.run_tally (M := Device.machine Tx P)
    (f := fun d => outstanding d.tx) (Device.Sound fun _ => True) hprogress
    ⟨a, hrep, hsep, trivial⟩ guarded
  refine ⟨d, hrun, ?_, ?_⟩
  · have hboot : outstanding (Device.boot tx world : Device Tx σ).tx = 0 := hstart
    omega
  · intro c
    obtain ⟨d', a', hstep, hrep', hmoves, -⟩ := hrep.moves (P := P) (e := .parse c) hsep trivial
    refine ⟨d', hstep, ?_⟩
    rw [hrep.log, hrep'.log]
    cases hmoves with
    | off => exact Nat.le_add_right _ _
    | parse _ hparsed => exact hparsed.issued_le
    | drive hne | sent hne => exact absurd rfl (hne c)

/-- A round of the send task for a buffer that has been posted. -/
def sendRound : List DevEvent := [.transmit, .complete, .inspect, .pend]

/-- A request is posted, and posted again after half a second. -/
def requestedTwice : List DevEvent :=
  [.parse (upgRequestFrame 0 100), .pend, .tick] ++ sendRound ++ [.tick] ++ sendRound ++
    List.replicate 100 .tick ++ sendRound

/-- The host answers both. -/
def answeredTwice : List DevEvent :=
  requestedTwice ++ [.parse (upgDataFrame 0 0 [1]), .parse (upgDataFrame 0 0 [1])]

theorem outstanding_bounded_answeredTwice :
    ∃ d, Device.runFrom compliantPlatform Sys.blankHeap Sys.blankMem 0 () answeredTwice = some d ∧
      outstanding d.tx ≤ 1 +
        Device.straysFrom compliantPlatform Sys.blankHeap Sys.blankMem 0 () answeredTwice ∧
      ∀ c, ∃ d', d.step compliantPlatform (.parse c) = some d' ∧
        issued d'.tx.log ≤ issued d.tx.log + (ofTransfer c).toNat :=
  outstanding_bounded _ _ _ _ _ _ (by decide +kernel)

/-- The second answer to a request that was posted twice makes the module ask again
while a request is outstanding. -/
theorem duplicate_answer_asks_again :
    ¬ ∀ (P : Platform Unit) heap mem msgPoolSize world es d,
      Device.GuardedFrom P (fun d e => d.InspectFresh e) heap mem msgPoolSize world es →
      Device.runFrom P heap mem msgPoolSize world es = some d → outstanding d.tx ≤ 1 := by
  intro h
  obtain ⟨d, hrun, htwo⟩ := Device.exists_run compliantPlatform () answeredTwice
    (fun d => outstanding d.tx = 2) (by decide +kernel)
  have hone := h _ _ _ _ _ _ d (by decide +kernel) hrun
  rw [of_decide_eq_true htwo] at hone
  exact absurd hone (by decide)

end WifiExpander
