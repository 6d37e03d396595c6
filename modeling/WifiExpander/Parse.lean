import WifiExpander.Upgrade

/-!
What a parsed frame does, and runs of the device.

`Parsed` lists everything that `uart_protocol_parse` can do when no buffer is in
two places; the statements about whole runs derive their invariants from it, and
`Device.run_keeps` carries them from the sequences to the code.
-/

namespace WifiExpander

open WifiExpander.Theory

variable {σ τ : Type}

/-- The frame is for the module itself and its command is in `uart_cmd_list`. -/
def ownCommand (c : Mem) : Bool :=
  toModule c && [cmdModuleHandShake, cmdAdvCtrl, cmdSetAdvData, cmdUpgRequest, rspUpgData].contains
    (hdrCmdId c)

theorem uartCmd_eq_none [SendOps τ] {c : Mem} :
    uartCmd (τ := τ) (σ := σ) c = none ↔ ownCommand c = false := by
  unfold uartCmd ownCommand
  cases toModule c <;> simp [uartCmdList]

theorem ownCommand_of_accepts {cmd : UInt8} {c : Mem} (h : accepts cmd c = true)
    (hcmd : cmd = cmdUpgRequest ∨ cmd = rspUpgData) : ownCommand c = true := by
  simp only [accepts, Bool.and_eq_true, beq_iff_eq] at h
  simp only [ownCommand, h.1.2, h.2, Bool.true_and]
  rcases hcmd with rfl | rfl <;> decide

namespace Pool

theorem Separate.send {v : Pool} (h : v.Separate noHolder) (c : Call) :
    (v.send c).2.Separate noHolder := Separate.closed.send h c

/-- What every visit of a period preserves holds after it. -/
theorem Separate.pollTick (Inv : Pool → Prop) {v w : Pool}
    (visit : ∀ (u : Pool) b u', u.Separate noHolder → Inv u → b ∈ u.linked →
      u.pollStep (pollVerdict (u.mem b).poll, b) = some u' → Inv u')
    (h : v.Separate noHolder) (hv : Inv v) (htick : v.pollTick = some w) : Inv w := by
  obtain ⟨w', hw', -, hinv⟩ := pollTick_rule (fun u => u.Separate noHolder ∧ Inv u)
    (fun _ _ _ => True)
    (by
      intro u l b r hu hl _ _
      have hb : b ∈ u.linked := by simp [hl]
      obtain ⟨u', hstep, hsep⟩ := hu.1.pollStep hb (pollVerdict (u.mem b).poll)
      exact ⟨u', hstep, hsep, visit u b u' hu.1 hu.2 hb hstep⟩)
    (fun _ hu => hu.1.linked_nodup) (fun _ _ => trivial) ⟨h, hv⟩
  rw [htick] at hw'
  exact Option.some.inj hw' ▸ hinv

/-- The answer to an accepted request, and the first request for data. -/
def sendAccepted (c : Mem) (pageLen : UInt32) (v : Pool) : Pool :=
  let (obtained, v) := v.send (.ask askUpgRequest c (wordBytes pageLen))
  if obtained then (v.send (.dispose (iapReqRequestInfo 0))).2 else v

/-- What is sent after a data frame, and the entry it answers is marked. -/
def sendMarked (c : Mem) (info : SendInfo) (v : Pool) : Pool :=
  (v.send (.dispose info)).2.markAnswered (hdrSn c) rspUpgData

end Pool

namespace Device

/-- What `uart_protocol_parse` does with the frame at `c`. -/
inductive Parsed (P : Platform σ) (c : Mem) (a : Device Pool σ) : Device Pool σ → Prop where
  | rejected : procotolCheck c = false → Parsed P c a a
  | relayed : procotolCheck c = true → ownCommand c = false → a.bleConnState = 1 →
      Parsed P c a { a with notifyArray := a.notifyArray.pushAll (frameBytes c) }
  | dropped : procotolCheck c = true → ownCommand c = false → a.bleConnState ≠ 1 → Parsed P c a a
  | silent {w : σ} {p : Param} : ownCommand c = true → accepts cmdUpgRequest c = false →
      accepts rspUpgData c = false → P.Aside a.world w →
      Parsed P c a ⟨a.toUpgrade.withWorld w, a.tx, p, a.bleConnState, a.notifyArray⟩
  | answered {w : σ} {p : Param} {cmdId : UInt8} {ans : List UInt8} : ownCommand c = true →
      accepts cmdUpgRequest c = false → accepts rspUpgData c = false → P.Aside a.world w →
      cmdId ≠ rspUpgData → ans.length < uartProcotolMaxLen →
      Parsed P c a ⟨a.toUpgrade.withWorld w, (a.tx.send (.ask cmdId c ans)).2, p, a.bleConnState,
        a.notifyArray⟩
  | refused {u : Upgrade σ} {p : Param} : accepts cmdUpgRequest c = true →
      a.toUpgrade.request P (Upgrade.announced c) a.tx.log.length = (false, u) →
      Parsed P c a ⟨u, a.tx, p, a.bleConnState, a.notifyArray⟩
  | accepted {u : Upgrade σ} {p : Param} : accepts cmdUpgRequest c = true →
      a.toUpgrade.request P (Upgrade.announced c) a.tx.log.length = (true, u) →
      Parsed P c a ⟨u, a.tx.sendAccepted c u.iap.pageLen, p, a.bleConnState, a.notifyArray⟩
  | requested {u : Upgrade σ} {p : Param} : accepts rspUpgData c = true →
      u = a.toUpgrade.storePage P (Upgrade.page c) (Upgrade.declared c) →
      u.iap.offset < u.iap.fwLen →
      Parsed P c a ⟨u, a.tx.sendMarked c (iapReqRequestInfo u.iap.offset), p, a.bleConnState,
        a.notifyArray⟩
  | failed {u u' : Upgrade σ} {p : Param} : accepts rspUpgData c = true →
      u = a.toUpgrade.storePage P (Upgrade.page c) (Upgrade.declared c) →
      ¬ u.iap.offset < u.iap.fwLen → u.finish P = (false, u') →
      Parsed P c a ⟨u', a.tx.sendMarked c (iapDoneInfo 1), p, a.bleConnState, a.notifyArray⟩
  | installed {u u' : Upgrade σ} {p : Param} : accepts rspUpgData c = true →
      u = a.toUpgrade.storePage P (Upgrade.page c) (Upgrade.declared c) →
      ¬ u.iap.offset < u.iap.fwLen → u.finish P = (true, u') →
      Parsed P c a ⟨u', a.tx, p, a.bleConnState, a.notifyArray⟩

variable {P : Platform σ} {c : Mem} {a : Device Pool σ}

theorem answer_eq (h : a.tx.Separate noHolder) (cmdId : UInt8) (ans : List UInt8) :
    a.answer cmdId c ans = some ((a.tx.send (.ask cmdId c ans)).1,
      ⟨a.toUpgrade, (a.tx.send (.ask cmdId c ans)).2, a.param, a.bleConnState, a.notifyArray⟩) := by
  simp only [answer, h.send_eq, Option.bind_eq_bind, Option.bind_some]

theorem dispose_eq (h : a.tx.Separate noHolder) (info : SendInfo) :
    a.dispose info = some ⟨a.toUpgrade, (a.tx.send (.dispose info)).2, a.param, a.bleConnState,
      a.notifyArray⟩ := by
  simp only [dispose, uartProtocolDispose, h.send_eq, Option.bind_eq_bind, Option.bind_some]

/-- A frame for a row of the table, whose handler does not install. -/
theorem uartProtocolParse_of_row {r : UartCmd Pool σ} {a' : Device Pool σ}
    (hcheck : procotolCheck c = true) (hrow : uartCmd c = some r)
    (hcall : r.callback P c { a with param := argsParam dataOff r.argvlist a.param } = some a') :
    uartProtocolParse P c a = some
      (if a'.rebooted = true ∨ r.ackword ≠ 0 then a'
      else { a' with tx := a'.tx.markAnswered (hdrSn c) (hdrCmdId c) }) := by
  simp only [uartProtocolParse, hcheck, Bool.true_eq_false, if_false, hrow, hcall,
    Option.bind_eq_bind, Option.bind_some]
  by_cases hreb : a'.rebooted = true
  · rw [if_pos hreb, if_pos (.inl hreb)]
  · rw [if_neg hreb]
    by_cases hack : r.ackword ≠ 0
    · rw [if_pos hack, if_pos (.inr hack)]
    · rw [if_neg hack, if_neg (by simp [hreb, hack])]
      rfl

/-! ### The handlers -/

section

variable (h : a.tx.Separate noHolder) (hown : ownCommand c = true)
  (hreq : accepts cmdUpgRequest c = false) (hdata : accepts rspUpgData c = false)

include h hown hreq hdata

theorem moduleHandShakeRsp_spec (p : Param) :
    ∃ a', moduleHandShakeRsp P c { a with param := p } = some a' ∧ Parsed P c a a' := by
  have hans : 13 < uartProcotolMaxLen := by decide
  simp only [moduleHandShakeRsp,
    answer_eq (a := { a with param := p }) h, Option.bind_eq_bind, Option.bind_some]
  cases hsend : (a.tx.send (.ask askModuleHandShake c
      (hwVer ++ fwVer ++ [(P.mibleGapAddressGet a.world).1 5, (P.mibleGapAddressGet a.world).1 4,
        (P.mibleGapAddressGet a.world).1 3, (P.mibleGapAddressGet a.world).1 2,
        (P.mibleGapAddressGet a.world).1 1, (P.mibleGapAddressGet a.world).1 0] ++
        [a.bleConnState]))).1 with
  | false => exact ⟨_, rfl, .answered hown hreq hdata .refl (by decide) hans⟩
  | true => exact ⟨_, rfl, .answered hown hreq hdata (.address .refl) (by decide) hans⟩

theorem advCtrlRsp_spec (p : Param) :
    ∃ a', advCtrlRsp P c { a with param := argsParam dataOff (some [1, 0]) p } = some a' ∧
      Parsed P c a a' := by
  have hans : 1 < uartProcotolMaxLen := by decide
  have hctrl : (argsParam dataOff (some [1, 0]) p).byte c 0 0 = some (c (dataOff + 0)) := rfl
  simp only [advCtrlRsp, hctrl, Option.bind_eq_bind, Option.bind_some]
  by_cases hone : c (dataOff + 0) = 1
  · rw [if_pos hone, answer_eq (by exact h)]
    exact ⟨_, rfl, .answered hown hreq hdata (.advStart .refl) (by decide) hans⟩
  · rw [if_neg hone, answer_eq (by exact h)]
    exact ⟨_, rfl, .answered hown hreq hdata .refl (by decide) hans⟩

theorem setAdvDataRsp_spec (p : Param) :
    ∃ a', setAdvDataRsp P c { a with param := argsParam dataOff (some [1, 6, 1, 0]) p } = some a' ∧
      Parsed P c a a' := by
  have hans : 1 < uartProcotolMaxLen := by decide
  have hconf : (argsParam dataOff (some [1, 6, 1, 0]) p).byte c 0 0 = some (c (dataOff + 0)) := rfl
  have hmac : (argsParam dataOff (some [1, 6, 1, 0]) p).argv 1 = some (dataOff + 1) := rfl
  have hresp : (argsParam dataOff (some [1, 6, 1, 0]) p).argv 2 = some (dataOff + 1 + 6) := rfl
  simp only [setAdvDataRsp, hconf, hmac, hresp, Option.bind_eq_bind, Option.bind_some]
  have haside := Platform.Aside.advertisingInit (P := P) (c (dataOff + 0)) c (dataOff + 1 + 6)
    (dataOff + 1) a.world
  by_cases hfail : (a.toUpgrade.call (advertisingInit P (c (dataOff + 0)) c (dataOff + 1 + 6)
      (dataOff + 1))).1 ≠ 0
  · exact ⟨_, if_pos hfail, .silent hown hreq hdata haside⟩
  · rw [if_neg hfail, answer_eq (by exact h)]
    exact ⟨_, rfl, .answered hown hreq hdata haside (by decide) hans⟩

end

theorem upgRequestRsp_spec (h : a.tx.Separate noHolder) (hreq : accepts cmdUpgRequest c = true) :
    ∃ a', upgRequestRsp P c { a with param := argsParam dataOff (some [3, 1, 0]) a.param } =
      some a' ∧ Parsed P c a a' := by
  have hlen := argsParam_upgRequest (c := c) a.param
  rcases hres : a.toUpgrade.request P (Upgrade.announced c) a.tx.log.length with ⟨accepted, u⟩
  simp only [upgRequestRsp, hlen, Option.bind_eq_bind, Option.bind_some, SendOps.vars, hres]
  cases accepted with
  | false => exact ⟨_, rfl, .refused hreq hres⟩
  | true =>
      rw [if_pos rfl, answer_eq (by exact h), Option.bind_some]
      dsimp only
      have hparsed := Parsed.accepted (p := argsParam dataOff (some [3, 1, 0]) a.param) hreq hres
      unfold Pool.sendAccepted at hparsed
      have hsep := h.send (.ask askUpgRequest c (wordBytes u.iap.pageLen))
      rcases hsend : a.tx.send (.ask askUpgRequest c (wordBytes u.iap.pageLen)) with ⟨obtained, v⟩
      simp only [hsend, withUpgrade_tx] at hparsed hsep ⊢
      cases obtained with
      | false => exact ⟨_, rfl, hparsed⟩
      | true => exact ⟨_, dispose_eq (by exact hsep) _, hparsed⟩

theorem storePage_rebooted (pg : Upgrade.Page) (cur : UInt32) (u : Upgrade σ) :
    (u.storePage P pg cur).rebooted = u.rebooted := by
  have hspec := Upgrade.storePage_spec P pg cur u
  generalize u.storePage P pg cur = u' at hspec
  cases hspec <;> rfl

theorem upgDataRsp_spec (h : a.tx.Separate noHolder) (hreb : a.rebooted = false)
    (hdata : accepts rspUpgData c = true) :
    ∃ a₁, upgDataRsp P c { a with param := argsParam dataOff (some [4, 1, 0]) a.param } =
      some a₁ ∧ Parsed P c a (if a₁.rebooted = true ∨ (0 : UInt8) ≠ 0 then a₁
      else { a₁ with tx := a₁.tx.markAnswered (hdrSn c) (hdrCmdId c) }) := by
  have hcur := argsParam_upgData (c := c) a.param
  have hcmd : hdrCmdId c = rspUpgData := by
    simp only [accepts, Bool.and_eq_true, beq_iff_eq] at hdata
    exact hdata.2
  have hkeeps := storePage_rebooted (P := P) (Upgrade.page c) (Upgrade.declared c) a.toUpgrade
  simp only [upgDataRsp, hcur, Option.bind_eq_bind, Option.bind_some]
  generalize hu : a.toUpgrade.storePage P (Upgrade.page c) (Upgrade.declared c) = u at hkeeps
  rw [hreb] at hkeeps
  by_cases hlt : u.iap.offset < u.iap.fwLen
  · simp only [if_pos hlt, iapReqRequest]
    refine ⟨_, dispose_eq (by exact h) _, ?_⟩
    rw [if_neg (by simp [hkeeps]), hcmd]
    exact .requested hdata hu.symm hlt
  · rw [if_neg hlt]
    rcases hfinish : u.finish P with ⟨good, u'⟩
    have hspec := Upgrade.finish_spec P u
    rw [hfinish] at hspec
    cases good with
    | true =>
        cases hspec
        refine ⟨_, rfl, ?_⟩
        rw [if_pos (by simp)]
        exact .installed hdata hu.symm hlt hfinish
    | false =>
        cases hspec
        refine ⟨_, dispose_eq (by exact h) _, ?_⟩
        rw [if_neg (by simpa [Upgrade.withWorld] using hkeeps), hcmd]
        exact .failed hdata hu.symm hlt hfinish

/-- **A frame can always be parsed, and does what `Parsed` says.** -/
theorem uartProtocolParse_spec (h : a.tx.Separate noHolder) (hreb : a.rebooted = false) :
    ∃ a', uartProtocolParse P c a = some a' ∧ Parsed P c a a' := by
  cases hcheck : procotolCheck c with
  | false => exact ⟨a, by simp [uartProtocolParse, hcheck], .rejected hcheck⟩
  | true =>
  cases hrow : uartCmd (τ := Pool) (σ := σ) c with
  | none =>
      have hown := uartCmd_eq_none.mp hrow
      by_cases hconn : a.bleConnState = 1
      · exact ⟨_, by simp [uartProtocolParse, hcheck, hrow, hconn], .relayed hcheck hown hconn⟩
      · exact ⟨_, by simp [uartProtocolParse, hcheck, hrow, hconn], .dropped hcheck hown hconn⟩
  | some r =>
      have hown : ownCommand c = true := by
        by_contra hnot
        rw [uartCmd_eq_none.mpr (Bool.not_eq_true _ ▸ hnot)] at hrow
        cases hrow
      obtain ⟨hto, hword, hmem⟩ := uartCmd_cases' hrow
      have haccepts : ∀ cmd, accepts cmd c = decide (r.cmdword = cmd) := by
        intro cmd
        simp only [accepts, hcheck, hto, hword, Bool.true_and]
        rfl
      -- an answer is never matched to an entry of the list
      have hrow' : ∀ a', r.ackword ≠ 0 →
          r.callback P c { a with param := argsParam dataOff r.argvlist a.param } = some a' →
          uartProtocolParse P c a = some a' := by
        intro a' hack hcall
        rw [uartProtocolParse_of_row hcheck hrow hcall, if_pos (.inr hack)]
      simp only [uartCmdList, List.mem_cons, List.not_mem_nil, or_false] at hmem
      rcases hmem with rfl | rfl | rfl | rfl | rfl
      · obtain ⟨a', hcall, hparsed⟩ := moduleHandShakeRsp_spec (P := P) (c := c) h hown
          (haccepts _) (haccepts _) (argsParam dataOff (some [1, 0]) a.param)
        exact ⟨a', hrow' a' (show askModuleHandShake ≠ 0 by decide) hcall, hparsed⟩
      · obtain ⟨a', hcall, hparsed⟩ := advCtrlRsp_spec (P := P) (c := c) h hown
          (haccepts _) (haccepts _) a.param
        exact ⟨a', hrow' a' (show askAdvCtrl ≠ 0 by decide) hcall, hparsed⟩
      · obtain ⟨a', hcall, hparsed⟩ := setAdvDataRsp_spec (P := P) (c := c) h hown
          (haccepts _) (haccepts _) a.param
        exact ⟨a', hrow' a' (show askSetAdvData ≠ 0 by decide) hcall, hparsed⟩
      · obtain ⟨a', hcall, hparsed⟩ := upgRequestRsp_spec (P := P) h (haccepts cmdUpgRequest)
        exact ⟨a', hrow' a' (show askUpgRequest ≠ 0 by decide) hcall, hparsed⟩
      · obtain ⟨a₁, hcall, hparsed⟩ := upgDataRsp_spec (P := P) h hreb (haccepts rspUpgData)
        exact ⟨_, uartProtocolParse_of_row hcheck hrow hcall, hparsed⟩

/-! ### Steps -/

/-- A step of the send task or the driver: it leaves the send list and the
buffers on it alone, and logs nothing but transmissions. -/
structure Drives (v w : Pool) : Prop where
  linked : w.linked = v.linked
  mem : ∀ b ∈ v.linked, w.mem b = v.mem b
  log : ∃ l, w.log = v.log ++ l ∧ ∀ o ∈ l, ∃ b type f, o = .transmitted b type f

/-- What a step can do. -/
inductive Moves (P : Platform σ) (a : Device Pool σ) : DevEvent → Device Pool σ → Prop where
  | off {e : DevEvent} : a.rebooted = true → Moves P a e a
  | parse {c : Mem} {a' : Device Pool σ} : a.rebooted = false → Parsed P c a a' →
      Moves P a (.parse c) a'
  | tick {v : Pool} : a.tx.pollTick = some v → Moves P a .tick { a with tx := v }
  | drive {e : DevEvent} {v : Pool} : (∀ c, e ≠ .parse c) → Drives a.tx v →
      Moves P a e { a with tx := v }
  | connState {state : UInt8} : Moves P a (.connState state) { a with bleConnState := state }
  | sent {e : DevEvent} {call : Call} : (∀ c, e ≠ .parse c) → call.pollType = 0 →
      Moves P a e { a with tx := (a.tx.send call).2 }
  | withheld {c : Mem} : Moves P a (.forward c) a

/-- What the send task is about to recycle is neither free nor linked. -/
def InspectFresh [SendOps τ] (d : Device τ σ) : DevEvent → Prop
  | .inspect => ∀ b, (SendOps.vars d.tx).sendTask = .inspecting b →
      ((SendOps.vars d.tx).mem b).poll.freeFlag ≠ 0 →
      ((SendOps.vars d.tx).mem b).poll.type = 0 →
      b ∉ SendOps.freeBufs d.tx ∧ b ∉ SendOps.linkedBufs d.tx
  | _ => True

instance [SendOps τ] (d : Device τ σ) : ∀ e, Decidable (d.InspectFresh e)
  | .inspect => inferInstanceAs (Decidable (∀ _, _ → _))
  | .parse _ | .tick | .pend | .transmit | .complete | .otherMsgs _ | .connState _
  | .bleStateNotify _ | .iapDone _ | .forward _ => isTrue trivial

theorem drives_osqPend (v : Pool) : Drives v (v.withVars v.osqPend) := by
  refine ⟨rfl, fun b _ => by rw [Pool.withVars_vars, SendVars.osqPend_mem], [], ?_, by simp⟩
  unfold SendVars.osqPend
  split <;> (try split) <;> simp

theorem drives_appUsartTransmit (v : Pool) : Drives v (v.withVars v.appUsartTransmit) := by
  refine ⟨rfl, fun b _ => by rw [Pool.withVars_vars, SendVars.appUsartTransmit_mem], ?_⟩
  unfold SendVars.appUsartTransmit
  split
  · exact ⟨[_], rfl, by simp⟩
  · exact ⟨[], by simp, by simp⟩

theorem drives_uartTxCallback (v : Pool) : Drives v (v.withVars v.uartTxCallback) := by
  refine ⟨rfl, fun b _ => by rw [Pool.withVars_vars, SendVars.uartTxCallback_mem], [], ?_, by simp⟩
  unfold SendVars.uartTxCallback
  split <;> simp

theorem drives_otherMsgs (v : Pool) (n : Nat) : Drives v (v.withVars (v.otherMsgs n)) := by
  refine ⟨rfl, fun b _ => by rw [Pool.withVars_vars, SendVars.otherMsgs_mem], [], ?_, by simp⟩
  unfold SendVars.otherMsgs
  split <;> simp

theorem drives_sendInspect {v w : Pool} (hfresh : v.Fresh noHolder) (h : v.sendInspect = some w) :
    Drives v w := by
  have hsame : Pool.SameProducers (· ∈ v.linked) v w := .sendInspect h fun b htask hflag htype =>
    (hfresh b htask hflag htype).2.1
  obtain ⟨b, -, -, -, -, rfl⟩ | ⟨b, -, -, rfl⟩ | rfl := Pool.sendInspect_cases h
  · exact ⟨rfl, hsame.mem, [], (List.append_nil v.log).symm, by simp⟩
  · exact ⟨rfl, hsame.mem, [], by simp, by simp⟩
  · exact ⟨rfl, fun _ _ => rfl, [], by simp, by simp⟩

theorem Parsed.separate {a' : Device Pool σ} (hparsed : Parsed P c a a')
    (h : a.tx.Separate noHolder) : a'.tx.Separate noHolder := by
  cases hparsed with
  | rejected | relayed | dropped | silent | refused | installed => exact h
  | answered => exact h.send _
  | accepted =>
      unfold Pool.sendAccepted
      dsimp only
      split
      · exact (h.send _).send _
      · exact h.send _
  | requested | failed => exact Pool.Separate.closed.answer _ (h.send _)

/-- **Progress.** A step from a state where no buffer is in two places. -/
theorem step_spec (h : a.tx.Separate noHolder) {e : DevEvent} (hfresh : a.InspectFresh e) :
    ∃ a', a.step P e = some a' ∧ Moves P a e a' ∧ a'.tx.Separate noHolder := by
  unfold step
  by_cases hreb : a.rebooted = true
  · exact ⟨a, if_pos hreb, .off hreb, h⟩
  rw [if_neg hreb]
  cases e with
  | parse c =>
      have hreb' : a.rebooted = false := by simpa using hreb
      obtain ⟨a', hparse, hparsed⟩ := uartProtocolParse_spec (P := P) (c := c) h hreb'
      exact ⟨a', hparse, .parse hreb' hparsed, hparsed.separate h⟩
  | tick =>
      obtain ⟨v, htick, hv⟩ := Pool.Separate.closed.pollTick h fun _ _ => trivial
      refine ⟨{ a with tx := v }, ?_, .tick htick, hv⟩
      simp only [SendOps.pollTick, htick, Option.bind_eq_bind, Option.bind_some]
  | inspect =>
      have hfresh' : a.tx.Fresh noHolder := by
        intro b htask hflag htype
        obtain ⟨hfree, hlinked⟩ := hfresh b htask hflag htype
        exact ⟨hfree, hlinked, id⟩
      obtain ⟨v, hinspect⟩ := Pool.Fresh.sendInspect noHolder hfresh'
      refine ⟨{ a with tx := v }, ?_, .drive (by simp) (drives_sendInspect hfresh' hinspect),
        Pool.Separate.closed.inspect h hfresh' hinspect⟩
      simp only [SendOps.sendInspect, hinspect, Option.bind_eq_bind, Option.bind_some]
  | pend => exact ⟨_, rfl, .drive (by simp) (drives_osqPend _), h.congr rfl rfl⟩
  | transmit => exact ⟨_, rfl, .drive (by simp) (drives_appUsartTransmit _), h.congr rfl rfl⟩
  | complete => exact ⟨_, rfl, .drive (by simp) (drives_uartTxCallback _), h.congr rfl rfl⟩
  | otherMsgs n => exact ⟨_, rfl, .drive (by simp) (drives_otherMsgs _ n), h.congr rfl rfl⟩
  | connState state => exact ⟨_, rfl, .connState, h⟩
  | bleStateNotify state =>
      exact ⟨_, dispose_eq h _, .sent (by simp) (by rfl), h.send _⟩
  | iapDone done => exact ⟨_, dispose_eq h _, .sent (by simp) (by rfl), h.send _⟩
  | forward bleRecvBuf =>
      simp only [appBleParse]
      split
      · simp only [h.send_eq, Option.bind_eq_bind, Option.bind_some]
        exact ⟨_, rfl, .sent (by simp) (by rfl), h.send _⟩
      · exact ⟨_, rfl, .withheld, h⟩

/-! ### Runs -/

theorem Rep.inspectFresh {d : Device Tx σ} (h : Rep d a) {e : DevEvent} :
    d.InspectFresh e ↔ a.InspectFresh e := by
  obtain ⟨s, hs, rfl⟩ := h
  cases e with
  | inspect => simp only [InspectFresh, withTx, SendOps.vars, hs.vars, SendOps.freeBufs,
      hs.freeBufs, SendOps.linkedBufs, hs.linkedBufs]
  | _ => exact Iff.rfl

/-- **Every step of the code can be taken** where the send task's recycle
decision keeps the buffers apart, and does what `Moves` says. -/
theorem Rep.moves {d : Device Tx σ} (h : Rep d a) (hsep : a.tx.Separate noHolder) {e : DevEvent}
    (hfresh : d.InspectFresh e) :
    ∃ d' a', d.step P e = some d' ∧ Rep d' a' ∧ Moves P a e a' ∧ a'.tx.Separate noHolder := by
  obtain ⟨a', hstep, hmoves, hsep'⟩ := step_spec (P := P) hsep (h.inspectFresh.mp hfresh)
  obtain ⟨d', hstep', hrep⟩ := h.step hstep
  exact ⟨d', a', hstep', hrep, hmoves, hsep'⟩

/-- The code's device implements one over sequences that no buffer is in twice
and that satisfies `Inv`. -/
def Sound (Inv : Device Pool σ → Prop) (d : Device Tx σ) : Prop :=
  ∃ a, Rep d a ∧ a.tx.Separate noHolder ∧ Inv a

/-- The code's start is the start over sequences. -/
theorem sound_boot (Inv : Device Pool σ → Prop) (heap : Heap) (mem : BufId → UartSendFormat)
    (msgPoolSize : Nat) (world : σ) (hinv : Inv (boot (Pool.boot mem msgPoolSize) world)) :
    ∃ tx, Tx.uartContextInit heap mem msgPoolSize = some tx ∧ Sound Inv (boot tx world) := by
  obtain ⟨tx, htx, hrep⟩ := uartContextInit_spec heap mem msgPoolSize
  exact ⟨tx, htx, _, ⟨tx, hrep, rfl⟩, Pool.Separate.boot mem msgPoolSize, hinv⟩

theorem Sound.step {d : Device Tx σ} {e : DevEvent} (h : d.Sound fun _ => True)
    (hfresh : d.InspectFresh e) : ∃ d', d.step P e = some d' ∧ d'.Sound fun _ => True := by
  obtain ⟨a, hrep, hsep, -⟩ := h
  obtain ⟨d', a', hstep, hrep', -, hsep'⟩ := hrep.moves (P := P) hsep hfresh
  exact ⟨d', hstep, a', hrep', hsep', trivial⟩

theorem sound_runFrom {heap : Heap} {mem : BufId → UartSendFormat} {msgPoolSize : Nat} {world : σ}
    {es : List DevEvent}
    (fresh : GuardedFrom P (fun d e => d.InspectFresh e) heap mem msgPoolSize world es) :
    ∃ d, runFrom P heap mem msgPoolSize world es = some d ∧ d.Sound fun _ => True := by
  obtain ⟨tx, htx, hboot⟩ := sound_boot (fun _ => True) heap mem msgPoolSize world trivial
  simp only [GuardedFrom, htx] at fresh
  obtain ⟨d, hrun, hsound⟩ := Machine.run_progress (M := machine Tx P) (Sound fun _ => True)
    (fun _ _ h hfresh => h.step hfresh) hboot fresh
  refine ⟨d, ?_, hsound⟩
  simp only [runFrom, htx, Option.bind_eq_bind, Option.bind_some, hrun]

end Device

end WifiExpander
