import Mathlib.Data.List.Find
import WifiExpander.Protocol
import WifiExpander.Ownership

/-!
The device: frames are parsed while the other tasks go on.

A frame that `uart_protocol_parse` handles is one event here, and so is each call
that another task makes, each period of the poll task and each step of the send
task. As for `Sys`, everything is written once for both implementations of the
send path, and the code follows the sequences.
-/

namespace WifiExpander

open WifiExpander.Theory

variable {σ τ : Type}

/-! ### Events -/

inductive DevEvent where
  /-- `uart_protocol_parse`, with the memory from `uart_recv_buf` on -/
  | parse (dataP : Mem)
  /-- a period of the poll task -/
  | tick
  /-- the send task enters `OSQPend` -/
  | pend
  | transmit
  /-- the driver reports the end of a transmission -/
  | complete
  /-- the send task's recycle decision -/
  | inspect
  /-- other queues hold this many `OS_MSG` -/
  | otherMsgs (n : Nat)
  /-- `BluetoothEventHandler` sets `ble_conn_state` -/
  | connState (state : UInt8)
  /-- `Ble_Event_Task` reports a connection state -/
  | bleStateNotify (state : UInt8)
  /-- `App_Main_Task` reports an upgrade -/
  | iapDone (done : UInt8)
  /-- a round of `App_Ble_Parse_Task` with a frame in `ble_recv_buf` -/
  | forward (bleRecvBuf : Mem)

namespace Device

section

variable [SendOps τ]

def setVars (d : Device τ σ) (f : SendVars → SendVars) : Device τ σ :=
  { d with tx := SendOps.withVars d.tx (f (SendOps.vars d.tx)) }

/-- The part of `App_Ble_Parse_Task` after `ble_get_data`, which lets no longer
frame through. -/
def appBleParse (bleRecvBuf : Mem) (d : Device τ σ) : Option (Device τ σ) :=
  if hdrLength bleRecvBuf < uartProcotolMaxLen then do
    let (_, tx) ← SendOps.send (.forward bleRecvBuf) d.tx
    some { d with tx }
  else some d

/-- Nothing runs any more once the bootloader has taken over. -/
def step (P : Platform σ) (d : Device τ σ) (e : DevEvent) : Option (Device τ σ) :=
  if d.rebooted then some d
  else
    match e with
    | .parse dataP => uartProtocolParse P dataP d
    | .tick => do
        let tx ← SendOps.pollTick d.tx
        some { d with tx }
    | .pend => some (d.setVars SendVars.osqPend)
    | .transmit => some (d.setVars SendVars.appUsartTransmit)
    | .complete => some (d.setVars SendVars.uartTxCallback)
    | .inspect => do
        let tx ← SendOps.sendInspect d.tx
        some { d with tx }
    | .otherMsgs n => some (d.setVars fun w => w.otherMsgs n)
    | .connState state => some { d with bleConnState := state }
    | .bleStateNotify state => d.bleStateNotify state
    | .iapDone done => d.iapDone done
    | .forward bleRecvBuf => d.appBleParse bleRecvBuf

def machine (τ : Type) [SendOps τ] (P : Platform σ) : Machine (Device τ σ) DevEvent := ⟨step P⟩

end

def emptyRing : ByteRing := ⟨fun _ => 0, 0, 0⟩

/-- The device after its start, with a given send path. -/
def boot (tx : τ) (world : σ) : Device τ σ :=
  ⟨⟨⟨0, 0, 0, 0, 0, 0⟩, world, [], false⟩, tx, ⟨0, fun _ => none⟩, 0, emptyRing⟩

/-- A run of the code from `uart_context_init` on. -/
def runFrom (P : Platform σ) (heap : Heap) (mem : BufId → UartSendFormat) (msgPoolSize : Nat)
    (world : σ) (es : List DevEvent) : Option (Device Tx σ) := do
  let tx ← Tx.uartContextInit heap mem msgPoolSize
  (machine Tx P).run (boot tx world) es

/-- Every event of that run is taken from a state where `ok` holds of it. -/
def GuardedFrom (P : Platform σ) (ok : Device Tx σ → DevEvent → Prop) (heap : Heap)
    (mem : BufId → UartSendFormat) (msgPoolSize : Nat) (world : σ) (es : List DevEvent) : Prop :=
  match Tx.uartContextInit heap mem msgPoolSize with
  | none => True
  | some tx => (machine Tx P).Guarded ok (boot tx world) es

instance (P : Platform σ) (ok : Device Tx σ → DevEvent → Prop) [∀ d e, Decidable (ok d e)]
    (heap : Heap) (mem : BufId → UartSendFormat) (msgPoolSize : Nat) (world : σ)
    (es : List DevEvent) : Decidable (GuardedFrom P ok heap mem msgPoolSize world es) :=
  match hinit : Tx.uartContextInit heap mem msgPoolSize with
  | none => .isTrue (by simp only [GuardedFrom, hinit])
  | some tx =>
      decidable_of_iff ((machine Tx P).Guarded ok (boot tx world) es)
        (by simp only [GuardedFrom, hinit])

end Device

/-! ### One call that sends -/

/-- The same without interruption, on sequences. -/
def Pool.send (c : Call) (v : Pool) : Bool × Pool :=
  match v.free with
  | [] => (false, v)
  | b :: rest => (true, ((v.takeAt c.static b rest).fillAt c b).linkAt b)

/-- No producer has a buffer. -/
abbrev noHolder : BufId → Prop := fun _ => False

namespace Pool

variable {v w : Pool} {b : BufId} {c : Call}

theorem send_nil (h : v.free = []) (c : Call) : v.send c = (false, v) := by
  simp [send, h]

theorem send_cons {rest : List BufId} (h : v.free = b :: rest) (c : Call) :
    v.send c = (true, ((v.takeAt c.static b rest).fillAt c b).linkAt b) := by
  simp only [send, h]

/-- Where no buffer is in two places, a call always goes through. -/
theorem Separate.send_eq (h : v.Separate noHolder) (c : Call) :
    SendOps.send c v = some (v.send c) := by
  cases hfree : v.free with
  | nil => simp [SendOps.send, SendOps.takeBuf, takeBuf_nil hfree, send_nil hfree]
  | cons b rest =>
      have hb : b ∉ v.linked := h.free_linked b (by simp [hfree])
      have hstatic : (v.takeAt c.static b rest).statics c.static = some b := by simp [takeAt]
      have hlink : ((v.takeAt c.static b rest).fillAt c b).linkEntry c.static =
          some (((v.takeAt c.static b rest).fillAt c b).linkAt b) :=
        linkEntry_eq hstatic hb (by simp [fillAt])
      simp only [SendOps.send, SendOps.takeBuf, takeBuf_cons hfree, Option.bind_eq_bind,
        Option.bind_some, fillCall_eq hstatic, send_cons hfree]
      simp only [SendOps.linkEntry, hlink, Option.bind_some]

theorem send_obtained (v : Pool) (c : Call) : (v.send c).1 = !v.free.isEmpty := by
  cases hfree : v.free with
  | nil => rw [send_nil hfree]; rfl
  | cons b rest => rw [send_cons hfree]; rfl

theorem send_free (v : Pool) (c : Call) : (v.send c).2.free = v.free.tail := by
  cases hfree : v.free with
  | nil => rw [send_nil hfree, hfree]; rfl
  | cons b rest => rw [send_cons hfree]; rfl

/-- A call links one entry at most, and behind the others. -/
theorem send_linked (v : Pool) (c : Call) :
    (v.send c).2.linked = v.linked ++ v.free.head?.toList := by
  cases hfree : v.free with
  | nil => simp [send_nil hfree]
  | cons b rest => rw [send_cons hfree]; rfl

theorem send_mem_head {rest : List BufId} (h : v.free = b :: rest) (c : Call) :
    (v.send c).2.mem b = c.fill v.uartSendSn { v.mem b with buf := some b } := by
  rw [send_cons h]
  simp [linkAt, fillAt, takeAt, SendVars.setMem]

/-- A call leaves the buffers that are linked already. -/
theorem Separate.send_mem (h : v.Separate noHolder) (c : Call) (hb : b ∈ v.linked) :
    (v.send c).2.mem b = v.mem b := by
  cases hfree : v.free with
  | nil => rw [send_nil hfree]
  | cons b' rest =>
      have hne : b ≠ b' := fun heq => h.free_linked b' (by simp [hfree]) (heq ▸ hb)
      rw [send_cons hfree]
      simp [linkAt, fillAt, takeAt, SendVars.setMem_mem, hne]

theorem send_log (v : Pool) (c : Call) :
    (v.send c).2.log = v.log ++ v.free.head?.toList.map fun b =>
      .linked b c.pollType (c.fill v.uartSendSn { v.mem b with buf := some b }).frame := by
  cases hfree : v.free with
  | nil => simp [send_nil hfree]
  | cons b rest =>
      rw [send_cons hfree]
      simp [linkAt, SendVars.record, fillAt, takeAt, SendVars.setMem, Call.fill_type]

/-- The entry that a frame answers is looked for among the old entries first. -/
theorem Separate.send_find (h : v.Separate noHolder) (c : Call) (sn cmdId : UInt8) :
    (v.send c).2.linked.find? ((v.send c).2.answeredBy sn cmdId) =
      (v.linked.find? (v.answeredBy sn cmdId)).or
        (v.free.head?.toList.find? ((v.send c).2.answeredBy sn cmdId)) := by
  have hsame : ∀ b ∈ v.linked, (v.send c).2.answeredBy sn cmdId b = v.answeredBy sn cmdId b :=
    fun b hb => by simp only [answeredBy, h.send_mem c hb]
  rw [send_linked, List.find?_append, List.find?_congr hsame]

/-- The rule for one call: what holds of the pool after a take, a fill and a link. -/
theorem Closed.send {Inv : Pool → (BufId → Prop) → Prop}
    {P : SendTask → List BufId → PollVerdict × BufId → Prop} (hc : Closed Inv P)
    (h : Inv v noHolder) (c : Call) : Inv (v.send c).2 noHolder := by
  cases hfree : v.free with
  | nil => simpa [send_nil hfree] using h
  | cons b rest =>
      have hheld : (fun x => (fun y => noHolder y ∨ y = b) x ∧ x ≠ b) = noHolder := by
        funext x
        simp
      have h₁ := hc.take c.static h hfree
      have h₂ := hc.fill c h₁ (.inr rfl)
      have h₃ := hc.link h₂ (.inr rfl)
      rw [send_cons hfree]
      exact hheld ▸ h₃

end Pool

namespace Tx.Rep

variable {s : Tx} {v v' : Pool} {c : Call} {r : Bool}

theorem send (h : s.Rep v) (hv : SendOps.send c v = some (r, v')) :
    ∃ s', SendOps.send c s = some (r, s') ∧ s'.Rep v' := by
  obtain ⟨s₁, htake, h₁⟩ := h.takeBuf c.static
  simp only [SendOps.send, SendOps.takeBuf, Option.bind_eq_bind, Option.bind_some, htake] at hv ⊢
  generalize v.takeBuf c.static = res at hv h₁
  obtain ⟨pBuf, v₁⟩ := res
  cases pBuf with
  | none =>
      obtain ⟨rfl, rfl⟩ : false = r ∧ v₁ = v' := by simpa using hv
      exact ⟨s₁, rfl, h₁⟩
  | some b =>
      obtain ⟨v₂, hfill, hrest⟩ := Option.bind_eq_some_iff.mp hv
      obtain ⟨v₃, hlink, hend⟩ := Option.bind_eq_some_iff.mp hrest
      obtain ⟨rfl, rfl⟩ : true = r ∧ v₃ = v' := by simpa using hend
      obtain ⟨s₂, hfill', h₂⟩ := h₁.fillCall hfill
      obtain ⟨s₃, hlink', h₃⟩ := h₂.linkEntry hlink
      refine ⟨s₃, ?_, h₃⟩
      simp only [hfill', Option.bind_some,
        show SendOps.linkEntry c.static s₂ = some s₃ from hlink']

end Tx.Rep

/-! ### The code follows the sequences -/

namespace Device

/-- The same device with another send path. -/
def withTx {τ' : Type} (d : Device τ σ) (tx : τ') : Device τ' σ :=
  ⟨d.toUpgrade, tx, d.param, d.bleConnState, d.notifyArray⟩

/-- The code's device `d` implements the device `a` over sequences. -/
def Rep (d : Device Tx σ) (a : Device Pool σ) : Prop := ∃ s, Tx.Rep s a.tx ∧ d = a.withTx s

@[simp] theorem withUpgrade_toUpgrade (d : Device τ σ) (u : Upgrade σ) :
    (d.withUpgrade u).toUpgrade = u := rfl

@[simp] theorem withUpgrade_tx (d : Device τ σ) (u : Upgrade σ) : (d.withUpgrade u).tx = d.tx := rfl

@[simp] theorem withUpgrade_param (d : Device τ σ) (u : Upgrade σ) :
    (d.withUpgrade u).param = d.param := rfl

/-- A part of the code does what the same part does over sequences. -/
def Follows (f : Device Tx σ → Option (Device Tx σ)) (g : Device Pool σ → Option (Device Pool σ)) :
    Prop :=
  ∀ d a a', Rep d a → g a = some a' → ∃ d', f d = some d' ∧ Rep d' a'

variable {P : Platform σ} {c : Mem}

theorem follows_dispose (info : SendInfo) :
    Follows (σ := σ) (dispose info) (dispose info) := by
  rintro _ a a' ⟨s, hs, rfl⟩ h
  obtain ⟨⟨r, v⟩, hsend, hend⟩ := Option.bind_eq_some_iff.mp h
  obtain ⟨⟨r', v'⟩, hsend', hres⟩ := Option.bind_eq_some_iff.mp hsend
  obtain ⟨s', hs', hrep⟩ := hs.send hsend'
  cases hres
  cases hend
  refine ⟨a.withTx s', ?_, s', hrep, rfl⟩
  simp only [dispose, uartProtocolDispose, withTx, hs', Option.bind_eq_bind, Option.bind_some]

theorem follows_answer (cmdId : UInt8) (ans : List UInt8) {d : Device Tx σ} {a a' : Device Pool σ}
    {r : Bool} (h : Rep d a) (ha : a.answer cmdId c ans = some (r, a')) :
    ∃ d', d.answer cmdId c ans = some (r, d') ∧ Rep d' a' := by
  obtain ⟨s, hs, rfl⟩ := h
  obtain ⟨⟨r', v⟩, hsend, hend⟩ := Option.bind_eq_some_iff.mp ha
  obtain ⟨s', hs', hrep⟩ := hs.send hsend
  cases hend
  refine ⟨a.withTx s', ?_, s', hrep, rfl⟩
  simp only [answer, withTx, hs', Option.bind_eq_bind, Option.bind_some]

theorem Rep.withUpgrade {d : Device Tx σ} {a : Device Pool σ} (h : Rep d a) (u : Upgrade σ) :
    Rep (d.withUpgrade u) (a.withUpgrade u) := by
  obtain ⟨s, hs, rfl⟩ := h
  exact ⟨s, hs, rfl⟩

theorem Rep.upgrade {d : Device Tx σ} {a : Device Pool σ} (h : Rep d a) :
    d.toUpgrade = a.toUpgrade := by
  obtain ⟨s, -, rfl⟩ := h
  rfl

theorem Rep.param {d : Device Tx σ} {a : Device Pool σ} (h : Rep d a) : d.param = a.param := by
  obtain ⟨s, -, rfl⟩ := h
  rfl

theorem Rep.vars {d : Device Tx σ} {a : Device Pool σ} (h : Rep d a) :
    SendOps.vars d.tx = SendOps.vars a.tx := by
  obtain ⟨s, hs, rfl⟩ := h
  exact hs.vars

theorem follows_moduleHandShakeRsp :
    Follows (moduleHandShakeRsp P c) (moduleHandShakeRsp P c) := by
  intro d a a' h ha
  obtain ⟨⟨r, a₁⟩, hans, hend⟩ := Option.bind_eq_some_iff.mp ha
  cases hend
  have hconn : d.bleConnState = a.bleConnState := by
    obtain ⟨s, -, rfl⟩ := h
    rfl
  obtain ⟨d₁, hans', h₁⟩ := follows_answer _ _ h hans
  refine ⟨if r then d₁.withUpgrade (d₁.toUpgrade.withWorld (P.mibleGapAddressGet d.world).2)
    else d₁, ?_, ?_⟩
  · simp only [moduleHandShakeRsp, h.upgrade, hconn, hans', Option.bind_eq_bind, Option.bind_some]
  · rw [h₁.upgrade, h.upgrade]
    split
    · exact h₁.withUpgrade _
    · exact h₁

theorem follows_advCtrlRsp : Follows (advCtrlRsp P c) (advCtrlRsp P c) := by
  intro d a a' h ha
  obtain ⟨ctrl, hctrl, hrest⟩ := Option.bind_eq_some_iff.mp ha
  obtain ⟨⟨r, a₁⟩, hans, hend⟩ := Option.bind_eq_some_iff.mp hrest
  cases hend
  have h' : Rep
      (if ctrl = 1 then d.withUpgrade (d.toUpgrade.withWorld (P.mibleGapAdvStart d.world)) else d)
      (if ctrl = 1 then a.withUpgrade (a.toUpgrade.withWorld (P.mibleGapAdvStart a.world))
        else a) := by
    rw [h.upgrade]
    split
    · exact h.withUpgrade _
    · exact h
  obtain ⟨d₁, hans', h₁⟩ := follows_answer _ _ h' hans
  refine ⟨d₁, ?_, h₁⟩
  simp only [advCtrlRsp, h.param, hctrl, hans', Option.bind_eq_bind, Option.bind_some]

theorem follows_setAdvDataRsp : Follows (setAdvDataRsp P c) (setAdvDataRsp P c) := by
  intro d a a' h ha
  obtain ⟨conf, hconf, hrest⟩ := Option.bind_eq_some_iff.mp ha
  obtain ⟨mac, hmac, hrest'⟩ := Option.bind_eq_some_iff.mp hrest
  obtain ⟨resp, hresp, -⟩ := Option.bind_eq_some_iff.mp hrest'
  simp only [setAdvDataRsp, h.param, hconf, hmac, hresp, Option.bind_eq_bind, Option.bind_some,
    h.upgrade] at ha ⊢
  generalize a.toUpgrade.call (advertisingInit P conf c resp mac) = res at ha ⊢
  by_cases hres : res.1 ≠ 0
  · rw [if_pos hres] at ha ⊢
    cases ha
    exact ⟨_, rfl, h.withUpgrade _⟩
  · rw [if_neg hres] at ha ⊢
    obtain ⟨⟨r, a₁⟩, hans, hend⟩ := Option.bind_eq_some_iff.mp ha
    cases hend
    obtain ⟨d₁, hans', h₁⟩ := follows_answer _ _ (h.withUpgrade res.2) hans
    exact ⟨d₁, by rw [hans', Option.bind_some], h₁⟩

theorem follows_upgRequestRsp : Follows (upgRequestRsp P c) (upgRequestRsp P c) := by
  intro d a a' h ha
  obtain ⟨fwLen, hlen, -⟩ := Option.bind_eq_some_iff.mp ha
  simp only [upgRequestRsp, h.param, hlen, Option.bind_eq_bind, Option.bind_some, h.upgrade,
    h.vars] at ha ⊢
  generalize a.toUpgrade.request P fwLen (SendOps.vars a.tx).log.length = res at ha ⊢
  by_cases hres : res.1 = true
  · rw [if_pos hres] at ha ⊢
    obtain ⟨⟨r, a₁⟩, hans, hend⟩ := Option.bind_eq_some_iff.mp ha
    obtain ⟨d₁, hans', h₁⟩ := follows_answer _ _ (h.withUpgrade res.2) hans
    simp only [hans', Option.bind_some]
    cases r with
    | false => cases hend; exact ⟨d₁, rfl, h₁⟩
    | true => exact follows_dispose _ d₁ a₁ a' h₁ hend
  · rw [if_neg hres] at ha ⊢
    cases ha
    exact ⟨_, rfl, h.withUpgrade _⟩

theorem follows_upgDataRsp : Follows (upgDataRsp P c) (upgDataRsp P c) := by
  intro d a a' h ha
  obtain ⟨cur, hcur, -⟩ := Option.bind_eq_some_iff.mp ha
  simp only [upgDataRsp, h.param, hcur, Option.bind_eq_bind, Option.bind_some, h.upgrade] at ha ⊢
  generalize a.toUpgrade.storePage P (Upgrade.page c) cur = u at ha ⊢
  by_cases hlt : u.iap.offset < u.iap.fwLen
  · rw [if_pos hlt] at ha ⊢
    exact follows_dispose _ _ _ _ (h.withUpgrade u) ha
  · rw [if_neg hlt] at ha ⊢
    by_cases hgood : (u.finish P).1 = true
    · rw [if_pos hgood] at ha ⊢
      cases ha
      exact ⟨_, rfl, h.withUpgrade _⟩
    · rw [if_neg hgood] at ha ⊢
      exact follows_dispose _ _ _ _ (h.withUpgrade _) ha

/-- The rows of the table over sequences and of the code's table are the same. -/
theorem uartCmd_cases (c : Mem) :
    (uartCmd (τ := Tx) (σ := σ) c = none ∧ uartCmd (τ := Pool) (σ := σ) c = none) ∨
      ∃ (r : UartCmd Tx σ) (r' : UartCmd Pool σ), uartCmd c = some r ∧ uartCmd c = some r' ∧
        r.ackword = r'.ackword ∧ r.argvlist = r'.argvlist ∧
        ∀ P, Follows (r.callback P c) (r'.callback P c) := by
  unfold uartCmd
  split
  · simp only [uartCmdList, List.find?_cons, List.find?_nil]
    cases decide (hdrCmdId c = cmdModuleHandShake) with
    | true => exact .inr ⟨_, _, rfl, rfl, rfl, rfl, fun P => follows_moduleHandShakeRsp⟩
    | false =>
    cases decide (hdrCmdId c = cmdAdvCtrl) with
    | true => exact .inr ⟨_, _, rfl, rfl, rfl, rfl, fun P => follows_advCtrlRsp⟩
    | false =>
    cases decide (hdrCmdId c = cmdSetAdvData) with
    | true => exact .inr ⟨_, _, rfl, rfl, rfl, rfl, fun P => follows_setAdvDataRsp⟩
    | false =>
    cases decide (hdrCmdId c = cmdUpgRequest) with
    | true => exact .inr ⟨_, _, rfl, rfl, rfl, rfl, fun P => follows_upgRequestRsp⟩
    | false =>
    cases decide (hdrCmdId c = rspUpgData) with
    | true => exact .inr ⟨_, _, rfl, rfl, rfl, rfl, fun P => follows_upgDataRsp⟩
    | false => exact .inl ⟨rfl, rfl⟩
  · exact .inl ⟨rfl, rfl⟩

theorem follows_uartProtocolParse : Follows (uartProtocolParse P c) (uartProtocolParse P c) := by
  intro d a a' h ha
  unfold uartProtocolParse at ha ⊢
  by_cases hcheck : procotolCheck c = false
  · rw [if_pos hcheck] at ha ⊢
    cases ha
    exact ⟨d, rfl, h⟩
  rw [if_neg hcheck] at ha ⊢
  obtain ⟨s, hs, rfl⟩ := h
  rcases uartCmd_cases (σ := σ) c with ⟨hx, ha'⟩ | ⟨r, r', hx, ha', hack, hargs, hfollows⟩
  · simp only [hx, ha'] at ha ⊢
    by_cases hconn : a.bleConnState = 1
    · rw [if_pos hconn] at ha
      cases ha
      exact ⟨_, if_pos hconn, s, hs, rfl⟩
    · rw [if_neg hconn] at ha
      cases ha
      exact ⟨_, if_neg hconn, s, hs, rfl⟩
  · simp only [hx, ha'] at ha ⊢
    obtain ⟨a₁, hcall, hrest⟩ := Option.bind_eq_some_iff.mp ha
    have h₀ : Rep { a.withTx s with param := argsParam dataOff r.argvlist a.param }
        { a with param := argsParam dataOff r'.argvlist a.param } := ⟨s, hs, by rw [hargs]; rfl⟩
    obtain ⟨d₁, hcall', s₁, hs₁, rfl⟩ := hfollows P _ _ _ h₀ hcall
    simp only [show (a.withTx s).param = a.param from rfl, hcall', Option.bind_eq_bind,
      Option.bind_some, hack]
    by_cases hreb : a₁.rebooted = true
    · rw [if_pos hreb] at hrest
      cases hrest
      exact ⟨_, if_pos hreb, s₁, hs₁, rfl⟩
    rw [if_neg hreb] at hrest
    rw [if_neg (show ¬ (a₁.withTx s₁).rebooted = true from hreb)]
    by_cases hzero : r'.ackword ≠ 0
    · rw [if_pos hzero] at hrest ⊢
      cases hrest
      exact ⟨_, rfl, s₁, hs₁, rfl⟩
    · rw [if_neg hzero] at hrest ⊢
      cases hrest
      obtain ⟨s₂, hmark, hs₂⟩ := hs₁.markAnswered (hdrSn c) (hdrCmdId c)
      refine ⟨_, ?_, s₂, hs₂, rfl⟩
      simp only [show SendOps.markAnswered (hdrSn c) (hdrCmdId c) (a₁.withTx s₁).tx = some s₂ from
        hmark, Option.bind_some]
      rfl

theorem Rep.setVars {d : Device Tx σ} {a : Device Pool σ} (h : Rep d a) {f : SendVars → SendVars}
    (hf : ∀ w, (f w).mem = w.mem) : Rep (d.setVars f) (a.setVars f) := by
  obtain ⟨s, hs, rfl⟩ := h
  refine ⟨_, ?_, rfl⟩
  have hrep := hs.withVars (w := f a.tx.toSendVars) fun b hb => by rw [hf]; exact hb
  simp only [SendOps.vars, SendOps.withVars, withTx, hs.vars]
  exact hrep

/-- Every step over sequences is a step of the code. -/
theorem Rep.step {d : Device Tx σ} {a a' : Device Pool σ} {e : DevEvent} (h : Rep d a)
    (ha : a.step P e = some a') : ∃ d', d.step P e = some d' ∧ Rep d' a' := by
  have hvars : ∀ {f : SendVars → SendVars}, (∀ w, (f w).mem = w.mem) →
      Rep (d.setVars f) (a.setVars f) := h.setVars
  obtain ⟨s, hs, rfl⟩ := h
  unfold Device.step at ha ⊢
  by_cases hreb : a.rebooted = true
  · rw [if_pos hreb] at ha
    cases ha
    exact ⟨_, if_pos hreb, s, hs, rfl⟩
  rw [if_neg hreb] at ha
  simp only [show (a.withTx s).rebooted = a.rebooted from rfl, if_neg hreb]
  cases e with
  | parse dataP => exact follows_uartProtocolParse _ _ _ ⟨s, hs, rfl⟩ ha
  | tick =>
      obtain ⟨v, htick, hend⟩ := Option.bind_eq_some_iff.mp ha
      cases hend
      obtain ⟨s', htick', hs'⟩ := hs.pollTick htick
      refine ⟨a.withTx s', ?_, s', hs', rfl⟩
      simp only [show SendOps.pollTick (a.withTx s).tx = some s' from htick', Option.bind_eq_bind,
        Option.bind_some]
      rfl
  | inspect =>
      obtain ⟨v, hinspect, hend⟩ := Option.bind_eq_some_iff.mp ha
      cases hend
      obtain ⟨s', hinspect', hs'⟩ := hs.sendInspect hinspect
      refine ⟨a.withTx s', ?_, s', hs', rfl⟩
      simp only [show SendOps.sendInspect (a.withTx s).tx = some s' from hinspect',
        Option.bind_eq_bind, Option.bind_some]
      rfl
  | pend => cases ha; exact ⟨_, rfl, hvars fun w => w.osqPend_mem⟩
  | transmit => cases ha; exact ⟨_, rfl, hvars fun w => w.appUsartTransmit_mem⟩
  | complete => cases ha; exact ⟨_, rfl, hvars fun w => w.uartTxCallback_mem⟩
  | otherMsgs n => cases ha; exact ⟨_, rfl, hvars fun w => w.otherMsgs_mem n⟩
  | connState state => cases ha; exact ⟨_, rfl, s, hs, rfl⟩
  | bleStateNotify state => exact follows_dispose _ _ _ _ ⟨s, hs, rfl⟩ ha
  | iapDone done => exact follows_dispose _ _ _ _ ⟨s, hs, rfl⟩ ha
  | forward bleRecvBuf =>
      simp only [appBleParse] at ha ⊢
      by_cases hlen : hdrLength bleRecvBuf < uartProcotolMaxLen
      · rw [if_pos hlen] at ha ⊢
        obtain ⟨⟨r, v⟩, hsend, hend⟩ := Option.bind_eq_some_iff.mp ha
        cases hend
        obtain ⟨s', hsend', hs'⟩ := hs.send hsend
        refine ⟨a.withTx s', ?_, s', hs', rfl⟩
        simp only [withTx, hsend', Option.bind_eq_bind, Option.bind_some]
      · rw [if_neg hlen] at ha ⊢
        cases ha
        exact ⟨_, rfl, s, hs, rfl⟩

end Device

end WifiExpander
