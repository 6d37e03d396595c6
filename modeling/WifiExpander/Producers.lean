import WifiExpander.SendQueue

/-!
The tasks that send, and every interleaving of their steps.

A call that sends can be suspended between taking its buffer, filling it through
the static pointer of its kind and linking the entry. `Sys.step` interleaves such
calls with the periods of the poll task, the steps of the send task and the
marking of answers. It is written once for any implementation of the send path;
`Tx` is the code and `Pool` the sequences it implements.

An event that its task is not ready for changes nothing, so a run fails only
where the code itself does.
-/

namespace WifiExpander

open WifiExpander.Theory

/-! ### Implementations of the send path -/

class SendOps (σ : Type) where
  vars : σ → SendVars
  withVars : σ → SendVars → σ
  freeBufs : σ → List BufId
  linkedBufs : σ → List BufId
  takeBuf : Static → σ → Option (Option BufId × σ)
  fillBuf : Static → (UartSendFormat → UartSendFormat) → σ → Option σ
  fillDispose : SendInfo → σ → Option σ
  linkEntry : Static → σ → Option σ
  pollTick : σ → Option σ
  sendInspect : σ → Option σ
  markAnswered : UInt8 → UInt8 → σ → Option σ

instance : SendOps Tx where
  vars := Tx.toSendVars
  withVars := Tx.withVars
  freeBufs := Tx.freeBufs
  linkedBufs := Tx.linkedBufs
  takeBuf := Tx.takeBuf
  fillBuf := Tx.fillBuf
  fillDispose := Tx.fillDispose
  linkEntry := Tx.linkEntry
  pollTick := Tx.pollTick
  sendInspect := Tx.sendInspect
  markAnswered := Tx.markAnswered

instance : SendOps Pool where
  vars := Pool.toSendVars
  withVars := Pool.withVars
  freeBufs := Pool.free
  linkedBufs := Pool.linked
  takeBuf := fun x v => some (v.takeBuf x)
  fillBuf := Pool.fillBuf
  fillDispose := Pool.fillDispose
  linkEntry := Pool.linkEntry
  pollTick := Pool.pollTick
  sendInspect := Pool.sendInspect
  markAnswered := fun sn cmdId v => some (v.markAnswered sn cmdId)

/-! ### Calls and tasks -/

/-- A call that sends one frame. -/
inductive Call where
  /-- `uart_protocol_dispose(&info)` -/
  | dispose (info : SendInfo)
  /-- the part of a handler that answers the request `req` -/
  | ask (cmdId : UInt8) (req : Mem) (ans : List UInt8)
  /-- one round of `App_Ble_Parse_Task` with a frame in `ble_recv_buf` -/
  | forward (bleRecvBuf : Mem)

inductive Task where
  /-- `Ble_Event_Task` -/
  | bleEvent
  /-- `App_Ble_Parse_Task` -/
  | bleParse
  /-- `App_Uart_Parse_Task` -/
  | uartParse
  /-- `App_Main_Task` -/
  | appMain
deriving DecidableEq

instance : Fintype Task where
  elems := {.bleEvent, .bleParse, .uartParse, .appMain}
  complete t := by cases t <;> decide

def Call.static : Call → Static
  | .dispose _ => .disSendpdata
  | .ask _ _ _ => .sendpdata
  | .forward _ => .bleSendpdata

/-- The calls each task makes, with sizes that fit `uart_send_info_t.data`,
`uart_cmd_format_t.data` and what `ble_get_data` lets through. -/
def Task.makes : Task → Call → Bool
  | .bleEvent, .dispose info | .appMain, .dispose info | .uartParse, .dispose info =>
      info.data.length ≤ 128
  | .uartParse, .ask _ _ ans => ans.length < uartProcotolMaxLen
  | .bleParse, .forward c => hdrLength c < uartProcotolMaxLen
  | _, _ => false

/-- Where a task is in a call; `b` is its own `p_buf`, `sn` the sequence number
it read. -/
inductive Pc where
  | idle
  | taken (c : Call) (b : BufId)
  | filled (c : Call) (b : BufId) (sn : UInt8)

def Pc.call : Pc → Option Call
  | .idle => none
  | .taken c _ | .filled c _ _ => some c

def Pc.buf : Pc → Option BufId
  | .idle => none
  | .taken _ b | .filled _ b _ => some b

/-- A completed call. -/
structure Completed where
  task : Task
  call : Call
  buf : BufId
  sn : UInt8

/-- A send path and the tasks that use it. The last two fields are history. -/
structure Sys (σ : Type) where
  st : σ
  pc : Task → Pc
  /-- the calls that obtained a buffer -/
  obtained : List (Task × Call × BufId)
  /-- the calls that linked an entry -/
  completed : List Completed

inductive Event where
  | take (t : Task) (c : Call)
  | fill (t : Task)
  | link (t : Task)
  /-- a period of the poll task -/
  | tick
  /-- the send task enters `OSQPend` -/
  | pend
  | transmit
  /-- the driver reports the end of a transmission -/
  | complete
  /-- the send task's recycle decision -/
  | inspect
  /-- `uart_protocol_parse` matches an `RSP_UPG_DATA` with this sequence number -/
  | answer (sn : UInt8)
  /-- other queues hold this many `OS_MSG` -/
  | otherMsgs (n : Nat)

namespace Sys

variable {σ : Type} [SendOps σ]

def setPc (s : Sys σ) (t : Task) (p : Pc) : Sys σ := { s with pc := Function.update s.pc t p }

def setVars (s : Sys σ) (f : SendVars → SendVars) : Sys σ :=
  { s with st := SendOps.withVars s.st (f (SendOps.vars s.st)) }

/-- The filling step of a call. -/
def fillCall (c : Call) (st : σ) : Option σ :=
  match c with
  | .dispose info => SendOps.fillDispose info st
  | .ask cmdId req ans => SendOps.fillBuf .sendpdata (askFill cmdId req ans) st
  | .forward bleRecvBuf => SendOps.fillBuf .bleSendpdata (forwardFill bleRecvBuf) st

def step (s : Sys σ) : Event → Option (Sys σ)
  | .take t c =>
      match s.pc t with
      | .idle =>
          if t.makes c then do
            let (pBuf, st) ← SendOps.takeBuf c.static s.st
            match pBuf with
            | none => some { s with st }
            | some b =>
                some { s.setPc t (.taken c b) with st, obtained := s.obtained ++ [(t, c, b)] }
          else some s
      | _ => some s
  | .fill t =>
      match s.pc t with
      | .taken c b => do
          let st ← fillCall c s.st
          some { s.setPc t (.filled c b (SendOps.vars s.st).uartSendSn) with st }
      | _ => some s
  | .link t =>
      match s.pc t with
      | .filled c b sn => do
          let st ← SendOps.linkEntry c.static s.st
          some { s.setPc t .idle with st, completed := s.completed ++ [⟨t, c, b, sn⟩] }
      | _ => some s
  | .tick => do
      let st ← SendOps.pollTick s.st
      some { s with st }
  | .pend => some (s.setVars SendVars.osqPend)
  | .transmit => some (s.setVars SendVars.appUsartTransmit)
  | .complete => some (s.setVars SendVars.uartTxCallback)
  | .inspect => do
      let st ← SendOps.sendInspect s.st
      some { s with st }
  | .answer sn => do
      let st ← SendOps.markAnswered sn rspUpgData s.st
      some { s with st }
  | .otherMsgs n => some (s.setVars fun w => w.otherMsgs n)

/-- Every interleaving. -/
def machine (σ : Type) [SendOps σ] : Machine (Sys σ) Event := ⟨step⟩

/-- No call in progress. -/
def start (st : σ) : Sys σ := ⟨st, fun _ => .idle, [], []⟩

/-- A run of the code from `uart_context_init` on. -/
def runFrom (heap : Heap) (mem : BufId → UartSendFormat) (msgPoolSize : Nat) (es : List Event) :
    Option (Sys Tx) := do
  let st ← Tx.uartContextInit heap mem msgPoolSize
  (machine Tx).run (start st) es

/-- Every event of that run is taken from a state where `ok` holds of it. -/
def GuardedFrom (ok : Sys Tx → Event → Prop) (heap : Heap) (mem : BufId → UartSendFormat)
    (msgPoolSize : Nat) (es : List Event) : Prop :=
  match Tx.uartContextInit heap mem msgPoolSize with
  | none => True
  | some st => (machine Tx).Guarded ok (start st) es

instance (ok : Sys Tx → Event → Prop) [∀ s e, Decidable (ok s e)] (heap : Heap)
    (mem : BufId → UartSendFormat) (msgPoolSize : Nat) (es : List Event) :
    Decidable (GuardedFrom ok heap mem msgPoolSize es) := by
  unfold GuardedFrom
  split <;> infer_instance

/-! ### Reading a state -/

def Holds (s : Sys σ) (t : Task) (b : BufId) : Prop := (s.pc t).buf = some b

instance (s : Sys σ) (t : Task) (b : BufId) : Decidable (s.Holds t b) :=
  inferInstanceAs (Decidable (_ = _))

/-- The task is between the take and the link of `uart_protocol_dispose`. -/
def Disposing (s : Sys σ) (t : Task) : Prop := (s.pc t).call.map Call.static = some .disSendpdata

instance (s : Sys σ) (t : Task) : Decidable (s.Disposing t) :=
  inferInstanceAs (Decidable (_ = _))

/-- The task holds the buffer, and the static pointer through which it will link
an entry is still at it. -/
def WillLink (s : Sys σ) (t : Task) (b : BufId) : Prop :=
  s.Holds t b ∧ (s.pc t).call.bind (fun c => (SendOps.vars s.st).statics c.static) = some b

instance (s : Sys σ) (t : Task) (b : BufId) : Decidable (s.WillLink t b) :=
  inferInstanceAs (Decidable (_ ∧ _))

/-- What the next period of the poll task would do. -/
def plan (s : Sys σ) : List (PollVerdict × BufId) :=
  pollPlan (SendOps.vars s.st).mem (SendOps.linkedBufs s.st)

end Sys

/-! ### The code follows the sequences -/

theorem Tx.Rep.fillCall {s : Tx} {v v' : Pool} {c : Call} (h : s.Rep v)
    (hv : Sys.fillCall c v = some v') : ∃ s', Sys.fillCall c s = some s' ∧ s'.Rep v' := by
  cases c with
  | dispose info => exact h.fillDispose hv
  | ask cmdId req ans => exact h.fillBuf (askFill_buf cmdId req ans) hv
  | forward c => exact h.fillBuf (forwardFill_buf c) hv

/-- The code's system `s` implements the system `v` over sequences. -/
structure Sys.Rep (s : Sys Tx) (v : Sys Pool) : Prop where
  st : s.st.Rep v.st
  pc : s.pc = v.pc
  obtained : s.obtained = v.obtained
  completed : s.completed = v.completed

namespace Sys.Rep

variable {s : Sys Tx} {v v' : Sys Pool}

theorem setVars (h : Rep s v) {f : SendVars → SendVars} (hf : ∀ w, (f w).mem = w.mem) :
    Rep (s.setVars f) (v.setVars f) := by
  refine ⟨?_, h.pc, h.obtained, h.completed⟩
  have hrep := h.st.withVars (w := f v.st.toSendVars) fun b hb => by rw [hf]; exact hb
  simp only [Sys.setVars, SendOps.vars, SendOps.withVars, h.st.vars]
  exact hrep

theorem vars (h : Rep s v) : SendOps.vars s.st = SendOps.vars v.st := h.st.vars

theorem withSt (h : Rep s v) {st : Tx} {w : Pool} (hst : Tx.Rep st w) :
    Rep { s with st } { v with st := w } :=
  ⟨hst, h.pc, h.obtained, h.completed⟩

theorem take (h : Rep s v) {t : Task} {c : Call} (hv : v.step (.take t c) = some v') :
    ∃ s', s.step (.take t c) = some s' ∧ Rep s' v' := by
  simp only [Sys.step] at hv ⊢
  rw [h.pc]
  cases hpc : v.pc t with
  | idle =>
      by_cases hmakes : t.makes c = true
      · obtain ⟨st', htake, hrep⟩ := h.st.takeBuf c.static
        simp only [hpc, hmakes, if_true, SendOps.takeBuf, Option.bind_eq_bind,
          Option.bind_some, htake] at hv ⊢
        generalize v.st.takeBuf c.static = res at hv hrep
        obtain ⟨pBuf, st⟩ := res
        cases pBuf with
        | none =>
            obtain rfl := Option.some.inj hv
            exact ⟨_, rfl, hrep, rfl, h.obtained, h.completed⟩
        | some b =>
            obtain rfl := Option.some.inj hv
            exact ⟨_, rfl, hrep, by simp [Sys.setPc, h.pc], by simp [h.obtained], h.completed⟩
      · simp only [hpc, hmakes] at hv ⊢
        obtain rfl := Option.some.inj hv
        exact ⟨s, rfl, h⟩
  | taken | filled =>
      simp only [hpc] at hv ⊢
      obtain rfl := Option.some.inj hv
      exact ⟨s, rfl, h⟩

theorem fill (h : Rep s v) {t : Task} (hv : v.step (.fill t) = some v') :
    ∃ s', s.step (.fill t) = some s' ∧ Rep s' v' := by
  simp only [Sys.step] at hv ⊢
  rw [h.pc]
  cases hpc : v.pc t with
  | taken c b =>
      simp only [hpc] at hv ⊢
      obtain ⟨st, hfill, hst⟩ := Option.bind_eq_some_iff.mp hv
      obtain rfl := Option.some.inj hst
      obtain ⟨st', hfill', hrep⟩ := h.st.fillCall hfill
      refine ⟨{ s.setPc t (.filled c b (SendOps.vars s.st).uartSendSn) with st := st' }, ?_,
        hrep, by simp [Sys.setPc, h.pc, h.vars], h.obtained, h.completed⟩
      simp only [hfill', Option.bind_eq_bind, Option.bind_some]
  | idle | filled =>
      simp only [hpc] at hv ⊢
      obtain rfl := Option.some.inj hv
      exact ⟨s, rfl, h⟩

theorem link (h : Rep s v) {t : Task} (hv : v.step (.link t) = some v') :
    ∃ s', s.step (.link t) = some s' ∧ Rep s' v' := by
  simp only [Sys.step] at hv ⊢
  rw [h.pc]
  cases hpc : v.pc t with
  | filled c b sn =>
      simp only [hpc] at hv ⊢
      obtain ⟨st, hlink, hst⟩ := Option.bind_eq_some_iff.mp hv
      obtain rfl := Option.some.inj hst
      obtain ⟨st', hlink', hrep⟩ := h.st.linkEntry hlink
      refine ⟨{ s.setPc t .idle with
          st := st', completed := s.completed ++ [⟨t, c, b, sn⟩] }, ?_,
        hrep, by simp [Sys.setPc, h.pc], h.obtained, by simp [h.completed]⟩
      simp only [show SendOps.linkEntry c.static s.st = some st' from hlink',
        Option.bind_eq_bind, Option.bind_some]
  | idle | taken =>
      simp only [hpc] at hv ⊢
      obtain rfl := Option.some.inj hv
      exact ⟨s, rfl, h⟩

/-- Every step over sequences is a step of the code. -/
theorem step (h : Rep s v) {e : Event} (hv : v.step e = some v') :
    ∃ s', s.step e = some s' ∧ Rep s' v' := by
  cases e with
  | take t c => exact h.take hv
  | fill t => exact h.fill hv
  | link t => exact h.link hv
  | tick =>
      obtain ⟨st, htick, hst⟩ := Option.bind_eq_some_iff.mp hv
      obtain rfl := Option.some.inj hst
      obtain ⟨st', htick', hrep⟩ := h.st.pollTick htick
      refine ⟨{ s with st := st' }, ?_, h.withSt hrep⟩
      simp only [Sys.step, show SendOps.pollTick s.st = some st' from htick', Option.bind_eq_bind,
        Option.bind_some]
  | inspect =>
      obtain ⟨st, hinspect, hst⟩ := Option.bind_eq_some_iff.mp hv
      obtain rfl := Option.some.inj hst
      obtain ⟨st', hinspect', hrep⟩ := h.st.sendInspect hinspect
      refine ⟨{ s with st := st' }, ?_, h.withSt hrep⟩
      simp only [Sys.step, show SendOps.sendInspect s.st = some st' from hinspect',
        Option.bind_eq_bind, Option.bind_some]
  | answer sn =>
      obtain rfl := Option.some.inj hv
      obtain ⟨st', hmark, hrep⟩ := h.st.markAnswered sn rspUpgData
      refine ⟨{ s with st := st' }, ?_, h.withSt hrep⟩
      simp only [Sys.step, show SendOps.markAnswered sn rspUpgData s.st = some st' from hmark,
        Option.bind_eq_bind, Option.bind_some]
  | pend =>
      obtain rfl := Option.some.inj hv
      exact ⟨_, rfl, h.setVars fun w => w.osqPend_mem⟩
  | transmit =>
      obtain rfl := Option.some.inj hv
      exact ⟨_, rfl, h.setVars fun w => w.appUsartTransmit_mem⟩
  | complete =>
      obtain rfl := Option.some.inj hv
      exact ⟨_, rfl, h.setVars fun w => w.uartTxCallback_mem⟩
  | otherMsgs n =>
      obtain rfl := Option.some.inj hv
      exact ⟨_, rfl, h.setVars fun w => w.otherMsgs_mem n⟩

theorem freeBufs (h : Rep s v) : SendOps.freeBufs s.st = SendOps.freeBufs v.st := h.st.freeBufs

theorem linkedBufs (h : Rep s v) : SendOps.linkedBufs s.st = SendOps.linkedBufs v.st :=
  h.st.linkedBufs

theorem plan (h : Rep s v) : s.plan = v.plan := by
  simp only [Sys.plan, h.vars, h.linkedBufs]

theorem holds (h : Rep s v) {t : Task} {b : BufId} : s.Holds t b ↔ v.Holds t b := by
  simp only [Sys.Holds, h.pc]

theorem disposing (h : Rep s v) {t : Task} : s.Disposing t ↔ v.Disposing t := by
  simp only [Sys.Disposing, h.pc]

end Sys.Rep

end WifiExpander
