import WifiExpander.BufFactory
import WifiExpander.Frame

/-!
The UART send path, as the code computes it.

A producer takes a buffer from the factory, fills it and appends its entry to
`g_uart_send_list`. `App_Uart_Poll_Task` walks that list every 5 ms and posts
entries to `App_Uart_Send_Task`, which hands them to the UART driver one at a
time. Entries of `poll.type` 1 stay on the list until they are answered or have
been posted three times. The functions return `none` where the C code would
follow a null pointer or never leave a loop.

The log is not part of the program: it records what left the list, was posted
and was transmitted, so that statements can speak of the past.
-/

namespace WifiExpander

/-! ### The kernel's message queue -/

inductive RtosErr where
  | wouldOvf
  | noMoreRsrc
deriving DecidableEq

/-- `OS_MsgQPut` with `OS_OPT_POST_FIFO`, on the messages in the queue -/
def osMsgQPut {α : Type} (nbrEntriesSize nbrFree : Nat) (entries : List α) (msg : α) :
    Except RtosErr (List α) :=
  if entries.length ≥ nbrEntriesSize then .error .wouldOvf
  else if nbrFree = 0 then .error .noMoreRsrc
  else .ok (entries ++ [msg])

/-- The size given to `OSQCreate` for `app_uart_send_msg` -/
def appUartSendMsgSize : Nat := uartdrvMaxConcurrentTxBufs + 1

/-! ### State -/

/-- `uart_poll_t`. A counter is reset long before it could reach `2 ^ 32`. -/
structure UartPoll where
  delay : Nat
  times : Nat
  type : Nat
  freeFlag : Nat
deriving DecidableEq

/-- `memset(&poll, 0, sizeof(uart_poll_t))` -/
def UartPoll.zero : UartPoll := ⟨0, 0, 0, 0⟩

/-- `uart_send_format_t` without its `list` field, which is `Addr.entry` -/
structure UartSendFormat where
  buf : Option BufId
  poll : UartPoll
  cmd : Mem
  cmdLen : Nat

/-- The bytes that `app_usart_transmit(&cmd, cmd_len)` sends. -/
def UartSendFormat.frame (f : UartSendFormat) : List UInt8 := f.cmd.bytes 0 f.cmdLen

theorem UartSendFormat.length_frame (f : UartSendFormat) : f.frame.length = f.cmdLen := by
  simp [frame]

theorem UartSendFormat.getElem?_frame {f : UartSendFormat} {i : Nat} (hi : i < f.cmdLen) :
    f.frame[i]? = some (f.cmd i) := by
  simp [frame, Mem.bytes, hi]

/-- The static pointers through which producers reach their buffer. -/
inductive Static where
  /-- of `uart_protocol_dispose` -/
  | disSendpdata
  /-- of the handlers in `uart_ptl.c` -/
  | sendpdata
  /-- `Sendpdata` of `App_Ble_Parse_Task` -/
  | bleSendpdata
deriving DecidableEq

/-- Where `App_Uart_Send_Task` is in its loop. -/
inductive SendTask where
  /-- before `OSQPend` -/
  | ready
  /-- blocked in `OSQPend` -/
  | pending
  /-- `OSQPend` has a message for it -/
  | received (b : BufId)
  /-- blocked in `OSSemPend` until the driver is done -/
  | transmitting (b : BufId)
  /-- before the recycle decision -/
  | inspecting (b : BufId)
deriving DecidableEq

/-- The buffer in the send task's hands. -/
def SendTask.buf : SendTask → Option BufId
  | .received b | .transmitting b | .inspecting b => some b
  | _ => none

inductive Obs where
  /-- `list_add_tail` to the send list -/
  | linked (b : BufId) (type : Nat) (frame : List UInt8)
  /-- `OSQPost`, whatever its result -/
  | posted (b : BufId) (type : Nat) (frame : List UInt8)
  /-- `app_usart_transmit` -/
  | transmitted (b : BufId) (type : Nat) (frame : List UInt8)
  /-- unlinked by the poll task because of `free_flag` -/
  | answered (b : BufId) (frame : List UInt8)
  /-- unlinked by the poll task after the third post -/
  | expired (b : BufId) (frame : List UInt8)
deriving DecidableEq

/-- The send path apart from its `list_head` objects. -/
structure SendVars where
  /-- the `memory` of each buffer -/
  mem : BufId → UartSendFormat
  uartSendSn : UInt8
  statics : Static → Option BufId
  sendTask : SendTask
  appUartSendMsg : List BufId
  /-- `MsgPoolSize` of `OS_INIT_CFG_APP` -/
  msgPoolSize : Nat
  /-- `OS_MSG` elements in other queues -/
  msgElsewhere : Nat
  log : List Obs

namespace SendVars

def setMem (s : SendVars) (b : BufId) (f : UartSendFormat) : SendVars :=
  { s with mem := Function.update s.mem b f }

def setPoll (s : SendVars) (b : BufId) (p : UartPoll) : SendVars :=
  s.setMem b { s.mem b with poll := p }

def record (s : SendVars) (o : Obs) : SendVars := { s with log := s.log ++ [o] }

/-- `OSMsgPool.NbrFree` -/
def nbrFree (s : SendVars) : Nat := s.msgPoolSize - s.msgElsewhere - s.appUartSendMsg.length

/-- `OSQPost(&app_uart_send_msg, b, ..)`: to the task if it waits, else into the
queue; the error is ignored. -/
def osqPost (s : SendVars) (b : BufId) : SendVars :=
  let s := s.record (.posted b (s.mem b).poll.type (s.mem b).frame)
  if s.sendTask = .pending then { s with sendTask := .received b }
  else
    match osMsgQPut appUartSendMsgSize s.nbrFree s.appUartSendMsg b with
    | .ok entries => { s with appUartSendMsg := entries }
    | .error _ => s

/-- `OSQPend` of `App_Uart_Send_Task` -/
def osqPend (s : SendVars) : SendVars :=
  match s.sendTask with
  | .ready =>
      match s.appUartSendMsg with
      | [] => { s with sendTask := .pending }
      | b :: entries => { s with sendTask := .received b, appUartSendMsg := entries }
  | _ => s

def appUsartTransmit (s : SendVars) : SendVars :=
  match s.sendTask with
  | .received b =>
      { s.record (.transmitted b (s.mem b).poll.type (s.mem b).frame) with
        sendTask := .transmitting b }
  | _ => s

/-- The driver is done: `uart_tx_callback` posts `app_uart_send_complete_sem`. -/
def uartTxCallback (s : SendVars) : SendVars :=
  match s.sendTask with
  | .transmitting b => { s with sendTask := .inspecting b }
  | _ => s

/-- The message pool after other queues hold `n` elements of it. -/
def otherMsgs (s : SendVars) (n : Nat) : SendVars :=
  if n + s.appUartSendMsg.length ≤ s.msgPoolSize then { s with msgElsewhere := n } else s

/-- The buffers posted and not yet done with. -/
def inFlight (s : SendVars) : List BufId := s.sendTask.buf.toList ++ s.appUartSendMsg

end SendVars

structure Tx extends SendVars where
  heap : Heap

/-- The same lists with other variables. -/
def Tx.withVars (s : Tx) (w : SendVars) : Tx := ⟨w, s.heap⟩

@[simp] theorem Tx.withVars_vars (s : Tx) (w : SendVars) : (s.withVars w).toSendVars = w := rfl

@[simp] theorem Tx.withVars_heap (s : Tx) (w : SendVars) : (s.withVars w).heap = s.heap := rfl

/-! ### The lists as a debugger would show them -/

/-- The buffers on the factory's free list. -/
def Tx.freeBufs (s : Tx) : List BufId :=
  (listNodes s.heap .factoryList (uartdrvMaxConcurrentTxBufs + 1)).filterMap fun
    | .node b => some b
    | _ => none

/-- The buffers whose entries are on `g_uart_send_list`. -/
def Tx.linkedBufs (s : Tx) : List BufId :=
  (listNodes s.heap .sendList (uartdrvMaxConcurrentTxBufs + 1)).filterMap fun
    | .entry b => some b
    | _ => none

/-! ### Producers -/

/-- `uart_send_info_t`; `len` is the length of `data`. -/
structure SendInfo where
  cmdId : UInt8
  pdtType : UInt8
  data : List UInt8
  pollType : Nat
deriving DecidableEq

/-- The `info` of `ble_state_notify` -/
def bleStateNotifyInfo (state : UInt8) : SendInfo :=
  ⟨ntfConnState, pdttypeBleModule, [state], 0⟩

/-- The `info` of `iap_req_request` -/
def iapReqRequestInfo (offset : UInt32) : SendInfo :=
  ⟨reqUpgData, pdttypeBleFlash,
    [(offset >>> 24).toUInt8, (offset >>> 16).toUInt8, (offset >>> 8).toUInt8, offset.toUInt8], 1⟩

/-- The `info` of `iap_done` -/
def iapDoneInfo (done : UInt8) : SendInfo := ⟨ntfUpgDone, pdttypeBleFlash, [done], 0⟩

/-- What `uart_protocol_dispose` writes to `*disSendpdata`. -/
def disposeFill (info : SendInfo) (sn : UInt8) (f : UartSendFormat) : UartSendFormat :=
  let protocolLen := info.data.length + 4
  let c := f.cmd.set 0 wifiampMdlHeader
  let c := c.set 1 (UInt8.ofNat (protocolLen >>> 8))
  let c := c.set 2 (UInt8.ofNat protocolLen)
  let c := c.set 3 0
  let c := c.set 4 sn
  let c := c.set 5 info.pdtType
  let c := c.set 6 info.cmdId
  let c := c.write dataOff info.data
  let c := c.set (dataOff + info.data.length) (checkSumCal (c.bytes staParamOff protocolLen))
  { f with
    poll := { UartPoll.zero with type := info.pollType }
    cmd := c
    cmdLen := protocolLen + 4 }

/-- What the handlers write to `*sendpdata` for the request `req`: they differ in
the command and in the bytes `ans` they append at `Respdatalen`. -/
def askFill (cmdId : UInt8) (req : Mem) (ans : List UInt8) (f : UartSendFormat) :
    UartSendFormat :=
  let c := f.cmd.set 0 wifiampMdlHeader
  let c := c.set 3 0
  let c := c.set 4 (hdrSn req)
  let c := c.set 5 (hdrPdtType req)
  let c := c.set 6 cmdId
  let c := c.write dataOff ans
  let respdatalen := ans.length + 4
  let c := c.set 1 (UInt8.ofNat (respdatalen >>> 8))
  let c := c.set 2 (UInt8.ofNat respdatalen)
  let c := c.set (dataOff + (respdatalen - 4)) (checkSumCal (c.bytes staParamOff respdatalen))
  { f with poll := UartPoll.zero, cmd := c, cmdLen := hdrLength c + 4 }

/-- What `App_Ble_Parse_Task` writes to `*Sendpdata` for the frame in
`ble_recv_buf`: of `poll` only the type. -/
def forwardFill (bleRecvBuf : Mem) (f : UartSendFormat) : UartSendFormat :=
  let len := hdrLength bleRecvBuf + 4
  { f with
    poll := { f.poll with type := 0 }
    cmd := f.cmd.write 0 (bleRecvBuf.bytes 0 len)
    cmdLen := len }

namespace Tx

/-- `p_buf = buf_factory_produce(g_uart_send_buf)` and, unless it is `NULL`, the
static pointer and the `buf` field are set. -/
def takeBuf (v : Static) (s : Tx) : Option (Option BufId × Tx) := do
  let (pBuf, heap) ← bufFactoryProduce s.heap
  match pBuf with
  | none => some (none, { s with heap })
  | some b =>
      some (some b,
        { s with
          heap
          statics := Function.update s.statics v (some b)
          mem := Function.update s.mem b { s.mem b with buf := some b } })

/-- The frame is written through the static pointer, and `list.owner` set. -/
def fillBuf (v : Static) (fill : UartSendFormat → UartSendFormat) (s : Tx) : Option Tx := do
  let b ← s.statics v
  some ⟨s.setMem b (fill (s.mem b)), s.heap.setOwner (.entry b) (some (.send b))⟩

/-- The filling part of `uart_protocol_dispose` takes the next sequence number. -/
def fillDispose (info : SendInfo) (s : Tx) : Option Tx := do
  let s' ← s.fillBuf .disSendpdata (disposeFill info s.uartSendSn)
  some { s' with uartSendSn := s.uartSendSn + 1 }

/-- `list_add_tail(&v->list, &g_uart_send_list)` -/
def linkEntry (v : Static) (s : Tx) : Option Tx := do
  let b ← s.statics v
  let heap ← listAddTail s.heap (.entry b) .sendList
  some ⟨s.record (.linked b (s.mem b).poll.type (s.mem b).frame), heap⟩

/-! ### App_Uart_Poll_Task and App_Uart_Send_Task -/

/-- `memset(&poll, 0, ..)` and `buf_factory_recycle(0, p->buf, g_uart_send_buf)` -/
def recycle (s : Tx) (b : BufId) : Option Tx := do
  let buf ← (s.mem b).buf
  let heap ← bufFactoryRecycle s.heap buf
  some ⟨s.setPoll b .zero, heap⟩

/-- `p = p->next; list_del(p->prev)`, with the new `p` -/
def nextDel (s : Tx) (p : Addr) : Option (Addr × Tx) := do
  let next ← (s.heap p).next
  let prev ← (s.heap next).prev
  let heap ← listDel s.heap prev
  some (next, { s with heap })

/-- The entry that `owner` points to. -/
def ownerEntry (s : Tx) (p : Addr) : Option BufId :=
  match (s.heap p).owner with
  | some (.send b) => some b
  | _ => none

/-- The loop of `App_Uart_Poll_Task` from entry `p` on, at most `fuel` times. -/
def pollLoop : Nat → Addr → Tx → Option Tx
  | 0, _, _ => none
  | fuel + 1, p, s =>
      if p = .sendList then some s
      else do
        let b ← s.ownerEntry p
        let poll := (s.mem b).poll
        if poll.type = 0 then
          -- nothing to wait for: post it and unlink it
          let s := s.withVars ((s.setPoll b { poll with freeFlag := 1 }).osqPost b)
          let (_, s) ← s.nextDel p
          some s
        else if poll.type = 1 then
          if poll.times = 0 then
            some (s.withVars ((s.setPoll b { poll with times := poll.times + 1 }).osqPost b))
          else if poll.freeFlag ≠ 0 then
            let (p, s) ← s.nextDel p
            let s ← (s.withVars (s.record (.answered b (s.mem b).frame))).recycle b
            pollLoop fuel p s
          else if poll.delay + 5 ≥ 500 then
            let poll := { poll with delay := 0, times := poll.times + 1 }
            let s := s.withVars (s.setPoll b poll)
            if poll.times > 3 then
              let (p, s) ← s.nextDel p
              let s ← (s.withVars (s.record (.expired b (s.mem b).frame))).recycle b
              pollLoop fuel p s
            else some (s.withVars (s.osqPost b))
          else
            let s := s.withVars (s.setPoll b { poll with delay := poll.delay + 5 })
            let p ← (s.heap p).next
            pollLoop fuel p s
        else
          let p ← (s.heap p).next
          pollLoop fuel p s

/-- Each visit to an entry that stays on the list and lets the loop go on adds 5
to its `delay`, so a loop that is not over after this many visits never is. -/
def pollFuel : Nat := 1024

/-- One period of `App_Uart_Poll_Task` -/
def pollTick (s : Tx) : Option Tx := do
  let p ← (s.heap .sendList).next
  s.pollLoop pollFuel p

/-- The recycle decision of `App_Uart_Send_Task` -/
def sendInspect (s : Tx) : Option Tx :=
  match s.sendTask with
  | .inspecting b =>
      let poll := (s.mem b).poll
      if poll.freeFlag ≠ 0 ∧ poll.type = 0 then do
        let s ← s.recycle b
        some { s with sendTask := .ready }
      else some { s with sendTask := .ready }
  | _ => some s

/-! ### Answers -/

/-- The loop of `uart_protocol_parse` over the send list: the first entry with
the sequence number and the command of the answer is marked. -/
def answerLoop (sn cmdId : UInt8) : Nat → Addr → Tx → Option Tx
  | 0, _, _ => none
  | fuel + 1, p, s =>
      if p = .sendList then some s
      else do
        let b ← s.ownerEntry p
        let f := s.mem b
        if sn = hdrSn f.cmd ∧ cmdId = hdrCmdId f.cmd then
          some (s.withVars (s.setPoll b { f.poll with freeFlag := 1 }))
        else
          let p ← (s.heap p).next
          answerLoop sn cmdId fuel p s

def markAnswered (sn cmdId : UInt8) (s : Tx) : Option Tx := do
  let p ← (s.heap .sendList).next
  s.answerLoop sn cmdId pollFuel p

/-! ### Start -/

/-- The part of `uart_context_init` and `app_uart_init` that sets up the send
path; the memory and the heap hold anything before. -/
def uartContextInit (heap : Heap) (mem : BufId → UartSendFormat) (msgPoolSize : Nat) :
    Option Tx := do
  let heap ← createBufFactory heap
  let heap := initListHead heap .sendList (.list .sendList)
  some
    { heap
      mem
      uartSendSn := 0
      statics := fun _ => none
      sendTask := .ready
      appUartSendMsg := []
      msgPoolSize
      msgElsewhere := 0
      log := [] }

end Tx

end WifiExpander
