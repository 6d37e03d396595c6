import WifiExpander.Parse

/-!
From the UART to BLE.

`uart_recv` fills the ring that `App_Uart_Parse_Task` reads frames from, and
`Ble_Notify_Task` sends what `uart_protocol_parse` forwards as notifications of at
most `ble_mtu` bytes. A `Bridge` is a device with these two tasks; a round of a
task is one event.

`arrived` and `attempts` are not part of the program: they record what came in and
what was handed to the BLE stack.
-/

namespace WifiExpander

open WifiExpander.Theory

variable {σ τ : Type}

/-- The first `n` bytes of a buffer, and what lies behind it in memory. -/
def Mem.upTo (n : Nat) (c ram : Mem) : Mem := fun i => if i < n then c i else ram i

/-! ### Ble_Notify_Task -/

/-- `NotifyLen`: what is left, but at most `ble_mtu`, as a `uint8_t` -/
def notifyLen (bleMtu : UInt16) (lenRemain : Nat) : UInt8 :=
  UInt8.ofNat (if lenRemain > bleMtu.toNat then bleMtu.toNat else lenRemain)

/-- A round of `Ble_Notify_Task`, with the payload handed to the stack if there is
one; `ok` tells whether the stack takes it. `count` is the value of `ptr_minus`. -/
def bleNotify (bleConnState : UInt8) (bleMtu : UInt16) (ok : Bool) (r : ByteRing) :
    Option (List UInt8) × ByteRing :=
  if bleConnState = 0 then (none, { r with pOut := r.pIn })
  else if r.pOut = r.pIn then (none, r)
  else
    let len := (notifyLen bleMtu r.count).toNat
    let notifyBuf := RingBuffer.window r.data r.pOut len
    (some notifyBuf, if ok then { r with pOut := RingBuffer.skip r.pOut len } else r)

/-! ### The tasks -/

/-- A notification handed to the stack. -/
structure Attempt where
  payload : List UInt8
  bleMtu : UInt16
  ok : Bool
deriving DecidableEq

structure Bridge (τ σ : Type) where
  dev : Device τ σ
  uart : Receiver
  bleMtu : UInt16
  arrived : List UInt8
  attempts : List Attempt

inductive BridgeEvent where
  /-- `uart_recv` -/
  | recv (data : List UInt8)
  /-- a round of `App_Uart_Parse_Task`; `ram` is the memory behind `uart_recv_buf` -/
  | parse (ram : Mem)
  /-- a round of `Ble_Notify_Task` -/
  | notify (ok : Bool)
  /-- `ble_mtu` changes -/
  | mtu (bleMtu : UInt16)

namespace Bridge

variable [SendOps τ]

/-- The body of `App_Uart_Parse_Task` -/
def appUartParse (P : Platform σ) (ram : Mem) (s : Bridge τ σ) : Option (Bridge τ σ) :=
  match uartGetData s.uart with
  | (false, uart) => some { s with uart }
  | (true, uart) => do
      let dev ← uartProtocolParse P (uart.buf.upTo sizeofUartCmdFormat ram) s.dev
      some { s with uart, dev }

/-- The body of `Ble_Notify_Task` -/
def bleNotifyTask (ok : Bool) (s : Bridge τ σ) : Bridge τ σ :=
  match bleNotify s.dev.bleConnState s.bleMtu ok s.dev.notifyArray with
  | (none, ring) => { s with dev := { s.dev with notifyArray := ring } }
  | (some payload, ring) =>
      { s with
        dev := { s.dev with notifyArray := ring }
        attempts := s.attempts ++ [⟨payload, s.bleMtu, ok⟩] }

def step (P : Platform σ) (s : Bridge τ σ) (e : BridgeEvent) : Option (Bridge τ σ) :=
  if s.dev.rebooted then some s
  else
    match e with
    | .recv data =>
        some { s with
          uart := { s.uart with ring := uartRecv s.uart.ring data }
          arrived := s.arrived ++ data }
    | .parse ram => s.appUartParse P ram
    | .notify ok => some (s.bleNotifyTask ok)
    | .mtu bleMtu => some { s with bleMtu }

def machine (τ : Type) [SendOps τ] (P : Platform σ) : Machine (Bridge τ σ) BridgeEvent := ⟨step P⟩

/-- The device after its start, once a connection is there. -/
def connected (tx : τ) (world : σ) : Bridge τ σ :=
  ⟨{ Device.boot tx world with bleConnState := 1 },
    ⟨Device.emptyRing, fun _ => 0, false, 0, 0⟩, 20, [], []⟩

/-- The payloads that the stack took, one after the other. -/
def sent (s : Bridge τ σ) : List UInt8 :=
  (s.attempts.filter Attempt.ok).flatMap Attempt.payload

end Bridge

end WifiExpander
