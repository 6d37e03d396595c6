import WifiExpander.EventFlags

/-!
The Bluetooth stack between its tasks, as `rtos_bluetooth.c` and `ble.c` compute it.

`BluetoothTask` is the only one to call into the stack. It leaves an event in
`bluetooth_evt` for `BluetoothApplicationTask` and does not ask for the next one until
that one is handled; another task that issues a command leaves it in `gecko_cmd_msg` and
the `command_*` variables and waits for the response in `gecko_rsp_msg`. Flags of one
group tell each side when it is its turn. A step is what a task does between two accesses to what is
shared, except that a task fills `gecko_cmd_msg` in one step and stores its header again in
another; what the stack returns is part of the step, so it may return anything.

The wakeup callback, which nothing sets, is not modelled.
-/

namespace WifiExpander

open Theory

/-- The flags of `bluetooth_event_flags` -/
inductive BluetoothFlag where
  | stack
  | ll
  | cmdWaiting
  | rspWaiting
  | evtWaiting
  | evtHandled
deriving DecidableEq

/-- `LinklayerTask`, `BluetoothTask`, `BluetoothApplicationTask`, and the other tasks -/
inductive GeckoTask (τ : Type) where
  | linklayer
  | bluetooth
  | application
  | other (t : τ)
deriving DecidableEq

variable {τ φ π ρ ε : Type}

/-- `struct gecko_cmd_packet` of a command -/
structure GeckoPacket (π : Type) where
  header : UInt32
  payload : π
deriving DecidableEq

/-- A command: its packet, and the function that the stack has for it or NULL -/
structure GeckoCommand (φ π : Type) where
  packet : GeckoPacket π
  handler : Option φ
deriving DecidableEq

/-- Where `BluetoothTask` is in its loop: before an access to what is shared, with the
local variables it still needs. -/
inductive BluetoothPc (φ : Type) where
  | readHeader
  | readHandler (header : UInt32)
  | delegate (header : UInt32) (handler : Option φ)
  | clearHandler
  | postRsp
  | waitEvent
  | postEvt
  | canSleep
  | pend (timeout : UInt32)
  | waiting (timeout : UInt32)

/-- Where `BluetoothApplicationTask` is in its loop. -/
inductive ApplicationPc (ε : Type) where
  | pend
  | waiting
  | readEvt
  | handling (evt : ε)
  | postHandled

/-- Where `LinklayerTask` is in its loop. -/
inductive LinklayerPc where
  | pend
  | waiting
  | handle

/-- Where a task is in a `gecko_cmd_..` function: it fills `gecko_cmd_msg`, goes through
`sli_bt_cmd_handler_rtos_delegate`, and reads `gecko_rsp_msg`. -/
inductive CommandPc (φ π : Type) where
  | idle
  | fill (c : GeckoCommand φ π)
  | setHeader (c : GeckoCommand φ π)
  | setHandler (c : GeckoCommand φ π)
  | setData (c : GeckoCommand φ π)
  | post (c : GeckoCommand φ π)
  | pend (c : GeckoCommand φ π)
  | waiting (c : GeckoCommand φ π)
  | readRsp (c : GeckoCommand φ π)

inductive GeckoObs (τ φ π ρ ε : Type) where
  /-- A task begins a command. -/
  | issued (t : GeckoTask τ) (c : GeckoCommand φ π)
  /-- `sli_bt_cmd_handler_delegate` ran, with this response. -/
  | executed (c : GeckoCommand φ π) (r : ρ)
  /-- The task read the response to its command. -/
  | responded (t : GeckoTask τ) (c : GeckoCommand φ π) (r : ρ)
  /-- `BluetoothUpdate` was called. -/
  | updated
  /-- `gecko_wait_event` returned. -/
  | polled (evt : Option ε)
  /-- `BluetoothEventHandler` was called. -/
  | handed (evt : ε)
  /-- It returned, and this was posted. -/
  | handled (evt : ε)

/-- The tasks and what they share. `command_data` is the payload of `gecko_cmd_msg` or, before
the first command, NULL. -/
structure Gecko (τ φ π ρ ε : Type) where
  grp : FlagGrp (GeckoTask τ) BluetoothFlag
  bluetoothEvt : Option ε
  cmdMsg : GeckoPacket π
  commandHeader : UInt32
  commandHandlerFunc : Option φ
  commandData : Bool
  rspMsg : ρ
  /-- `flags` of `BluetoothTask` -/
  flags : Finset BluetoothFlag
  bluetooth : BluetoothPc φ
  application : ApplicationPc ε
  linklayer : LinklayerPc
  call : GeckoTask τ → CommandPc φ π
  log : List (GeckoObs τ φ π ρ ε)

/-- What happens next. -/
inductive GeckoEvent (τ φ π ρ ε : Type) where
  | bluetooth
  /-- `sli_bt_cmd_handler_delegate` leaves this response. -/
  | delegate (r : ρ)
  /-- `gecko_wait_event` returns this. -/
  | waitEvent (evt : Option ε)
  /-- `gecko_can_sleep_ticks` returns this. -/
  | canSleep (ticks : UInt32)
  | application
  | linklayer
  /-- The task begins a command. -/
  | issue (t : GeckoTask τ) (c : GeckoCommand φ π)
  | command (t : GeckoTask τ)
  | bluetoothUpdate
  | bluetoothLLCallback
  /-- The time is up for which `BluetoothTask` waits. -/
  | timeout

namespace Gecko

/-- The waits of `BluetoothTask`, with the timeout it computed; 0 is none. -/
def bluetoothWait (timeout : UInt32) : FlagWait BluetoothFlag :=
  ⟨{.stack, .evtHandled, .cmdWaiting}, .any, true, timeout != 0⟩

/-- The other waits, for one flag without a timeout -/
def waitFor (f : BluetoothFlag) : FlagWait BluetoothFlag := ⟨{f}, .any, true, false⟩

/-- `timeout` for `OSFlagPend`, from what `gecko_can_sleep_ticks` returned -/
def rtosTicks (timeout : UInt32) : UInt32 :=
  if timeout = 0xffffffff then 0 else (timeout + 32 - 1) / 32

/-- Where `BluetoothTask` goes on behind its first `if`. -/
def update (flags : Finset BluetoothFlag) : BluetoothPc φ :=
  if .stack ∈ flags ∧ .evtHandled ∈ flags then .waitEvent else .canSleep

/-- Where it goes on at the beginning of its loop. -/
def loop (flags : Finset BluetoothFlag) : BluetoothPc φ :=
  if .cmdWaiting ∈ flags then .readHeader else update flags

variable [DecidableEq τ]

def record (s : Gecko τ φ π ρ ε) (obs : List (GeckoObs τ φ π ρ ε)) : Gecko τ φ π ρ ε :=
  { s with log := s.log ++ obs }

/-- `OSFlagPost(&bluetooth_event_flags, f, OS_OPT_POST_FLAG_SET, ..)` -/
def post (f : BluetoothFlag) (s : Gecko τ φ π ρ ε) : Gecko τ φ π ρ ε :=
  { s with grp := s.grp.osFlagPost .set {f} }

def setCall (t : GeckoTask τ) (pc : CommandPc φ π) (s : Gecko τ φ π ρ ε) : Gecko τ φ π ρ ε :=
  { s with call := Function.update s.call t pc }

/-- `OSFlagPend` returned to `BluetoothTask`. -/
def resume (r : FlagResult BluetoothFlag) (s : Gecko τ φ π ρ ε) : Gecko τ φ π ρ ε :=
  let flags := match r with
    | .flags rdy => s.flags ∪ rdy
    | .timeout => s.flags ∪ {.stack}
    | _ => s.flags
  { s with flags, bluetooth := loop flags }

/-- The next step of `BluetoothTask` in which the stack has no part -/
def bluetoothStep (prio : GeckoTask τ → Nat) (s : Gecko τ φ π ρ ε) :
    Option (Gecko τ φ π ρ ε) :=
  match s.bluetooth with
  | .readHeader => some { s with bluetooth := .readHandler s.commandHeader }
  | .readHandler header => some { s with bluetooth := .delegate header s.commandHandlerFunc }
  | .clearHandler => some { s with commandHandlerFunc := none, bluetooth := .postRsp }
  | .postRsp =>
      let flags := s.flags.erase .cmdWaiting
      some ({ s with flags, bluetooth := update flags }.post .rspWaiting)
  | .postEvt =>
      some ({ s with flags := s.flags.erase .evtHandled, bluetooth := .canSleep }.post .evtWaiting)
  | .pend timeout =>
      match s.grp.osFlagPend prio .bluetooth (bluetoothWait timeout) false false with
      | (some r, grp) => some ({ s with grp }.resume r)
      | (none, grp) => some { s with grp, bluetooth := .waiting timeout }
  | .waiting _ => do
      let (_, r, grp) ← s.grp.osFlagPendReturn .bluetooth
      some ({ s with grp }.resume r)
  | _ => none

/-- The next step of `BluetoothApplicationTask` outside the commands of its handler -/
def applicationStep (prio : GeckoTask τ → Nat) (s : Gecko τ φ π ρ ε) :
    Option (Gecko τ φ π ρ ε) :=
  match s.application with
  | .pend =>
      match s.grp.osFlagPend prio .application (waitFor .evtWaiting) false false with
      | (some _, grp) => some { s with grp, application := .readEvt }
      | (none, grp) => some { s with grp, application := .waiting }
  | .waiting => do
      let (_, _, grp) ← s.grp.osFlagPendReturn .application
      some { s with grp, application := .readEvt }
  | .readEvt => do
      -- the handler looks at the event at once, which fails for NULL
      let evt ← s.bluetoothEvt
      some ({ s with application := .handling evt }.record [.handed evt])
  | .handling evt =>
      match s.call .application with
      | .idle => some ({ s with application := .postHandled }.record [.handled evt])
      | _ => none
  | .postHandled => some ({ s with application := .pend }.post .evtHandled)

/-- The next step of `LinklayerTask` -/
def linklayerStep (prio : GeckoTask τ → Nat) (s : Gecko τ φ π ρ ε) :
    Option (Gecko τ φ π ρ ε) :=
  match s.linklayer with
  | .pend =>
      match s.grp.osFlagPend prio .linklayer (waitFor .ll) false false with
      | (some _, grp) => some { s with grp, linklayer := .handle }
      | (none, grp) => some { s with grp, linklayer := .waiting }
  | .waiting => do
      let (_, _, grp) ← s.grp.osFlagPendReturn .linklayer
      some { s with grp, linklayer := .handle }
  | .handle => some { s with linklayer := .pend }

/-- The next step of task `t` in its command -/
def commandStep (prio : GeckoTask τ → Nat) (t : GeckoTask τ) (s : Gecko τ φ π ρ ε) :
    Option (Gecko τ φ π ρ ε) :=
  match s.call t with
  | .idle => none
  | .fill c => some ({ s with cmdMsg := c.packet }.setCall t (.setHeader c))
  | .setHeader c => some ({ s with commandHeader := s.cmdMsg.header }.setCall t (.setHandler c))
  | .setHandler c => some ({ s with commandHandlerFunc := c.handler }.setCall t (.setData c))
  | .setData c => some ({ s with commandData := true }.setCall t (.post c))
  | .post c => some ((s.post .cmdWaiting).setCall t (.pend c))
  | .pend c =>
      match s.grp.osFlagPend prio t (waitFor .rspWaiting) false false with
      | (some _, grp) => some ({ s with grp }.setCall t (.readRsp c))
      | (none, grp) => some ({ s with grp }.setCall t (.waiting c))
  | .waiting c => do
      let (_, _, grp) ← s.grp.osFlagPendReturn t
      some ({ s with grp }.setCall t (.readRsp c))
  | .readRsp c => some ((s.setCall t .idle).record [.responded t c s.rspMsg])

/-- A task begins a command: the application task in its handler, the others whenever they
run. -/
def issue (t : GeckoTask τ) (c : GeckoCommand φ π) (s : Gecko τ φ π ρ ε) :
    Option (Gecko τ φ π ρ ε) :=
  match s.call t, t with
  | .idle, .application =>
      match s.application with
      | .handling _ => some ((s.setCall t (.fill c)).record [.issued t c])
      | _ => none
  | .idle, .other _ => some ((s.setCall t (.fill c)).record [.issued t c])
  | _, _ => none

end Gecko

open Gecko in
/-- The tasks, the stack and the interrupts -/
def geckoMachine [DecidableEq τ] (prio : GeckoTask τ → Nat) :
    Machine (Gecko τ φ π ρ ε) (GeckoEvent τ φ π ρ ε) where
  step s
    | .bluetooth => s.bluetoothStep prio
    | .delegate r =>
        match s.bluetooth, s.commandData with
        | .delegate header handler, true =>
            some ({ s with rspMsg := r, bluetooth := .clearHandler }.record
              [.executed ⟨⟨header, s.cmdMsg.payload⟩, handler⟩ r])
        | _, _ => none
    | .waitEvent evt =>
        match s.bluetooth, evt with
        | .waitEvent, some _ =>
            some ({ s with bluetoothEvt := evt, bluetooth := .postEvt }.record [.polled evt])
        | .waitEvent, none =>
            some ({ s with
              bluetoothEvt := none
              flags := s.flags.erase .stack
              bluetooth := .canSleep }.record [.polled none])
        | _, _ => none
    | .canSleep ticks =>
        match s.bluetooth with
        | .canSleep =>
            if ticks = 0 ∧ .evtHandled ∈ s.flags then
              some { s with flags := s.flags ∪ {.stack}, bluetooth := loop (s.flags ∪ {.stack}) }
            else some { s with bluetooth := .pend (rtosTicks ticks) }
        | _ => none
    | .application => s.applicationStep prio
    | .linklayer => s.linklayerStep prio
    | .issue t c => s.issue t c
    | .command t => s.commandStep prio t
    | .bluetoothUpdate => some ((s.post .stack).record [.updated])
    | .bluetoothLLCallback => some (s.post .ll)
    | .timeout =>
        match s.grp.task .bluetooth with
        | .pend p => if p.timed then some { s with grp := s.grp.osTickTimeout .bluetooth } else none
        | _ => none

end WifiExpander
