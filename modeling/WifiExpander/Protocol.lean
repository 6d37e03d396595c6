import WifiExpander.Crc16
import WifiExpander.Receiver
import WifiExpander.Producers

/-!
The protocol of `app/uart_ptl.c`: the command handlers, their table and
`uart_protocol_parse`.

What is outside the application (the bootloader, the BLE stack, the flash
records) is a `Platform` over a state `σ` of its own, whose answers are not
restricted here. The handlers are written once for any implementation of the
send path, as the tasks are.

`hist` is not part of the program: it records what became of the firmware slot.
-/

namespace WifiExpander

open WifiExpander.Theory

/-! ### The platform -/

/-- `BOOTLOADER_OK` -/
def bootloaderOk : Int := 0

def bgErrSuccess : UInt16 := 0
def bgErrInvalidParam : UInt16 := 0x180

structure Platform (σ : Type) where
  bootloaderInit : σ → Int × σ
  /-- of slot 0, like the two that follow -/
  bootloaderEraseStorageSlot : σ → Int × σ
  bootloaderWriteStorage : UInt32 → List UInt8 → σ → Int × σ
  bootloaderVerifyImage : σ → Int × σ
  bootloaderSetImageToBootload : σ → σ
  bootloaderRebootAndInstall : σ → σ
  mbleRecordWrite : UInt16 → List UInt8 → σ → σ
  mibleGapAddressGet : σ → (Nat → UInt8) × σ
  mibleGapAdvStart : σ → σ
  /-- `gecko_cmd_le_gap_bt5_set_adv_data(ADV_HANDLE, packet, ..)->result` -/
  geckoSetAdvData : UInt8 → List UInt8 → σ → UInt16 × σ

variable {σ : Type}

/-- `mble_gap_adv_data_set`; the result tells whether it is `MI_SUCCESS`. -/
def mbleGapAdvDataSet (P : Platform σ) (data srData : List UInt8) (w : σ) : Bool × σ :=
  let (res, w) := if data.length ≤ 31 then P.geckoSetAdvData 0 data w else (bgErrSuccess, w)
  if res = bgErrInvalidParam then (false, w)
  else
    let (res, w) :=
      if srData.length ≤ 31 then P.geckoSetAdvData 1 srData w else (bgErrSuccess, w)
    (res ≠ bgErrInvalidParam, w)

/-- `strlen` of the string at `p`, if it is at most `n` -/
def strlenUpTo (n : Nat) (c : Mem) (p : Nat) : Option Nat :=
  (List.range (n + 1)).find? fun i => c (p + i) = 0

/-- `advertising_init` with the name at `resp` and the address at `devMac` -/
def advertisingInit (P : Platform σ) (confStatFlag : UInt8) (c : Mem) (resp devMac : Nat) (w : σ) :
    Int × σ :=
  let advData : List UInt8 :=
    [0x02, 0x01, 0x06, 3, 2, 0x7B, 0xFD, 13, 0xFF, 0x70, 0x08, 0x03, 0x01] ++ c.bytes devMac 6 ++
      [confStatFlag, 0x00]
  match strlenUpTo 28 c resp with
  | none => (-1, w)
  | some len =>
      -- `strcpy` copies the terminator, and `scan_resp_len` counts it
      let scanRespData : List UInt8 :=
        [0x02, 0x0A, 0, UInt8.ofNat (len + 2), 0x09] ++ c.bytes resp len ++ [0]
      let (ok, w) := mbleGapAdvDataSet P advData scanRespData w
      if ok then (0, w) else (-1, w)

/-! ### Arguments -/

def argvMaxNum : Nat := 24

/-- `PARAM_STR`; the pointers are offsets into `uart_recv_buf`. -/
structure Param where
  argc : Nat
  argv : Nat → Option Nat

/-- The loop of `ArgsParam`, from the current element of `argvlist` on. -/
def argsLoop : List UInt8 → Nat → Param → Param
  | a :: b :: argvlist, paramLine, p =>
      if b = 0 then p
      else
        let paramLine := paramLine + a.toNat
        let p : Param := ⟨p.argc + 1, Function.update p.argv p.argc (some paramLine)⟩
        if p.argc ≥ argvMaxNum then p else argsLoop (b :: argvlist) paramLine p
  | _, _, p => p

/-- `ArgsParam`; an `argvlist` ends with a 0, and `none` is `NULL`. -/
def argsParam (paramLine : Nat) (argvlist : Option (List UInt8)) (p : Param) : Param :=
  let p := { p with argc := 0 }
  match argvlist with
  | some (a :: argvlist) =>
      if a ≠ 0 then
        argsLoop (a :: argvlist) paramLine
          ⟨p.argc + 1, Function.update p.argv p.argc (some paramLine)⟩
      else p
  | _ => p

/-- `argv[i][k]` -/
def Param.byte (p : Param) (c : Mem) (i k : Nat) : Option UInt8 :=
  (p.argv i).map fun q => c (q + k)

/-- `(p[0]<<24) | (p[1]<<16) | (p[2]<<8) | p[3]` -/
def wordAt (c : Mem) (p : Nat) : UInt32 :=
  (c p).toUInt32 <<< 24 ||| (c (p + 1)).toUInt32 <<< 16 ||| (c (p + 2)).toUInt32 <<< 8 |||
    (c (p + 3)).toUInt32

/-- The word at `argv[i]` -/
def Param.word (p : Param) (c : Mem) (i : Nat) : Option UInt32 := (p.argv i).map (wordAt c)

/-- The four bytes of a word, most significant first. -/
def wordBytes (n : UInt32) : List UInt8 :=
  [(n >>> 24).toUInt8, (n >>> 16).toUInt8, (n >>> 8).toUInt8, n.toUInt8]

/-! ### The firmware transfer -/

/-- `IAP_STR` without `version` -/
structure IapStr where
  inProgress : UInt32
  offset : UInt32
  fwLen : UInt32
  pageLen : UInt32
  finished : UInt8
  packNum : UInt32
deriving DecidableEq

inductive UpgObs where
  /-- the slot was erased for a request that announced this length; `mark` is how
  much the send path had logged -/
  | accepted (fwLen : UInt32) (mark : Nat)
  /-- `bootloader_writeStorage` and whether it was `BOOTLOADER_OK` -/
  | wrote (offset : UInt32) (data : List UInt8) (ok : Bool)
  /-- `bootloader_setImageToBootload` -/
  | setImage
  /-- `bootloader_rebootAndInstall` -/
  | reboot
deriving DecidableEq

/-- What the firmware handlers act on, apart from the send path. -/
structure Upgrade (σ : Type) where
  iap : IapStr
  world : σ
  hist : List UpgObs
  /-- `bootloader_rebootAndInstall` does not return. -/
  rebooted : Bool

namespace Upgrade

def record (u : Upgrade σ) (o : UpgObs) : Upgrade σ := { u with hist := u.hist ++ [o] }

def withWorld (u : Upgrade σ) (world : σ) : Upgrade σ := { u with world }

/-- A call into the platform. -/
def call {α : Type} (u : Upgrade σ) (f : σ → α × σ) : α × Upgrade σ :=
  let (res, world) := f u.world
  (res, u.withWorld world)

/-- The largest length `upg_request_rsp` accepts -/
def maxFwLen : UInt32 := 241664

/-- What `upg_request_rsp` does before it answers; the result tells whether it
goes on to answer. -/
def request (P : Platform σ) (fwLen : UInt32) (mark : Nat) (u : Upgrade σ) : Bool × Upgrade σ :=
  let u := { u with iap := { u.iap with fwLen } }
  if u.iap.fwLen > maxFwLen then (false, { u with iap := { u.iap with fwLen := 0 } })
  else
    let (res, u) := u.call P.bootloaderInit
    if res ≠ bootloaderOk then (false, u)
    else
      let (res, u) := u.call P.bootloaderEraseStorageSlot
      if res ≠ bootloaderOk then (false, u)
      else
        let iap :=
          { u.iap with inProgress := 1, finished := 0, offset := 0, pageLen := 128, packNum := 0 }
        (true, { u with iap }.record (.accepted fwLen mark))

/-- The page of `upg_data_rsp`: its length field, CRC field and bytes. -/
structure Page where
  dataLength : UInt16
  crcVal : UInt16
  data : List UInt8

/-- What `upg_data_rsp` reads from the frame; the lengths are `uint16_t`. -/
def page (dataP : Mem) : Page :=
  let dataLength := UInt16.ofNat (hdrLength dataP) - 6
  let crcVal := ((dataP (dataOff + dataLength.toNat)).toUInt16 <<< 8) +
    (dataP (dataOff + dataLength.toNat + 1)).toUInt16
  let dataLength := dataLength - 4
  ⟨dataLength, crcVal, dataP.bytes (dataOff + 4) dataLength.toNat⟩

/-- The check of `upg_data_rsp` before it writes. -/
def pageOk (pg : Page) (curOffset : UInt32) (iap : IapStr) : Bool :=
  pg.crcVal = crc16 pg.data ∧ curOffset = iap.offset ∧ pg.dataLength.toUInt32 ≤ iap.pageLen

/-- The first half of `upg_data_rsp`: the page is written if it passes the check. -/
def storePage (P : Platform σ) (pg : Page) (curOffset : UInt32) (u : Upgrade σ) : Upgrade σ :=
  if pageOk pg curOffset u.iap then
    let (res, u') := u.call (P.bootloaderWriteStorage u.iap.offset pg.data)
    let u' := u'.record (.wrote u.iap.offset pg.data (res = bootloaderOk))
    if res = bootloaderOk then
      { u' with iap :=
          { u'.iap with
            offset := u'.iap.offset + pg.dataLength.toUInt32
            packNum := u'.iap.packNum + 1 } }
    else u'
  else u

/-- The end of a transfer in `upg_data_rsp`; the result tells whether the image
was good. -/
def finish (P : Platform σ) (u : Upgrade σ) : Bool × Upgrade σ :=
  let (res, u) := u.call P.bootloaderVerifyImage
  if res = bootloaderOk then
    let u := (u.withWorld (P.bootloaderSetImageToBootload u.world)).record .setImage
    let u := { u with iap := { u.iap with finished := 0xAA } }
    let u := u.withWorld (P.mbleRecordWrite 1 [u.iap.finished] u.world)
    let u := (u.withWorld (P.bootloaderRebootAndInstall u.world)).record .reboot
    (true, { u with rebooted := true })
  else (false, u)

end Upgrade

/-! ### Handlers -/

/-- The state the handlers share. -/
structure Device (τ σ : Type) extends Upgrade σ where
  tx : τ
  param : Param
  bleConnState : UInt8
  notifyArray : ByteRing

variable {τ : Type} [SendOps τ]

namespace SendOps

/-- A call that sends, from its take to its link. The result tells whether it
obtained a buffer. -/
def send (c : Call) (s : τ) : Option (Bool × τ) := do
  let (pBuf, s) ← takeBuf c.static s
  match pBuf with
  | none => some (false, s)
  | some _ =>
      let s ← Sys.fillCall c s
      let s ← linkEntry c.static s
      some (true, s)

end SendOps

/-- `uart_protocol_dispose` -/
def uartProtocolDispose (info : SendInfo) (s : τ) : Option (Int × τ) := do
  let (obtained, s) ← SendOps.send (.dispose info) s
  some (if obtained then 0 else -1, s)

namespace Device

def withUpgrade (d : Device τ σ) (u : Upgrade σ) : Device τ σ :=
  ⟨u, d.tx, d.param, d.bleConnState, d.notifyArray⟩

/-- `uart_protocol_dispose` as its callers use it: the result is ignored. -/
def dispose (info : SendInfo) (d : Device τ σ) : Option (Device τ σ) := do
  let (_, tx) ← uartProtocolDispose info d.tx
  some { d with tx }

def bleStateNotify (state : UInt8) (d : Device τ σ) : Option (Device τ σ) :=
  d.dispose (bleStateNotifyInfo state)

def iapReqRequest (offset : UInt32) (d : Device τ σ) : Option (Device τ σ) :=
  d.dispose (iapReqRequestInfo offset)

def iapDone (done : UInt8) (d : Device τ σ) : Option (Device τ σ) := d.dispose (iapDoneInfo done)

/-- The part that the handlers share: take a buffer, fill it with the answer
`ans` to `dataP` and link it. -/
def answer (cmdId : UInt8) (dataP : Mem) (ans : List UInt8) (d : Device τ σ) :
    Option (Bool × Device τ σ) := do
  let (obtained, tx) ← SendOps.send (.ask cmdId dataP ans) d.tx
  some (obtained, { d with tx })

/-- `module_hand_shake_rsp`. The address is asked for only once there is a buffer. -/
def moduleHandShakeRsp (P : Platform σ) (dataP : Mem) (d : Device τ σ) : Option (Device τ σ) := do
  let (mac, world) := P.mibleGapAddressGet d.world
  let ans := hwVer ++ fwVer ++ [mac 5, mac 4, mac 3, mac 2, mac 1, mac 0] ++ [d.bleConnState]
  let (obtained, d) ← d.answer askModuleHandShake dataP ans
  some (if obtained then d.withUpgrade (d.toUpgrade.withWorld world) else d)

/-- `adv_ctrl_rsp` -/
def advCtrlRsp (P : Platform σ) (dataP : Mem) (d : Device τ σ) : Option (Device τ σ) := do
  let ctrl ← d.param.byte dataP 0 0
  let d :=
    if ctrl = 1 then d.withUpgrade (d.toUpgrade.withWorld (P.mibleGapAdvStart d.world)) else d
  let (_, d) ← d.answer askAdvCtrl dataP [ctrl]
  some d

/-- `set_adv_data_rsp` -/
def setAdvDataRsp (P : Platform σ) (dataP : Mem) (d : Device τ σ) : Option (Device τ σ) := do
  let confStatFlag ← d.param.byte dataP 0 0
  let devMac ← d.param.argv 1
  let resp ← d.param.argv 2
  let (res, u) := d.toUpgrade.call (advertisingInit P confStatFlag dataP resp devMac)
  if res ≠ 0 then some (d.withUpgrade u)
  else do
    let (_, d) ← (d.withUpgrade u).answer askSetAdvData dataP [confStatFlag]
    some d

/-- `upg_request_rsp` -/
def upgRequestRsp (P : Platform σ) (dataP : Mem) (d : Device τ σ) : Option (Device τ σ) := do
  let fwLen ← d.param.word dataP 1
  let (accepted, u) := d.toUpgrade.request P fwLen (SendOps.vars d.tx).log.length
  if accepted then do
    let (obtained, d) ← (d.withUpgrade u).answer askUpgRequest dataP (wordBytes u.iap.pageLen)
    if obtained then d.iapReqRequest 0 else some d
  else some (d.withUpgrade u)

/-- `upg_data_rsp` -/
def upgDataRsp (P : Platform σ) (dataP : Mem) (d : Device τ σ) : Option (Device τ σ) := do
  let curOffset ← d.param.word dataP 0
  let u := d.toUpgrade.storePage P (Upgrade.page dataP) curOffset
  if u.iap.offset < u.iap.fwLen then (d.withUpgrade u).iapReqRequest u.iap.offset
  else
    let (good, u) := u.finish P
    if good then some (d.withUpgrade u) else (d.withUpgrade u).iapDone 1

end Device

/-! ### Dispatch -/

/-- `uart_cmd_list_t` -/
structure UartCmd (τ σ : Type) where
  cmdword : UInt8
  ackword : UInt8
  callback : Platform σ → Mem → Device τ σ → Option (Device τ σ)
  argvlist : Option (List UInt8)

/-- `uart_cmd_list` -/
def uartCmdList : List (UartCmd τ σ) :=
  [⟨cmdModuleHandShake, askModuleHandShake, Device.moduleHandShakeRsp, some [1, 0]⟩,
    ⟨cmdAdvCtrl, askAdvCtrl, Device.advCtrlRsp, some [1, 0]⟩,
    ⟨cmdSetAdvData, askSetAdvData, Device.setAdvDataRsp, some [1, 6, 1, 0]⟩,
    ⟨cmdUpgRequest, askUpgRequest, Device.upgRequestRsp, some [3, 1, 0]⟩,
    ⟨rspUpgData, 0, Device.upgDataRsp, some [4, 1, 0]⟩]

/-- The frame is for the module itself. -/
def toModule (dataP : Mem) : Bool :=
  hdrPdtType dataP = pdttypeBleModule ∨ hdrPdtType dataP = pdttypeBleFlash

/-- The row of the table for a frame to the module itself. -/
def uartCmd (dataP : Mem) : Option (UartCmd τ σ) :=
  if toModule dataP then uartCmdList.find? fun list => hdrCmdId dataP = list.cmdword else none

/-- `uart_protocol_parse` on the frame at `uart_recv_buf`; `dataP` is the memory
from there on, also beyond the buffer. -/
def uartProtocolParse (P : Platform σ) (dataP : Mem) (d : Device τ σ) : Option (Device τ σ) :=
  if procotolCheck dataP = false then some d
  else
    match uartCmd dataP with
    | some list => do
        let d ← list.callback P dataP { d with param := argsParam dataOff list.argvlist d.param }
        if d.rebooted then some d
        else if list.ackword ≠ 0 then some d
        else do
          let tx ← SendOps.markAnswered (hdrSn dataP) (hdrCmdId dataP) d.tx
          some { d with tx }
    | none =>
        if d.bleConnState = 1 then
          some { d with notifyArray := d.notifyArray.pushAll (frameBytes dataP) }
        else some d

end WifiExpander
