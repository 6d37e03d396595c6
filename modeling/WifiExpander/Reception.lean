import Mathlib.Data.List.Induction
import WifiExpander.Frame

/-!
UART reception: the receive side of UARTDRV and the idle interrupt of `app/uart.c`.

`app_uart_init` queues one receive operation into `rxbuf`; the idle interrupt
`APP_USART_IRQ_NAME` takes what has arrived, aborts the operation and queues the
next one. A burst that fills the buffer ends the operation inside the driver, which
calls no callback, and the handler finds nothing to re-arm: from then on reception
is deaf.
-/

namespace WifiExpander

/-! ### The driver -/

/-- `UARTDRV_Buffer_t` of a receive operation; the callback is NULL throughout. -/
structure RxOp where
  data : Nat
  transferCount : Nat
deriving DecidableEq

inductive Ecode where
  | ok
  | paramError
  | queueFull
  | idle
deriving DecidableEq

/-- The receive side of a UARTDRV handle and the memory it writes to. -/
structure Uartdrv where
  /-- the oldest operation, which is the one under way, first -/
  rxQueue : List RxOp
  rxDmaActive : Bool
  /-- what the DMA channel was started for, and how many items it still expects -/
  dma : RxOp
  remaining : Nat
  ram : Mem

/-- `EMDRV_UARTDRV_MAX_CONCURRENT_RX_BUFS` -/
def maxConcurrentRxBufs : Nat := 6

/-- `DMADRV_MAX_XFER_COUNT` -/
def maxXferCount : Nat := 2048

namespace Uartdrv

/-- `StartReceiveDma` -/
def startReceiveDma (d : Uartdrv) (buffer : RxOp) : Uartdrv :=
  { d with rxDmaActive := true, dma := buffer, remaining := buffer.transferCount }

/-- `UARTDRV_Receive(handle, data, count, NULL)` -/
def receive (d : Uartdrv) (data count : Nat) : Ecode × Uartdrv :=
  if count = 0 ∨ count > maxXferCount then (.paramError, d)
  else if d.rxQueue.length ≥ maxConcurrentRxBufs then (.queueFull, d)
  else
    let buffer : RxOp := ⟨data, count⟩
    let d := { d with rxQueue := d.rxQueue ++ [buffer] }
    if d.rxDmaActive then (.ok, d) else (.ok, d.startReceiveDma buffer)

/-- `ReceiveDmaComplete` -/
def receiveDmaComplete (d : Uartdrv) : Uartdrv :=
  let d := { d with rxQueue := d.rxQueue.tail }
  match d.rxQueue with
  | buffer :: _ => d.startReceiveDma buffer
  | [] => { d with rxDmaActive := false }

/-- `UARTDRV_GetReceiveStatus`: the buffer, or `none` for NULL, and `itemsReceived` -/
def getReceiveStatus (d : Uartdrv) : Option Nat × Nat :=
  match d.rxQueue with
  | rxBuffer :: _ => (some rxBuffer.data, rxBuffer.transferCount - d.remaining)
  | [] => (none, 0)

/-- `UARTDRV_Abort(handle, uartdrvAbortReceive)` -/
def abortReceive (d : Uartdrv) : Ecode × Uartdrv :=
  match d.rxQueue with
  | [] => (.idle, d)
  | _ :: _ => (.ok, { d with rxDmaActive := false, rxQueue := [] })

/-- A byte arrives on the line. Without a transfer under way it is lost. -/
def arrive (d : Uartdrv) (b : UInt8) : Uartdrv :=
  if d.rxDmaActive then
    let d := { d with
      ram := d.ram.set (d.dma.data + (d.dma.transferCount - d.remaining)) b
      remaining := d.remaining - 1 }
    if d.remaining = 0 then d.receiveDmaComplete else d
  else d

end Uartdrv

/-! ### The interrupt handler -/

def buffSize : Nat := 1024

/-- Where `rxbuf` lies in `ram`. -/
def rxbuf : Nat := 0

/-- The driver, and the arguments of every call of `uart_recv` so far. -/
structure Reception where
  drv : Uartdrv
  passed : List (List UInt8)

/-- `app_uart_init` on an initialised driver -/
def appUartInit (ram : Mem) : Reception :=
  ⟨((⟨[], false, ⟨rxbuf, 0⟩, 0, ram⟩ : Uartdrv).receive rxbuf buffSize).2, []⟩

/-- `APP_USART_IRQ_NAME` with the idle flag set -/
def appUsartIrq (s : Reception) : Reception :=
  match s.drv.getReceiveStatus with
  | (none, _) => s
  | (some buffer, received) =>
      if received ≥ 1 then
        let passed := s.passed ++ [s.drv.ram.bytes buffer received]
        let drv := s.drv.abortReceive.2
        ⟨(drv.receive rxbuf buffSize).2, passed⟩
      else s

/-- A burst, and the idle interrupt after it. -/
def Reception.burst (s : Reception) (bs : List UInt8) : Reception :=
  appUsartIrq { s with drv := bs.foldl Uartdrv.arrive s.drv }

def Reception.run (s : Reception) (bursts : List (List UInt8)) : Reception :=
  bursts.foldl Reception.burst s

/-- After every interrupt one operation into `rxbuf` is queued, and `uart_recv` was
passed what arrived. -/
def Receives (ram : Mem) (bursts : List (List UInt8)) : Prop :=
  ∀ sofar rest, bursts = sofar ++ rest →
    ((appUartInit ram).run sofar).drv.rxQueue = [⟨rxbuf, buffSize⟩] ∧
      ((appUartInit ram).run sofar).passed.flatten = sofar.flatten

/-! ### A burst byte by byte -/

/-- The operation into `rxbuf` is under way and has stored `got`. -/
structure Uartdrv.Receiving (d : Uartdrv) (got : List UInt8) : Prop where
  queued : d.rxQueue = [⟨rxbuf, buffSize⟩]
  active : d.rxDmaActive = true
  dma : d.dma = ⟨rxbuf, buffSize⟩
  counted : got.length + d.remaining = buffSize
  room : got.length < buffSize
  stored : d.ram.bytes rxbuf got.length = got

/-- Nothing is queued. -/
structure Uartdrv.Deaf (d : Uartdrv) : Prop where
  queued : d.rxQueue = []
  inactive : d.rxDmaActive = false

namespace Uartdrv

theorem Receiving.arrive {d : Uartdrv} {got : List UInt8} (h : d.Receiving got) (b : UInt8)
    (hroom : got.length + 1 < buffSize) : (d.arrive b).Receiving (got ++ [b]) := by
  have hcounted := h.counted
  have hat : d.dma.data + (d.dma.transferCount - d.remaining) = rxbuf + got.length := by
    rw [h.dma]
    change rxbuf + (buffSize - d.remaining) = _
    omega
  have hmore : d.remaining - 1 ≠ 0 := by omega
  unfold Uartdrv.arrive
  rw [if_pos h.active, hat]
  simp only [hmore, if_false]
  constructor
  · exact h.queued
  · exact h.active
  · exact h.dma
  · rw [List.length_append, List.length_singleton]
    change got.length + 1 + (d.remaining - 1) = buffSize
    omega
  · simpa using hroom
  · rw [List.length_append, List.length_singleton, Mem.bytes_succ]
    change (d.ram.set (rxbuf + got.length) b).bytes rxbuf got.length ++
      [d.ram.set (rxbuf + got.length) b _] = _
    rw [Mem.set_self]
    refine congrArg (· ++ [b]) ((Mem.bytes_congr ?_).trans h.stored)
    intro i hi
    exact Mem.set_of_ne (by omega)

/-- The last free byte of the buffer ends the operation. -/
theorem Receiving.fill {d : Uartdrv} {got : List UInt8} (h : d.Receiving got) (b : UInt8)
    (hfull : got.length + 1 = buffSize) : (d.arrive b).Deaf := by
  have hcounted := h.counted
  have hlast : d.remaining - 1 = 0 := by omega
  unfold Uartdrv.arrive receiveDmaComplete
  rw [if_pos h.active]
  simp only [hlast, if_true, h.queued, List.tail_cons]
  exact ⟨rfl, rfl⟩

theorem Deaf.arrive {d : Uartdrv} (h : d.Deaf) (b : UInt8) : (d.arrive b).Deaf := by
  unfold Uartdrv.arrive
  rw [if_neg (by simp [h.inactive])]
  exact h

theorem Deaf.arriveAll {d : Uartdrv} (h : d.Deaf) (bs : List UInt8) :
    (bs.foldl Uartdrv.arrive d).Deaf := by
  induction bs generalizing d with
  | nil => exact h
  | cons b bs ih => exact ih (h.arrive b)

/-- A burst into a waiting operation is stored, or fills the buffer. -/
theorem Receiving.arriveAll {d : Uartdrv} {got : List UInt8} (h : d.Receiving got)
    (bs : List UInt8) :
    if got.length + bs.length < buffSize then (bs.foldl Uartdrv.arrive d).Receiving (got ++ bs)
    else (bs.foldl Uartdrv.arrive d).Deaf := by
  induction bs generalizing d got with
  | nil =>
      rw [if_pos (by simpa using h.room)]
      simpa using h
  | cons b bs ih =>
      rw [List.length_cons, List.foldl_cons]
      by_cases hroom : got.length + 1 < buffSize
      · have hnext := ih (h.arrive b hroom)
        rw [List.length_append, List.length_singleton, List.append_assoc] at hnext
        rw [Nat.add_comm bs.length 1, ← Nat.add_assoc]
        exact hnext
      · have hfull : got.length + 1 = buffSize := by
          have := h.room
          omega
        rw [if_neg (by omega)]
        exact (h.fill b hfull).arriveAll bs

end Uartdrv

/-! ### The handler -/

/-- A receive operation queued on an idle driver. -/
theorem Uartdrv.Deaf.receive {d : Uartdrv} (h : d.Deaf) :
    (d.receive rxbuf buffSize).2.Receiving [] := by
  have hstart : (d.receive rxbuf buffSize).2 =
      { d with
        rxQueue := [⟨rxbuf, buffSize⟩]
        rxDmaActive := true
        dma := ⟨rxbuf, buffSize⟩
        remaining := buffSize } := by
    unfold Uartdrv.receive
    rw [if_neg (by decide), if_neg (by rw [h.queued]; decide)]
    simp only [h.inactive, h.queued, List.nil_append, Bool.false_eq_true, if_false]
    rfl
  rw [hstart]
  exact ⟨rfl, rfl, rfl, rfl, by decide, rfl⟩

/-- Waiting for the next burst. -/
def Reception.Armed (s : Reception) : Prop := s.drv.Receiving []

theorem appUartInit_armed (ram : Mem) : (appUartInit ram).Armed :=
  Uartdrv.Deaf.receive ⟨rfl, rfl⟩

/-- The interrupt passes on what is in the buffer and arms the next operation. -/
theorem appUsartIrq_receiving {s : Reception} {got : List UInt8} (h : s.drv.Receiving got) :
    (appUsartIrq s).Armed ∧ (appUsartIrq s).passed.flatten = s.passed.flatten ++ got := by
  have hcounted := h.counted
  have hreceived : buffSize - s.drv.remaining = got.length := by omega
  have hstatus : s.drv.getReceiveStatus = (some rxbuf, got.length) := by
    unfold Uartdrv.getReceiveStatus
    rw [h.queued]
    simp only [hreceived]
  unfold appUsartIrq
  rw [hstatus]
  dsimp only
  by_cases hsome : got.length ≥ 1
  · have haborted : s.drv.abortReceive.2.Deaf := by
      unfold Uartdrv.abortReceive
      rw [h.queued]
      exact ⟨rfl, rfl⟩
    rw [if_pos hsome, h.stored]
    refine ⟨haborted.receive, ?_⟩
    rw [List.flatten_concat]
  · have hnone : got = [] := List.eq_nil_of_length_eq_zero (by omega)
    subst hnone
    rw [if_neg hsome]
    exact ⟨h, (List.append_nil _).symm⟩

theorem appUsartIrq_deaf {s : Reception} (h : s.drv.Deaf) : appUsartIrq s = s := by
  unfold appUsartIrq Uartdrv.getReceiveStatus
  rw [h.queued]

/-- A burst that leaves room in the buffer. -/
theorem Reception.Armed.burst {s : Reception} (h : s.Armed) {bs : List UInt8}
    (hlen : bs.length < buffSize) :
    (s.burst bs).Armed ∧ (s.burst bs).passed.flatten = s.passed.flatten ++ bs := by
  have hstored := Uartdrv.Receiving.arriveAll h bs
  rw [if_pos (by simpa using hlen)] at hstored
  exact appUsartIrq_receiving hstored

/-- A burst that fills the buffer: none of it is passed on, and nothing is queued. -/
theorem Reception.Armed.burst_full {s : Reception} (h : s.Armed) {bs : List UInt8}
    (hlen : buffSize ≤ bs.length) : (s.burst bs).drv.Deaf ∧ (s.burst bs).passed = s.passed := by
  have hfull := Uartdrv.Receiving.arriveAll h bs
  rw [if_neg (by simpa using hlen)] at hfull
  rw [Reception.burst, appUsartIrq_deaf hfull]
  exact ⟨hfull, rfl⟩

theorem Reception.run_concat (s : Reception) (bursts : List (List UInt8)) (bs : List UInt8) :
    s.run (bursts ++ [bs]) = (s.run bursts).burst bs := by
  simp [Reception.run]

/-- After that nothing is ever passed on again. -/
theorem Reception.run_deaf {s : Reception} (h : s.drv.Deaf) (bursts : List (List UInt8)) :
    (s.run bursts).drv.Deaf ∧ (s.run bursts).passed = s.passed := by
  induction bursts using List.reverseRecOn with
  | nil => exact ⟨h, rfl⟩
  | append_singleton bursts bs ih =>
      obtain ⟨hdeaf, hpassed⟩ := ih
      have hstill := hdeaf.arriveAll bs
      rw [run_concat, burst, appUsartIrq_deaf hstill]
      exact ⟨hstill, hpassed⟩

theorem Reception.Armed.run {s : Reception} (h : s.Armed) {bursts : List (List UInt8)}
    (hlen : ∀ bs ∈ bursts, bs.length < buffSize) :
    (s.run bursts).Armed ∧ (s.run bursts).passed.flatten = s.passed.flatten ++ bursts.flatten := by
  induction bursts using List.reverseRecOn with
  | nil => exact ⟨h, by simp [Reception.run]⟩
  | append_singleton bursts bs ih =>
      obtain ⟨harmed, hpassed⟩ := ih fun b hb => hlen b (List.mem_append_left _ hb)
      obtain ⟨hnext, hmore⟩ := harmed.burst (hlen bs (by simp))
      rw [run_concat]
      refine ⟨hnext, ?_⟩
      rw [hmore, hpassed, List.flatten_concat, List.append_assoc]

/-- Reception works exactly as long as every burst leaves a byte of the buffer free. -/
theorem receives_iff (ram : Mem) (bursts : List (List UInt8)) :
    Receives ram bursts ↔ ∀ bs ∈ bursts, bs.length < buffSize := by
  constructor
  · intro h
    induction bursts using List.reverseRecOn with
    | nil => simp
    | append_singleton bursts bs ih =>
        have hbefore : ∀ b ∈ bursts, b.length < buffSize := by
          apply ih
          intro sofar rest hsplit
          exact h sofar (rest ++ [bs]) (by rw [hsplit, List.append_assoc])
        have harmed := ((appUartInit_armed ram).run hbefore).1
        have hqueued := (h (bursts ++ [bs]) [] (List.append_nil _).symm).1
        intro b hb
        rcases List.mem_append.mp hb with hb | hb
        · exact hbefore b hb
        · rw [List.mem_singleton.mp hb]
          by_contra hfull
          have hdeaf := (harmed.burst_full (Nat.le_of_not_lt hfull)).1.queued
          rw [Reception.run_concat, hdeaf] at hqueued
          cases hqueued
  · intro hlen sofar rest hsplit
    have hsofar : ∀ bs ∈ sofar, bs.length < buffSize := by
      intro bs hbs
      exact hlen bs (by rw [hsplit]; exact List.mem_append_left rest hbs)
    obtain ⟨harmed, hpassed⟩ := (appUartInit_armed ram).run hsofar
    refine ⟨harmed.queued, ?_⟩
    rw [hpassed]
    rfl

/-- A burst of the size of the buffer. -/
def fullBurst : List UInt8 := List.replicate buffSize 0

/-- It is lost, and so is the byte that comes after it. -/
theorem full_burst_deafens : ¬ Receives (fun _ => 0) [fullBurst, [1]] ∧
    ((appUartInit fun _ => 0).run [fullBurst, [1]]).passed = [] := by
  have hlong : buffSize ≤ fullBurst.length := Nat.le_of_eq List.length_replicate.symm
  generalize fullBurst = bs at hlong ⊢
  obtain ⟨hdeaf, hpassed⟩ := (appUartInit_armed fun _ => 0).burst_full hlong
  constructor
  · intro h
    have hqueued := (h [bs] [[1]] rfl).1
    change ((appUartInit fun _ => 0).burst bs).drv.rxQueue = _ at hqueued
    rw [hdeaf.queued] at hqueued
    cases hqueued
  · exact (Reception.run_deaf hdeaf [[1]]).2.trans hpassed

end WifiExpander
