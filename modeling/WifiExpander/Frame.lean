import Mathlib.Data.List.Basic
import Mathlib.Logic.Function.Basic

/-!
Frames in memory: `uart_cmd_format_t`, the constants of `app/uart_ptl.h` and
`app/uart_communicate.h`, and the checks on a received frame.

A frame is read through byte offsets, as the C code does when it runs the
checksum from `header.sta_param` into `data`: the seven header bytes come first
and `data[i]` is byte `7 + i`.
-/

namespace WifiExpander

/-- The bytes of memory from some base address on. -/
abbrev Mem := Nat → UInt8

/-- The `n` bytes at `p`. -/
def Mem.bytes (m : Mem) (p n : Nat) : List UInt8 :=
  (List.range n).map fun i => m (p + i)

/-- `memcpy(p, bs, sizeof bs)` -/
def Mem.write (m : Mem) (p : Nat) (bs : List UInt8) : Mem := fun i =>
  if p ≤ i ∧ i < p + bs.length then bs.getD (i - p) 0 else m i

/-- `*p = v` -/
def Mem.set (m : Mem) (p : Nat) (v : UInt8) : Mem := fun i => if i = p then v else m i

/-! ### Constants -/

def uartProcotolMaxLen : Nat := 400

def wifiampDevHeader : UInt8 := 0xD0
def wifiampAppHeader : UInt8 := 0xC0
def wifiampMdlHeader : UInt8 := 0xC0

def pdttypeBleModule : UInt8 := 0xFF
def pdttypeBleFlash : UInt8 := 0xF0

def ntfConnState : UInt8 := 0x10
def cmdModuleHandShake : UInt8 := 0x13
def askModuleHandShake : UInt8 := 0x13
def cmdAdvCtrl : UInt8 := 0x11
def askAdvCtrl : UInt8 := 0x11
def cmdSetAdvData : UInt8 := 0x12
def askSetAdvData : UInt8 := 0x12
def cmdUpgRequest : UInt8 := 0xD1
def askUpgRequest : UInt8 := 0xD1
def reqUpgData : UInt8 := 0xD2
def rspUpgData : UInt8 := 0xD2
def ntfUpgDone : UInt8 := 0xD3

def fwVer : List UInt8 := [0x1, 0x1, 0x3]
def hwVer : List UInt8 := [0x1, 0x0, 0x0]

/-! ### Header fields -/

/-- `sizeof(uart_cmd_format_t)` -/
def sizeofUartCmdFormat : Nat := 407

def hdrSn (c : Mem) : UInt8 := c 4
def hdrPdtType (c : Mem) : UInt8 := c 5
def hdrCmdId (c : Mem) : UInt8 := c 6

/-- Offset of `header.sta_param` -/
def staParamOff : Nat := 3

/-- Offset of `data` -/
def dataOff : Nat := 7

/-- `(header.length_msb << 8) + header.length_lsb` -/
def hdrLength (c : Mem) : Nat := (c 1).toNat <<< 8 + (c 2).toNat

theorem hdrLength_eq (c : Mem) : hdrLength c = (c 1).toNat * 256 + (c 2).toNat := by
  simp [hdrLength, Nat.shiftLeft_eq]

theorem hdrLength_lt (c : Mem) : hdrLength c < 65536 := by
  rw [hdrLength_eq]
  have := (c 1).toNat_lt
  have := (c 2).toNat_lt
  omega

/-- Splitting a length into its two bytes and putting it together again. -/
theorem hdrLength_of_split {c : Mem} {n : Nat} (hn : n < 65536) (h1 : c 1 = UInt8.ofNat (n >>> 8))
    (h2 : c 2 = UInt8.ofNat n) : hdrLength c = n := by
  rw [hdrLength_eq, h1, h2]
  simp only [UInt8.toNat_ofNat', Nat.shiftRight_eq_div_pow]
  omega

/-- The bytes of the frame at the start of `c`: its length field plus four. -/
def frameBytes (c : Mem) : List UInt8 := c.bytes 0 (hdrLength c + 4)

/-! ### Checks -/

/-- `check_sum_cal` -/
def checkSumCal (p : List UInt8) : UInt8 :=
  (p.foldl (fun tmp b => tmp + b.toUInt32) (0 : UInt32)).toUInt8

/-- `procotol_check` -/
def procotolCheck (c : Mem) : Bool :=
  let dataLen := hdrLength c
  if dataLen < 4 then false
  else
    let checkValue := checkSumCal (c.bytes staParamOff dataLen)
    c (dataOff + (dataLen - 4)) == checkValue

/-! ### Building frames -/

/-- What the checksum of a frame covers, from `sta_param` on. -/
def frameBody (sn pdtType cmdId : UInt8) (data : List UInt8) : List UInt8 :=
  [0, sn, pdtType, cmdId] ++ data

/-- A frame with header byte `head`. -/
def wireFrame (head sn pdtType cmdId : UInt8) (data : List UInt8) : List UInt8 :=
  let body := frameBody sn pdtType cmdId data
  [head, UInt8.ofNat (body.length >>> 8), UInt8.ofNat body.length] ++ body ++ [checkSumCal body]

/-- A frame of the module. -/
def mdlFrame : UInt8 → UInt8 → UInt8 → List UInt8 → List UInt8 := wireFrame wifiampMdlHeader

/-- Memory that begins with these bytes. -/
def Mem.ofList (bs : List UInt8) : Mem := fun i => bs.getD i 0

/-! ### Reading memory -/

@[simp] theorem Mem.length_bytes (m : Mem) (p n : Nat) : (m.bytes p n).length = n := by
  simp [Mem.bytes]

theorem Mem.getElem_bytes {m : Mem} {p n i : Nat} (h : i < (m.bytes p n).length) :
    (m.bytes p n)[i] = m (p + i) := by
  simp [Mem.bytes]

theorem Mem.bytes_congr {m m' : Mem} {p n : Nat} (same : ∀ i < n, m (p + i) = m' (p + i)) :
    m.bytes p n = m'.bytes p n := by
  unfold Mem.bytes
  exact List.map_congr_left fun i hi => same i (List.mem_range.mp hi)

theorem Mem.bytes_succ (m : Mem) (p n : Nat) : m.bytes p (n + 1) = m.bytes p n ++ [m (p + n)] := by
  simp [Mem.bytes, List.range_succ]

theorem Mem.bytes_add (m : Mem) (p a b : Nat) :
    m.bytes p (a + b) = m.bytes p a ++ m.bytes (p + a) b := by
  simp only [Mem.bytes, List.range_add, List.map_append, List.map_map]
  congr 1
  exact List.map_congr_left fun i _ => by simp [Nat.add_assoc]

@[simp] theorem Mem.set_self (m : Mem) (p : Nat) (v : UInt8) : (m.set p v) p = v := by
  simp [Mem.set]

theorem Mem.set_of_ne {m : Mem} {p i : Nat} {v : UInt8} (h : i ≠ p) : (m.set p v) i = m i := by
  simp [Mem.set, h]

theorem Mem.write_of_lt {m : Mem} {p i : Nat} {bs : List UInt8} (h : i < p) :
    (m.write p bs) i = m i := by
  simp only [Mem.write]
  exact if_neg fun hi => by omega

theorem Mem.bytes_write (m : Mem) (p : Nat) (bs : List UInt8) :
    (m.write p bs).bytes p bs.length = bs := by
  apply List.ext_getElem (by simp)
  intro i hi hi'
  rw [Mem.getElem_bytes]
  simp [Mem.write, List.getD_eq_getElem?_getD, hi']

theorem four_le_hdrLength {c : Mem} (h : procotolCheck c = true) : 4 ≤ hdrLength c := by
  by_contra hlt
  simp [procotolCheck, Nat.lt_of_not_le hlt] at h

/-- The frame checks read only the bytes of the frame. -/
theorem procotolCheck_congr {c c' : Mem} (len : hdrLength c = hdrLength c')
    (same : ∀ i < hdrLength c + 4, c i = c' i) : procotolCheck c = procotolCheck c' := by
  unfold procotolCheck
  simp only [← len]
  split
  · rfl
  · rename_i h
    have h4 : 4 ≤ hdrLength c := Nat.le_of_not_lt h
    have hsum : c.bytes staParamOff (hdrLength c) = c'.bytes staParamOff (hdrLength c) :=
      Mem.bytes_congr fun i hi => same _ (by unfold staParamOff; omega)
    rw [hsum, same _ (by unfold dataOff; omega)]

end WifiExpander
