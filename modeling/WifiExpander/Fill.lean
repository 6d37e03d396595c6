import WifiExpander.Producers

/-!
What a call writes to its buffer.

The three kinds of calls that send fill a buffer in their own way. Whatever it
held before, its frame is then the one that belongs to the arguments of the call
(`Call.fill_bytes`), ready to be transmitted.
-/

namespace WifiExpander

def Call.fill : Call → UInt8 → UartSendFormat → UartSendFormat
  | .dispose info, sn => disposeFill info sn
  | .ask cmdId req ans, _ => askFill cmdId req ans
  | .forward bleRecvBuf, _ => forwardFill bleRecvBuf

def Call.nextSn : Call → UInt8 → UInt8
  | .dispose _, sn => sn + 1
  | _, sn => sn

def Call.pollType : Call → Nat
  | .dispose info => info.pollType
  | _ => 0

/-- What a call links is of its type. -/
theorem Call.fill_type (c : Call) (sn : UInt8) (f : UartSendFormat) :
    (c.fill sn f).poll.type = c.pollType := by
  cases c <;> rfl

/-! ### The bytes of a frame -/

/-- The frame a call sends when it reads the sequence number `sn`. -/
def Call.bytes : Call → UInt8 → List UInt8
  | .dispose info, sn => mdlFrame sn info.pdtType info.cmdId info.data
  | .ask cmdId req ans, _ => mdlFrame (hdrSn req) (hdrPdtType req) cmdId ans
  | .forward bleRecvBuf, _ => frameBytes bleRecvBuf

/-- A buffer whose header and data are in place, and then its checksum. -/
theorem bytes_eq_mdlFrame {c : Mem} {sn pdtType cmdId : UInt8} {data : List UInt8}
    (h0 : c 0 = wifiampMdlHeader) (h1 : c 1 = UInt8.ofNat ((data.length + 4) >>> 8))
    (h2 : c 2 = UInt8.ofNat (data.length + 4)) (h3 : c 3 = 0) (h4 : c 4 = sn) (h5 : c 5 = pdtType)
    (h6 : c 6 = cmdId) (hdata : c.bytes dataOff data.length = data) :
    (c.set (dataOff + data.length) (checkSumCal (c.bytes staParamOff (data.length + 4)))).bytes 0
      (data.length + 4 + 4) = mdlFrame sn pdtType cmdId data := by
  have hsplit : ∀ m : Mem, m.bytes 0 (data.length + 4 + 4) =
      m.bytes 0 7 ++ m.bytes 7 data.length ++ [m (7 + data.length)] := by
    intro m
    rw [show data.length + 4 + 4 = 7 + data.length + 1 by omega, Mem.bytes_succ, Mem.bytes_add]
    simp
  have hbody : c.bytes staParamOff (data.length + 4) = frameBody sn pdtType cmdId data := by
    have hfour : c.bytes 3 4 = [0, sn, pdtType, cmdId] := by
      simp [Mem.bytes, List.range_succ, h3, h4, h5, h6]
    rw [Nat.add_comm, staParamOff, Mem.bytes_add, hfour, frameBody]
    rw [dataOff] at hdata
    rw [show 3 + 4 = 7 by rfl, hdata]
  have hlen : (frameBody sn pdtType cmdId data).length = data.length + 4 := by simp [frameBody]
  set v := checkSumCal (c.bytes staParamOff (data.length + 4)) with hv
  have hcopy : ∀ off n, off + n ≤ dataOff + data.length →
      (c.set (dataOff + data.length) v).bytes off n = c.bytes off n := fun off n hle =>
    Mem.bytes_congr fun i hi => Mem.set_of_ne (by omega)
  have hhead : (c.set (dataOff + data.length) v).bytes 0 7 =
      [wifiampMdlHeader, UInt8.ofNat ((data.length + 4) >>> 8), UInt8.ofNat (data.length + 4),
        0, sn, pdtType, cmdId] := by
    rw [hcopy 0 7 (by unfold dataOff; omega)]
    simp [Mem.bytes, List.range_succ, h0, h1, h2, h3, h4, h5, h6]
  have hmid : (c.set (dataOff + data.length) v).bytes 7 data.length = data := by
    rw [hcopy 7 data.length le_rfl]
    exact hdata
  have hlast : (c.set (dataOff + data.length) v) (7 + data.length) =
      checkSumCal (frameBody sn pdtType cmdId data) := by
    rw [← hbody, ← hv]
    exact Mem.set_self ..
  rw [hsplit, hhead, hmid, hlast]
  simp only [mdlFrame, wireFrame, hlen]
  simp only [frameBody, List.cons_append, List.nil_append]

theorem disposeFill_frame (info : SendInfo) (sn : UInt8) (f : UartSendFormat) :
    (disposeFill info sn f).frame = mdlFrame sn info.pdtType info.cmdId info.data := by
  unfold disposeFill UartSendFormat.frame
  refine bytes_eq_mdlFrame ?_ ?_ ?_ ?_ ?_ ?_ ?_ (Mem.bytes_write ..) <;>
    (rw [Mem.write_of_lt (by decide)]; simp [Mem.set])

theorem disposeFill_hdrSn (info : SendInfo) (sn : UInt8) (f : UartSendFormat) :
    hdrSn (disposeFill info sn f).cmd = sn := by
  unfold disposeFill hdrSn
  dsimp only
  rw [Mem.set_of_ne (by unfold dataOff; omega), Mem.write_of_lt (by decide)]
  simp [Mem.set]

theorem disposeFill_hdrCmdId (info : SendInfo) (sn : UInt8) (f : UartSendFormat) :
    hdrCmdId (disposeFill info sn f).cmd = info.cmdId := by
  unfold disposeFill hdrCmdId
  dsimp only
  rw [Mem.set_of_ne (by unfold dataOff; omega), Mem.write_of_lt (by decide)]
  simp [Mem.set]

theorem askFill_frame (cmdId : UInt8) (req : Mem) {ans : List UInt8} (f : UartSendFormat)
    (hans : ans.length < uartProcotolMaxLen) :
    (askFill cmdId req ans f).frame = mdlFrame (hdrSn req) (hdrPdtType req) cmdId ans := by
  have hlen : ans.length + 4 < 65536 := by
    unfold uartProcotolMaxLen at hans
    omega
  unfold askFill UartSendFormat.frame
  dsimp only
  have hdata : ∀ (c : Mem) (a b : UInt8),
      (((c.write dataOff ans).set 1 a).set 2 b).bytes dataOff ans.length = ans := by
    intro c a b
    rw [Mem.bytes_congr fun i _ => (Mem.set_of_ne (by unfold dataOff; omega)).trans
      (Mem.set_of_ne (by unfold dataOff; omega))]
    exact Mem.bytes_write ..
  rw [Nat.add_sub_cancel, hdrLength_of_split hlen]
  · exact bytes_eq_mdlFrame (by simp [Mem.set, Mem.write, dataOff]) (by simp [Mem.set])
      (by simp [Mem.set]) (by simp [Mem.set, Mem.write, dataOff])
      (by simp [Mem.set, Mem.write, dataOff]) (by simp [Mem.set, Mem.write, dataOff])
      (by simp [Mem.set, Mem.write, dataOff]) (hdata ..)
  all_goals
    rw [Mem.set_of_ne (by unfold dataOff; omega)]
    simp [Mem.set]

theorem forwardFill_frame (c : Mem) (f : UartSendFormat) :
    (forwardFill c f).frame = frameBytes c := by
  have := Mem.bytes_write f.cmd 0 (c.bytes 0 (hdrLength c + 4))
  rw [Mem.length_bytes] at this
  exact this

theorem Call.fill_bytes {t : Task} {c : Call} (hmakes : t.makes c = true) (sn : UInt8)
    (f : UartSendFormat) :
    (c.fill sn f).frame = c.bytes sn ∧ (c.fill sn f).poll.type = c.pollType := by
  cases c with
  | dispose info => exact ⟨disposeFill_frame info sn f, rfl⟩
  | ask cmdId req ans =>
      refine ⟨askFill_frame cmdId req f ?_, rfl⟩
      cases t <;> simp_all [Task.makes]
  | forward bleRecvBuf => exact ⟨forwardFill_frame bleRecvBuf f, rfl⟩

end WifiExpander
