import WifiExpander.Parse

/-!
Which commands are interpreted from the received frame alone?

`uart_recv_buf` still holds the bytes of earlier frames after the current one.
`ArgsParam` computes argument pointers from a fixed layout and `set_adv_data_rsp`
searches the end of a string, so a short frame can be read beyond its end.
`WithinFrame` says for which frames that makes no difference. `upg_data_rsp` computes
its indices from the length field; `PageInside` says that they stay in the payload.
-/

namespace WifiExpander

open WifiExpander.Theory

variable {σ τ : Type}

/-! ### The property -/

/-- The same frame, possibly with other bytes after it in `uart_recv_buf`. -/
def SameFrame (c c' : Mem) : Prop :=
  ∀ i, i < hdrLength c + 4 ∨ sizeofUartCmdFormat ≤ i → c' i = c i

/-- What a parsed frame does: what the BLE stack and the bootloader were told,
`iap_str`, and the send path with the reply. -/
def Device.effect (d : Device τ σ) : σ × IapStr × τ := (d.world, d.iap, d.tx)

/-- `uart_protocol_parse` does the same whatever earlier frames have left behind. -/
def FromFrameOnly (c : Mem) : Prop :=
  ∀ (σ : Type) (P : Platform σ) (d : Device Tx σ) (c' : Mem), SameFrame c c' →
    (uartProtocolParse P c' d).map Device.effect = (uartProtocolParse P c d).map Device.effect

/-- The frame with zeros after it. -/
def Mem.frameOnly (c : Mem) : Mem := fun i =>
  if i < hdrLength c + 4 ∨ sizeofUartCmdFormat ≤ i then c i else 0

/-- Where `set_adv_data_rsp` takes the name from -/
def nameOff : Nat := dataOff + 1 + 6

/-- The frame is long enough for what its handler looks at, the name it carries ends
inside it, or what there is of the announced length is already too much. -/
def WithinFrame (c : Mem) : Prop :=
  (hdrCmdId c = cmdSetAdvData →
    39 ≤ hdrLength c ∨ ∃ i, nameOff ≤ i ∧ i < hdrLength c + 4 ∧ c i = 0) ∧
  (hdrCmdId c = cmdUpgRequest →
    10 ≤ hdrLength c ∨ Upgrade.announced c.frameOnly > Upgrade.maxFwLen)

section

variable {c c' : Mem}

theorem SameFrame.procotolCheck (same : SameFrame c c') (h : procotolCheck c = true) :
    WifiExpander.procotolCheck c' = true := by
  have hlow := four_le_hdrLength h
  have hlen : hdrLength c' = hdrLength c := by
    rw [hdrLength, hdrLength, same 1 (.inl (by omega)), same 2 (.inl (by omega))]
  rw [← h]
  exact procotolCheck_congr hlen fun i hi => same i (.inl (hlen ▸ hi))

theorem SameFrame.accepts {cmd : UInt8} (same : SameFrame c c') (h : accepts cmd c = true) :
    WifiExpander.accepts cmd c' = true := by
  simp only [WifiExpander.accepts, Bool.and_eq_true] at h ⊢
  have hlow := four_le_hdrLength h.1.1
  have hcmd : hdrCmdId c' = hdrCmdId c := same 6 (.inl (by omega))
  have hpdt : hdrPdtType c' = hdrPdtType c := same 5 (.inl (by omega))
  rw [toModule, hcmd, hpdt]
  exact ⟨⟨same.procotolCheck h.1.1, h.1.2⟩, h.2⟩

theorem SameFrame.frameOnly (c : Mem) : SameFrame c c.frameOnly := fun _ hi => if_pos hi

end

/-! ### What the handlers read -/

section

variable [SendOps τ] {P : Platform σ} {c c' : Mem} {d : Device τ σ}

/-- The reply has the sequence number and the product type of the frame, and nothing
else of it. -/
theorem answer_congr (hsn : hdrSn c' = hdrSn c) (hpdt : hdrPdtType c' = hdrPdtType c)
    (cmdId : UInt8) (ans : List UInt8) : d.answer cmdId c' ans = d.answer cmdId c ans := by
  have hfill : askFill cmdId c' ans = askFill cmdId c ans := by
    funext f
    simp only [askFill, hsn, hpdt]
  simp only [Device.answer, SendOps.send, Sys.fillCall, hfill, Call.static]

/-- `strlen` stops at the first zero. -/
theorem strlenUpTo_eq_some {n p len : Nat} :
    strlenUpTo n c p = some len ↔
      len ≤ n ∧ c (p + len) = 0 ∧ ∀ i < len, c (p + i) ≠ 0 := by
  rw [strlenUpTo, List.find?_range_eq_some]
  simp only [decide_eq_true_eq, List.mem_range, Nat.lt_succ_iff, Bool.not_eq_true',
    decide_eq_false_iff_not]
  tauto

/-- A string that ends at or before index `k` is not read beyond `k`. -/
theorem strlenUpTo_congr {n p k : Nat} (hzero : c (p + k) = 0)
    (same : ∀ i ≤ k, c' (p + i) = c (p + i)) : strlenUpTo n c' p = strlenUpTo n c p := by
  apply Option.ext
  intro len
  rw [strlenUpTo_eq_some, strlenUpTo_eq_some]
  by_cases hlen : len ≤ k
  · apply and_congr_right
    intro _
    rw [same len hlen]
    apply and_congr_right
    intro _
    exact forall₂_congr fun i hi => by rw [same i (Nat.le_trans (Nat.le_of_lt hi) hlen)]
  · have hk : k < len := Nat.lt_of_not_le hlen
    constructor
    · rintro ⟨-, -, h⟩
      exact absurd ((same k (Nat.le_refl k)).trans hzero) (h k hk)
    · rintro ⟨-, -, h⟩
      exact absurd hzero (h k hk)

theorem strlenUpTo_le {n p k len : Nat} (h : strlenUpTo n c p = some len) (hzero : c (p + k) = 0) :
    len ≤ k := by
  by_contra hlt
  exact (strlenUpTo_eq_some.mp h).2.2 k (Nat.lt_of_not_le hlt) hzero

theorem advertisingInit_congr {flag : UInt8} {resp devMac : Nat}
    (hlen : strlenUpTo 28 c' resp = strlenUpTo 28 c resp)
    (hread : ∀ len, strlenUpTo 28 c resp = some len →
      c'.bytes devMac 6 = c.bytes devMac 6 ∧ c'.bytes resp len = c.bytes resp len) :
    advertisingInit P flag c' resp devMac = advertisingInit P flag c resp devMac := by
  funext w
  simp only [advertisingInit, hlen]
  cases hstr : strlenUpTo 28 c resp with
  | none => rfl
  | some len =>
      obtain ⟨hmac, hname⟩ := hread len hstr
      simp only [hmac, hname]

theorem advCtrlRsp_congr {p : Param} (hsn : hdrSn c' = hdrSn c)
    (hpdt : hdrPdtType c' = hdrPdtType c) (hctrl : c' dataOff = c dataOff) :
    Device.advCtrlRsp P c' { d with param := argsParam dataOff (some [1, 0]) p } =
      Device.advCtrlRsp P c { d with param := argsParam dataOff (some [1, 0]) p } := by
  have hbyte : ∀ m : Mem, (argsParam dataOff (some [1, 0]) p).byte m 0 0 = some (m dataOff) :=
    fun _ => rfl
  simp only [Device.advCtrlRsp, hbyte, hctrl, Option.bind_eq_bind, Option.bind_some,
    answer_congr hsn hpdt]

/-- `set_adv_data_rsp` on the arguments that `ArgsParam` gives it. -/
theorem setAdvDataRsp_args {p : Param} :
    Device.setAdvDataRsp P c { d with param := argsParam dataOff (some [1, 6, 1, 0]) p } =
      (let d := { d with param := argsParam dataOff (some [1, 6, 1, 0]) p }
      let (res, u) := d.toUpgrade.call (advertisingInit P (c dataOff) c nameOff (dataOff + 1))
      if res ≠ 0 then some (d.withUpgrade u)
      else do
        let (_, d) ← (d.withUpgrade u).answer askSetAdvData c [c dataOff]
        some d) := rfl

theorem setAdvDataRsp_congr {p : Param} (hsn : hdrSn c' = hdrSn c)
    (hpdt : hdrPdtType c' = hdrPdtType c) (hflag : c' dataOff = c dataOff)
    (hadv : advertisingInit P (c dataOff) c' nameOff (dataOff + 1) =
      advertisingInit P (c dataOff) c nameOff (dataOff + 1)) :
    Device.setAdvDataRsp P c' { d with param := argsParam dataOff (some [1, 6, 1, 0]) p } =
      Device.setAdvDataRsp P c { d with param := argsParam dataOff (some [1, 6, 1, 0]) p } := by
  rw [setAdvDataRsp_args, setAdvDataRsp_args]
  simp only [hflag, hadv, answer_congr hsn hpdt]

/-- `upg_request_rsp` looks at the announced length only through what the transfer
makes of it. -/
theorem upgRequestRsp_congr {p : Param} (hsn : hdrSn c' = hdrSn c)
    (hpdt : hdrPdtType c' = hdrPdtType c)
    (hreq : ∀ mark, d.toUpgrade.request P (Upgrade.announced c') mark =
      d.toUpgrade.request P (Upgrade.announced c) mark) :
    Device.upgRequestRsp P c' { d with param := argsParam dataOff (some [3, 1, 0]) p } =
      Device.upgRequestRsp P c { d with param := argsParam dataOff (some [3, 1, 0]) p } := by
  simp only [Device.upgRequestRsp, Device.argsParam_upgRequest, Option.bind_eq_bind, Option.bind_some,
    hreq, answer_congr hsn hpdt]

/-- Frames that agree where the handler looks are parsed alike. -/
theorem uartProtocolParse_congr {r : UartCmd τ σ} (same : SameFrame c c')
    (hcheck : procotolCheck c = true) (hrow : uartCmd c = some r)
    (hcall : r.callback P c' { d with param := argsParam dataOff r.argvlist d.param } =
      r.callback P c { d with param := argsParam dataOff r.argvlist d.param }) :
    uartProtocolParse P c' d = uartProtocolParse P c d := by
  have hcheck' := same.procotolCheck hcheck
  have hlow := four_le_hdrLength hcheck
  have hcmd : hdrCmdId c' = hdrCmdId c := same 6 (.inl (by omega))
  have hsn : hdrSn c' = hdrSn c := same 4 (.inl (by omega))
  have hpdt : hdrPdtType c' = hdrPdtType c := same 5 (.inl (by omega))
  have hrow' : uartCmd (τ := τ) (σ := σ) c' = some r := by
    rw [← hrow, uartCmd, uartCmd, toModule, toModule, hcmd, hpdt]
  simp only [uartProtocolParse, hcheck, hcheck', hrow, hrow', hcall, hsn, hcmd]

end

/-! ### Frames that are read within their bounds -/

section

variable [SendOps τ] {c c' : Mem}

theorem uartCmd_of_accepts {cmd : UInt8} (h : accepts cmd c = true) :
    procotolCheck c = true ∧ 4 ≤ hdrLength c ∧
      uartCmd (τ := τ) (σ := σ) c = uartCmdList.find? fun list => cmd = list.cmdword := by
  simp only [accepts, Bool.and_eq_true, beq_iff_eq] at h
  exact ⟨h.1.1, four_le_hdrLength h.1.1, by rw [uartCmd, if_pos h.1.2, h.2]⟩

omit [SendOps τ] in
theorem fromFrameOnly_of_parse
    (h : ∀ (σ : Type) (P : Platform σ) (d : Device Tx σ) (c' : Mem), SameFrame c c' →
      uartProtocolParse P c' d = uartProtocolParse P c d) : FromFrameOnly c :=
  fun σ P d c' same => by rw [h σ P d c' same]

theorem handShake_fromFrame (h : accepts cmdModuleHandShake c = true) : FromFrameOnly c := by
  apply fromFrameOnly_of_parse
  intro σ P d c' same
  obtain ⟨hcheck, hlen, hrow⟩ := uartCmd_of_accepts (τ := Tx) (σ := σ) h
  refine uartProtocolParse_congr same hcheck hrow ?_
  have hans : ∀ (d : Device Tx σ) cmdId ans, d.answer cmdId c' ans = d.answer cmdId c ans :=
    fun _ => answer_congr (same 4 (.inl (by omega))) (same 5 (.inl (by omega)))
  simp only [Device.moduleHandShakeRsp, hans]

theorem advCtrl_fromFrame (h : accepts cmdAdvCtrl c = true) : FromFrameOnly c := by
  apply fromFrameOnly_of_parse
  intro σ P d c' same
  obtain ⟨hcheck, hlen, hrow⟩ := uartCmd_of_accepts (τ := Tx) (σ := σ) h
  refine uartProtocolParse_congr same hcheck hrow ?_
  -- of the shortest frame it is the check sum
  have hctrl : c' dataOff = c dataOff := same dataOff (.inl (by unfold dataOff; omega))
  exact advCtrlRsp_congr (same 4 (.inl (by omega))) (same 5 (.inl (by omega))) hctrl

theorem setAdvData_fromFrame (h : accepts cmdSetAdvData c = true)
    (hin : 39 ≤ hdrLength c ∨ ∃ i, nameOff ≤ i ∧ i < hdrLength c + 4 ∧ c i = 0) :
    FromFrameOnly c := by
  apply fromFrameOnly_of_parse
  intro σ P d c' same
  obtain ⟨hcheck, hlen, hrow⟩ := uartCmd_of_accepts (τ := Tx) (σ := σ) h
  refine uartProtocolParse_congr same hcheck hrow ?_
  have hread : ∀ i, nameOff + i < hdrLength c + 4 → c' (nameOff + i) = c (nameOff + i) :=
    fun i hi => same _ (.inl hi)
  have hoff : nameOff = 14 := rfl
  have hflag : c' dataOff = c dataOff := same dataOff (.inl (by unfold dataOff; omega))
  -- the name, as far as it is looked at, is inside
  have hname : strlenUpTo 28 c' nameOff = strlenUpTo 28 c nameOff ∧
      ∀ len, strlenUpTo 28 c nameOff = some len → nameOff + len < hdrLength c + 4 := by
    rcases hin with hlong | ⟨i, hlow, hhigh, hzero⟩
    · constructor
      · unfold strlenUpTo
        refine List.find?_congr fun i hi => ?_
        rw [hread i (by have := List.mem_range.mp hi; omega)]
      · intro len hlen
        have hle := (strlenUpTo_eq_some.mp hlen).1
        omega
    · obtain ⟨k, rfl⟩ := Nat.exists_eq_add_of_le hlow
      refine ⟨strlenUpTo_congr hzero fun i hi => hread i (by omega), ?_⟩
      intro len hlen
      have hle := strlenUpTo_le hlen hzero
      omega
  refine setAdvDataRsp_congr (same 4 (.inl (by omega))) (same 5 (.inl (by omega))) hflag
    (advertisingInit_congr hname.1 fun len hlen => ?_)
  have hlast := hname.2 len hlen
  constructor
  · exact Mem.bytes_congr fun i hi => same _ (.inl (by unfold dataOff; omega))
  · exact Mem.bytes_congr fun i hi => hread i (by omega)

omit [SendOps τ] in
/-- Bytes after the frame can only add to the announced length. -/
theorem announced_frameOnly_le (same : SameFrame c c') :
    Upgrade.announced c.frameOnly ≤ Upgrade.announced c' := by
  have hle : ∀ i, (c.frameOnly i).toNat ≤ (c' i).toNat := by
    intro i
    unfold Mem.frameOnly
    split
    · rw [same i ‹_›]
    · exact Nat.zero_le _
  have h0 := hle (dataOff + 3)
  have h1 := hle (dataOff + 3 + 1)
  have h2 := hle (dataOff + 3 + 2)
  have h3 := hle (dataOff + 3 + 3)
  rw [UInt32.le_iff_toNat_le, Upgrade.announced, Upgrade.announced, wordAt_toNat, wordAt_toNat]
  omega

omit [SendOps τ] in
theorem Upgrade.request_tooLong {P : Platform σ} {u : Upgrade σ} {fwLen : UInt32} {mark : Nat}
    (h : fwLen > maxFwLen) :
    u.request P fwLen mark = (false, { u with iap := { u.iap with fwLen := 0 } }) := by
  unfold request
  exact if_pos h

theorem upgRequest_fromFrame (h : accepts cmdUpgRequest c = true)
    (hin : 10 ≤ hdrLength c ∨ Upgrade.announced c.frameOnly > Upgrade.maxFwLen) :
    FromFrameOnly c := by
  apply fromFrameOnly_of_parse
  intro σ P d c' same
  obtain ⟨hcheck, hlen, hrow⟩ := uartCmd_of_accepts (τ := Tx) (σ := σ) h
  refine uartProtocolParse_congr same hcheck hrow ?_
  apply upgRequestRsp_congr (same 4 (.inl (by omega))) (same 5 (.inl (by omega)))
  intro mark
  rcases hin with hlong | hover
  · have hword : Upgrade.announced c' = Upgrade.announced c :=
      wordAt_congr fun i hi => same _ (.inl (by unfold dataOff; omega))
    rw [hword]
  · have hsame : SameFrame c c := fun _ _ => rfl
    rw [Upgrade.request_tooLong (UInt32.lt_of_lt_of_le hover (announced_frameOnly_le same)),
      Upgrade.request_tooLong (UInt32.lt_of_lt_of_le hover (announced_frameOnly_le hsame))]

end

/-! ### Frames that are not -/

section

variable {c : Mem}

/-- A name that is too long is not given to the stack, any other is. -/
theorem advertisingInit_refusing (flag : UInt8) (resp devMac n : Nat) :
    advertisingInit refusingPlatform flag c resp devMac n =
      (-1, if (strlenUpTo 28 c resp).isSome then n + 1 else n) := by
  unfold advertisingInit
  cases strlenUpTo 28 c resp with
  | none => rfl
  | some len =>
      simp [mbleGapAdvDataSet, refusingPlatform]

theorem parse_setAdvData_refusing (h : accepts cmdSetAdvData c = true) (d : Device Tx Nat) :
    (uartProtocolParse refusingPlatform c d).map Device.effect =
      some (if (strlenUpTo 28 c nameOff).isSome then d.world + 1 else d.world, d.iap, d.tx) := by
  obtain ⟨hcheck, -, hrow⟩ := uartCmd_of_accepts (τ := Tx) (σ := Nat) h
  have hfind : uartCmd (τ := Tx) (σ := Nat) c =
      some ⟨cmdSetAdvData, askSetAdvData, Device.setAdvDataRsp, some [1, 6, 1, 0]⟩ := hrow
  simp only [uartProtocolParse, hcheck, Bool.true_eq_false, if_false, hfind, setAdvDataRsp_args,
    Upgrade.call, advertisingInit_refusing]
  have hack : askSetAdvData ≠ 0 := by decide
  simp [Device.effect, Device.withUpgrade, Upgrade.withWorld, hack]

theorem strlenUpTo_isSome {n p k : Nat} (hk : k ≤ n) (hzero : c (p + k) = 0) :
    (strlenUpTo n c p).isSome = true :=
  List.find?_isSome.mpr ⟨k, List.mem_range.mpr (Nat.lt_succ_of_le hk), decide_eq_true hzero⟩

theorem strlenUpTo_isSome_false {n p : Nat} (h : ∀ i ≤ n, c (p + i) ≠ 0) :
    (strlenUpTo n c p).isSome = false := by
  rw [Option.isSome_eq_false_iff, Option.isNone_iff_eq_none]
  exact List.find?_eq_none.mpr fun i hi => by
    simpa using h i (Nat.le_of_lt_succ (List.mem_range.mp hi))

/-- The frame with a long name after it. -/
def Mem.longName (c : Mem) : Mem := fun i =>
  if i < hdrLength c + 4 ∨ sizeofUartCmdFormat ≤ i then c i
  else if i < nameOff + 29 then 0x41 else 0

theorem setAdvData_leaks (h : accepts cmdSetAdvData c = true) (hshort : hdrLength c < 39)
    (hname : ∀ i, nameOff ≤ i → i < hdrLength c + 4 → c i ≠ 0) : ¬ FromFrameOnly c := by
  intro hframe
  have hoff : nameOff = 14 := rfl
  have hsize : sizeofUartCmdFormat = 407 := rfl
  have hzeros := SameFrame.frameOnly c
  have hlong : SameFrame c c.longName := fun _ hi => if_pos hi
  -- with zeros after the frame the name ends there
  have hends : c.frameOnly (nameOff + 28) = 0 := if_neg (by omega)
  -- with letters it is too long
  have hover : ∀ i ≤ 28, c.longName (nameOff + i) ≠ 0 := by
    intro i hi
    unfold Mem.longName
    split
    · exact hname _ (Nat.le_add_right _ _) (by omega)
    · rw [if_pos (by omega)]
      decide
  obtain ⟨tx, -, -⟩ := uartContextInit_spec Sys.blankHeap Sys.blankMem 0
  have hfirst := hframe Nat refusingPlatform (Device.boot tx 0) _ hzeros
  have hsecond := hframe Nat refusingPlatform (Device.boot tx 0) _ hlong
  rw [← hsecond, parse_setAdvData_refusing (hzeros.accepts h),
    parse_setAdvData_refusing (hlong.accepts h), strlenUpTo_isSome (Nat.le_refl 28) hends,
    strlenUpTo_isSome_false hover] at hfirst
  simp at hfirst

theorem parse_upgRequest_refusing (h : accepts cmdUpgRequest c = true) (d : Device Tx Nat) :
    (uartProtocolParse refusingPlatform c d).map Device.effect =
      some (d.world, { d.iap with
        fwLen :=
          if Upgrade.announced c > Upgrade.maxFwLen then 0 else Upgrade.announced c }, d.tx) := by
  obtain ⟨hcheck, -, hrow⟩ := uartCmd_of_accepts (τ := Tx) (σ := Nat) h
  have hfind : uartCmd (τ := Tx) (σ := Nat) c =
      some ⟨cmdUpgRequest, askUpgRequest, Device.upgRequestRsp, some [3, 1, 0]⟩ := hrow
  have hack : askUpgRequest ≠ 0 := by decide
  have hbad : refusingPlatform.bootloaderInit d.world = (1, d.world) := rfl
  have hone : (1 : Int) ≠ bootloaderOk := by decide
  simp only [uartProtocolParse, hcheck, Bool.true_eq_false, if_false, hfind, Device.upgRequestRsp,
    Device.argsParam_upgRequest, Option.bind_eq_bind, Option.bind_some, Upgrade.request]
  by_cases hlong : Upgrade.announced c > Upgrade.maxFwLen
  · simp [hlong, Device.effect, Device.withUpgrade, hack]
  · simp [hlong, Device.effect, Device.withUpgrade, hack, Upgrade.call, hbad, hone,
      Upgrade.withWorld]

theorem upgRequest_leaks (h : accepts cmdUpgRequest c = true) (hshort : hdrLength c < 10)
    (hfits : ¬ Upgrade.announced c.frameOnly > Upgrade.maxFwLen) : ¬ FromFrameOnly c := by
  intro hframe
  have hsize : sizeofUartCmdFormat = 407 := rfl
  have hdata : dataOff = 7 := rfl
  have hzeros := SameFrame.frameOnly c
  have hone : SameFrame c (c.frameOnly.set (dataOff + 6) 1) := by
    intro i hi
    rw [Mem.set_of_ne (by omega), hzeros i hi]
  -- one more in the last byte
  have hlast : c.frameOnly (dataOff + 6) = 0 := if_neg (by omega)
  have hnext : (Upgrade.announced (c.frameOnly.set (dataOff + 6) 1)).toNat =
      (Upgrade.announced c.frameOnly).toNat + 1 := by
    rw [Upgrade.announced, Upgrade.announced, wordAt_toNat, wordAt_toNat,
      Mem.set_of_ne (show dataOff + 3 ≠ dataOff + 6 by omega),
      Mem.set_of_ne (show dataOff + 3 + 1 ≠ dataOff + 6 by omega),
      Mem.set_of_ne (show dataOff + 3 + 2 ≠ dataOff + 6 by omega),
      show dataOff + 3 + 3 = dataOff + 6 from rfl, Mem.set_self, hlast]
    simp
  obtain ⟨tx, -, -⟩ := uartContextInit_spec Sys.blankHeap Sys.blankMem 0
  have hfirst := hframe Nat refusingPlatform (Device.boot tx 0) _ hzeros
  have hsecond := hframe Nat refusingPlatform (Device.boot tx 0) _ hone
  rw [← hsecond, parse_upgRequest_refusing (hzeros.accepts h),
    parse_upgRequest_refusing (hone.accepts h)] at hfirst
  generalize Upgrade.announced c.frameOnly = n at hfits hnext hfirst
  generalize Upgrade.announced (c.frameOnly.set (dataOff + 6) 1) = m at hnext hfirst
  have hlen : (if n > Upgrade.maxFwLen then 0 else n) =
      if m > Upgrade.maxFwLen then 0 else m := by
    simp only [Option.some.injEq, Prod.mk.injEq, IapStr.mk.injEq] at hfirst
    exact hfirst.2.1.2.2.1
  rw [if_neg hfits] at hlen
  split at hlen
  · rename_i hover
    have hmax : Upgrade.maxFwLen.toNat < m.toNat := UInt32.lt_iff_toNat_lt.mp hover
    rw [hnext, hlen] at hmax
    exact absurd hmax (by decide)
  · rw [hlen] at hnext
    omega

end

/-! ### The commands -/

/-- **Commands are interpreted from the current frame only**, exactly those that are
`WithinFrame`. -/
theorem commands_from_frame (c : Mem)
    (h : accepts cmdModuleHandShake c = true ∨ accepts cmdAdvCtrl c = true ∨
      accepts cmdSetAdvData c = true ∨ accepts cmdUpgRequest c = true) :
    FromFrameOnly c ↔ WithinFrame c := by
  have hcmd : ∀ cmd, accepts cmd c = true → hdrCmdId c = cmd := by
    intro cmd hcmd
    simp only [accepts, Bool.and_eq_true, beq_iff_eq] at hcmd
    exact hcmd.2
  rcases h with h | h | h | h <;> have hid := hcmd _ h <;> unfold WithinFrame <;> rw [hid]
  · exact iff_of_true (handShake_fromFrame h)
      ⟨fun heq => absurd heq (by decide), fun heq => absurd heq (by decide)⟩
  · exact iff_of_true (advCtrl_fromFrame h)
      ⟨fun heq => absurd heq (by decide), fun heq => absurd heq (by decide)⟩
  · constructor
    · intro hframe
      refine ⟨?_, fun heq => absurd heq (by decide)⟩
      intro _
      by_contra hout
      obtain ⟨hshort, hname⟩ := not_or.mp hout
      exact setAdvData_leaks h (Nat.lt_of_not_le hshort)
        (fun i hlow hhigh hzero => hname ⟨i, hlow, hhigh, hzero⟩) hframe
    · exact fun hin => setAdvData_fromFrame h (hin.1 rfl)
  · constructor
    · intro hframe
      refine ⟨fun heq => absurd heq (by decide), ?_⟩
      intro _
      by_contra hout
      obtain ⟨hshort, hfits⟩ := not_or.mp hout
      exact upgRequest_leaks h (Nat.lt_of_not_le hshort) hfits hframe
    · exact fun hin => upgRequest_fromFrame h (hin.2 rfl)

theorem commands_from_frame_upgRequest :
    FromFrameOnly (upgRequestFrame 0 1000) ↔ WithinFrame (upgRequestFrame 0 1000) :=
  commands_from_frame (upgRequestFrame 0 1000) (.inr (.inr (.inr (by decide))))

/-- A `CMD_UPG_REQUEST` without arguments -/
def emptyRequest : List UInt8 :=
  wireFrame wifiampDevHeader 0 pdttypeBleFlash cmdUpgRequest []

/-- It takes its length from the request before. -/
theorem empty_request_reads_leftover :
    accepts cmdUpgRequest (Mem.ofList emptyRequest) = true ∧
      SameFrame (Mem.ofList emptyRequest) ((upgRequestFrame 0 1000).write 0 emptyRequest) ∧
      ∀ d : Device Tx Nat,
        (uartProtocolParse refusingPlatform ((upgRequestFrame 0 1000).write 0 emptyRequest) d).map
            Device.effect ≠
          (uartProtocolParse refusingPlatform (Mem.ofList emptyRequest) d).map Device.effect := by
  have haccepts : accepts cmdUpgRequest (Mem.ofList emptyRequest) = true := by decide
  have hsame : SameFrame (Mem.ofList emptyRequest)
      ((upgRequestFrame 0 1000).write 0 emptyRequest) := by
    intro i hi
    have hlen : hdrLength (Mem.ofList emptyRequest) + 4 = emptyRequest.length := by decide
    rw [hlen] at hi
    by_cases hin : i < emptyRequest.length
    · simp [Mem.write, Mem.ofList, hin]
    · have hout : 407 ≤ i := hi.resolve_left hin
      have hlong : ∀ bs : List UInt8, bs.length ≤ 407 → bs.getD i 0 = 0 := fun bs hbs =>
        by rw [List.getD_eq_getElem?_getD, List.getElem?_eq_none (Nat.le_trans hbs hout)]; rfl
      have hnot : ¬ (0 ≤ i ∧ i < 0 + emptyRequest.length) := by omega
      simp only [Mem.write, hnot, if_false, Mem.ofList, upgRequestFrame]
      rw [hlong _ (by decide), hlong _ (by decide)]
  refine ⟨haccepts, hsame, ?_⟩
  intro d heq
  rw [parse_upgRequest_refusing haccepts, parse_upgRequest_refusing (hsame.accepts haccepts)] at heq
  simp only [Option.some.injEq, Prod.mk.injEq, IapStr.mk.injEq] at heq
  exact absurd heq.2.1.2.2.1 (by decide)

/-! ### The data frame -/

namespace Upgrade

/-- `data_length` after its first subtraction: the index of the CRC field -/
def crcIndex (dataP : Mem) : UInt16 := UInt16.ofNat (hdrLength dataP) - 6

/-- Indices into `data` of all that `upg_data_rsp` reads: the CRC field, the bytes under
the CRC and the offset. -/
def pageReads (dataP : Mem) : List Nat :=
  [(crcIndex dataP).toNat, (crcIndex dataP).toNat + 1] ++
    (List.range (crcIndex dataP - 4).toNat).map (4 + ·) ++ List.range 4

/-- No subtraction on `data_length` wraps, and nothing but the payload is read. -/
structure PageInside (dataP : Mem) : Prop where
  index : (crcIndex dataP).toNat + 6 = hdrLength dataP
  length : (page dataP).dataLength.toNat + 4 = (crcIndex dataP).toNat
  reads : ∀ i ∈ pageReads dataP, i < hdrLength dataP - 4

section

variable {c c' : Mem}

theorem crcIndex_toNat (h : 4 ≤ hdrLength c) : (crcIndex c).toNat =
    if 6 ≤ hdrLength c then hdrLength c - 6 else hdrLength c + 65530 := by
  have hlt := hdrLength_lt c
  simp only [crcIndex, UInt16.toNat_sub, UInt16.toNat_ofNat']
  change (65536 - 6 + hdrLength c % 65536) % 65536 = _
  split <;> omega

/-- `upg_data_rsp` reads the header and these bytes. -/
theorem page_congr (hlen : hdrLength c' = hdrLength c)
    (same : ∀ i ∈ pageReads c, c' (dataOff + i) = c (dataOff + i)) :
    page c' = page c ∧ declared c' = declared c := by
  have hindex : crcIndex c' = crcIndex c := by rw [crcIndex, crcIndex, hlen]
  have hcrc : c' (dataOff + (crcIndex c).toNat) = c (dataOff + (crcIndex c).toNat) ∧
      c' (dataOff + ((crcIndex c).toNat + 1)) = c (dataOff + ((crcIndex c).toNat + 1)) :=
    ⟨same _ (by simp [pageReads]), same _ (by simp [pageReads])⟩
  have hdata : c'.bytes (dataOff + 4) (crcIndex c - 4).toNat =
      c.bytes (dataOff + 4) (crcIndex c - 4).toNat := by
    apply Mem.bytes_congr
    intro i hi
    rw [Nat.add_assoc]
    refine same _ (List.mem_append_left _ (List.mem_append_right _ ?_))
    exact List.mem_map.mpr ⟨i, List.mem_range.mpr hi, rfl⟩
  constructor
  · have hpage : ∀ m : Mem, page m = ⟨crcIndex m - 4,
        ((m (dataOff + (crcIndex m).toNat)).toUInt16 <<< 8) +
          (m (dataOff + ((crcIndex m).toNat + 1))).toUInt16,
        m.bytes (dataOff + 4) (crcIndex m - 4).toNat⟩ := fun _ => rfl
    rw [hpage, hpage, hindex, hcrc.1, hcrc.2, hdata]
  · exact wordAt_congr fun i hi => same i (List.mem_append_right _ (List.mem_range.mpr hi))

theorem PageInside.long (h : PageInside c) : 10 ≤ hdrLength c := by
  have hindex := h.index
  have hlength := h.length
  omega

theorem pageInside_of_long (h : 10 ≤ hdrLength c) : PageInside c := by
  have hindex := crcIndex_toNat (Nat.le_trans (by decide) h)
  rw [if_pos (Nat.le_trans (by decide) h)] at hindex
  have hdata : (crcIndex c - 4).toNat = hdrLength c - 10 := by
    rw [UInt16.toNat_sub, hindex]
    have hlt := hdrLength_lt c
    change (65536 - 4 + (hdrLength c - 6)) % 65536 = _
    omega
  refine ⟨by omega, ?_, ?_⟩
  · change (crcIndex c - 4).toNat + 4 = _
    omega
  · intro i hi
    simp only [pageReads, List.mem_append, List.mem_cons, List.not_mem_nil, or_false,
      List.mem_map, List.mem_range, hindex, hdata] at hi
    rcases hi with ((hi | hi) | ⟨k, hk, rfl⟩) | hi <;> omega

end

end Upgrade

/-- **No index wraps in `upg_data_rsp`**, exactly in frames with room for an offset and
a CRC. -/
theorem page_inside_iff (c : Mem) : Upgrade.PageInside c ↔ 10 ≤ hdrLength c :=
  ⟨fun h => h.long, Upgrade.pageInside_of_long⟩

/-- An `RSP_UPG_DATA` without payload -/
def emptyData : Mem := Mem.ofList (wireFrame wifiampDevHeader 0 pdttypeBleFlash rspUpgData [])

/-- Its CRC field is looked for 65534 bytes into the payload. -/
theorem empty_data_wraps :
    accepts rspUpgData emptyData = true ∧ hdrLength emptyData = 4 ∧
      65534 ∈ Upgrade.pageReads emptyData ∧ ¬ Upgrade.PageInside emptyData := by
  have haccepts : accepts rspUpgData emptyData = true := by decide
  have hlen : hdrLength emptyData = 4 := by decide
  refine ⟨haccepts, hlen, ?_, ?_⟩
  · have hindex := Upgrade.crcIndex_toNat (c := emptyData) (Nat.le_of_eq hlen.symm)
    rw [hlen, if_neg (by decide)] at hindex
    refine List.mem_append_left _ (List.mem_append_left _ ?_)
    rw [hindex]
    exact List.mem_cons_self
  · intro hinside
    have hlong := hinside.long
    omega

/-- A data frame with room for its fields is interpreted from its own bytes. -/
theorem upgData_fromFrame {c : Mem} (h : accepts rspUpgData c = true) (hlen : 10 ≤ hdrLength c) :
    FromFrameOnly c := by
  apply fromFrameOnly_of_parse
  intro σ P d c' same
  obtain ⟨hcheck, -, hrow⟩ := uartCmd_of_accepts (τ := Tx) (σ := σ) h
  refine uartProtocolParse_congr same hcheck hrow ?_
  have hsame : hdrLength c' = hdrLength c := by
    rw [hdrLength, hdrLength, same 1 (.inl (by omega)), same 2 (.inl (by omega))]
  have hinside := Upgrade.pageInside_of_long hlen
  obtain ⟨hpage, hdeclared⟩ := Upgrade.page_congr hsame fun i hi =>
    same _ (.inl (by have := hinside.reads i hi; unfold dataOff; omega))
  simp only [Device.upgDataRsp, Device.argsParam_upgData, hpage, hdeclared]

end WifiExpander
