import WifiExpander.Theory.History
import WifiExpander.Device

/-!
The firmware transfer apart from the send path.

Whatever the pool of buffers and the other tasks do, a parsed frame changes the
transfer in one of three ways (`Upgrade.Parses`), and nothing else changes it.
The statements about the firmware slot are about runs of `Upgrade` alone, and
reach the device through `Device.run_upgrade`.
-/

namespace WifiExpander

open WifiExpander.Theory

variable {σ τ : Type}

/-- The world after calls that have nothing to do with the firmware slot. -/
inductive Platform.Aside (P : Platform σ) (w : σ) : σ → Prop where
  | refl : Aside P w w
  | address {w' : σ} : Aside P w w' → Aside P w (P.mibleGapAddressGet w').2
  | advStart {w' : σ} : Aside P w w' → Aside P w (P.mibleGapAdvStart w')
  | advData {w' : σ} (packet : UInt8) (data : List UInt8) :
      Aside P w w' → Aside P w (P.geckoSetAdvData packet data w').2

theorem Platform.Aside.advertisingInit {P : Platform σ} (flag : UInt8) (c : Mem) (resp mac : Nat)
    (w : σ) : P.Aside w (advertisingInit P flag c resp mac w).2 := by
  unfold WifiExpander.advertisingInit
  dsimp only
  split
  · exact .refl
  · unfold mbleGapAdvDataSet
    dsimp only
    split_ifs <;>
      first
      | exact .refl
      | exact .advData _ _ .refl
      | exact .advData _ _ (.advData _ _ .refl)

/-! ### Words in memory -/

/-- A byte moved up by whole bytes fits `uint32_t`. -/
theorem byte_shiftLeft_mod {n k : Nat} (hn : n < UInt8.size) (hk : k ≤ 24) :
    n <<< k % UInt32.size = n <<< k := by
  refine Nat.mod_eq_of_lt ?_
  rw [Nat.shiftLeft_eq]
  calc n * 2 ^ k < UInt8.size * 2 ^ k := Nat.mul_lt_mul_of_pos_right hn (Nat.two_pow_pos k)
    _ ≤ UInt8.size * 2 ^ 24 := Nat.mul_le_mul_left _ (Nat.pow_le_pow_right (by decide) hk)
    _ = UInt32.size := rfl

theorem shiftLeft_or_byte {n m : Nat} (hm : m < UInt8.size) : n <<< 8 ||| m = n * 256 + m := by
  have hm8 : m < 2 ^ 8 := hm
  rw [← Nat.shiftLeft_add_eq_or_of_lt hm8, Nat.shiftLeft_eq]

theorem wordAt_toNat (c : Mem) (p : Nat) :
    (wordAt c p).toNat = (((c p).toNat * 256 + (c (p + 1)).toNat) * 256 + (c (p + 2)).toNat) * 256 +
      (c (p + 3)).toNat := by
  have h0 := (c p).toNat_lt
  have h1 := (c (p + 1)).toNat_lt
  have h2 := (c (p + 2)).toNat_lt
  have h3 := (c (p + 3)).toNat_lt
  have hword : (wordAt c p).toNat = (((c p).toNat <<< 8 ||| (c (p + 1)).toNat) <<< 8 |||
      (c (p + 2)).toNat) <<< 8 ||| (c (p + 3)).toNat := by
    simp only [wordAt, UInt32.toNat_or, UInt32.toNat_shiftLeft, UInt8.toNat_toUInt32,
      Nat.shiftLeft_or_distrib, ← Nat.shiftLeft_add]
    rw [show UInt32.toNat 24 % 32 = 8 + 8 + 8 from rfl, show UInt32.toNat 16 % 32 = 8 + 8 from rfl,
      show UInt32.toNat 8 % 32 = 8 from rfl, show 2 ^ 32 = UInt32.size from rfl,
      byte_shiftLeft_mod h0 (by decide), byte_shiftLeft_mod h1 (by decide),
      byte_shiftLeft_mod h2 (by decide)]
  rw [hword, shiftLeft_or_byte h1, shiftLeft_or_byte h2, shiftLeft_or_byte h3]

theorem wordAt_congr {c c' : Mem} {p : Nat} (same : ∀ i < 4, c' (p + i) = c (p + i)) :
    wordAt c' p = wordAt c p := by
  have h0 : c' p = c p := same 0 (by decide)
  rw [wordAt, wordAt, h0, same 1 (by decide), same 2 (by decide), same 3 (by decide)]

@[simp] theorem length_wordBytes (n : UInt32) : (wordBytes n).length = 4 := rfl

/-- A word is read back as it was written. -/
theorem wordAt_of_bytes {c : Mem} {p : Nat} {n : UInt32} (h : c.bytes p 4 = wordBytes n) :
    wordAt c p = n := by
  have hbytes : [c p, c (p + 1), c (p + 2), c (p + 3)] = wordBytes n := by
    rw [← h]
    rfl
  simp only [wordBytes, List.cons.injEq, and_true] at hbytes
  obtain ⟨h0, h1, h2, h3⟩ := hbytes
  have hn := n.toNat_lt
  rw [← UInt32.toNat_inj, wordAt_toNat, h0, h1, h2, h3]
  simp only [UInt32.toNat_toUInt8, UInt32.toNat_shiftRight, UInt32.reduceToNat,
    Nat.shiftRight_eq_div_pow, Nat.reduceMod, Nat.reducePow]
  omega

/-! ### Frames to the module -/

/-- The frame passes the checks and is for the module's command `cmd`. -/
def accepts (cmd : UInt8) (dataP : Mem) : Bool :=
  procotolCheck dataP && toModule dataP && hdrCmdId dataP == cmd

theorem accepts_upgData_of_request {c : Mem} (h : accepts cmdUpgRequest c = true) :
    accepts rspUpgData c = false := by
  simp only [accepts, Bool.and_eq_true, beq_iff_eq] at h
  simp [accepts, h.2, cmdUpgRequest, rspUpgData]

namespace Upgrade

/-- `upg_data_rsp` apart from what it sends. -/
def takePage (P : Platform σ) (pg : Page) (curOffset : UInt32) (u : Upgrade σ) : Upgrade σ :=
  let u := u.storePage P pg curOffset
  if u.iap.offset < u.iap.fwLen then u else (u.finish P).2

/-- The length a request announces. -/
def announced (dataP : Mem) : UInt32 := wordAt dataP (dataOff + 3)

/-- The offset a data frame declares. -/
def declared (dataP : Mem) : UInt32 := wordAt dataP dataOff

/-- What a parsed frame does to the transfer. -/
inductive Parses (P : Platform σ) (mark : Nat) (c : Mem) (u : Upgrade σ) : Upgrade σ → Prop where
  | request : accepts cmdUpgRequest c = true → Parses P mark c u (u.request P (announced c) mark).2
  | data : accepts rspUpgData c = true → Parses P mark c u (u.takePage P (page c) (declared c))
  | other {w : σ} : accepts cmdUpgRequest c = false → accepts rspUpgData c = false →
      P.Aside u.world w → Parses P mark c u (u.withWorld w)

end Upgrade

/-! ### What the operations do -/

/-- The outcomes of a request. -/
inductive Upgrade.Requests (P : Platform σ) (fwLen : UInt32) (mark : Nat) (u : Upgrade σ) :
    Bool × Upgrade σ → Prop where
  | tooLong : fwLen > maxFwLen →
      Requests P fwLen mark u (false, { u with iap := { u.iap with fwLen := 0 } })
  | initFailed {w : σ} : fwLen ≤ maxFwLen → w = (P.bootloaderInit u.world).2 →
      Requests P fwLen mark u (false, { u with iap := { u.iap with fwLen }, world := w })
  | eraseFailed {w : σ} : fwLen ≤ maxFwLen → (P.bootloaderInit u.world).1 = bootloaderOk →
      (P.bootloaderEraseStorageSlot (P.bootloaderInit u.world).2).1 ≠ bootloaderOk →
      w = (P.bootloaderEraseStorageSlot (P.bootloaderInit u.world).2).2 →
      Requests P fwLen mark u (false, { u with iap := { u.iap with fwLen }, world := w })
  | accepted {w : σ} : fwLen ≤ maxFwLen →
      (P.bootloaderEraseStorageSlot (P.bootloaderInit u.world).2).1 = bootloaderOk →
      w = (P.bootloaderEraseStorageSlot (P.bootloaderInit u.world).2).2 →
      Requests P fwLen mark u
        (true,
          { u with
            iap := ⟨1, 0, fwLen, 128, 0, 0⟩
            world := w
            hist := u.hist ++ [.accepted fwLen mark] })

theorem Upgrade.request_spec (P : Platform σ) (fwLen : UInt32) (mark : Nat) (u : Upgrade σ) :
    Requests P fwLen mark u (u.request P fwLen mark) := by
  unfold request
  dsimp only [call, withWorld, record]
  split
  · exact .tooLong ‹_›
  rename_i hlen
  have hle : fwLen ≤ maxFwLen := UInt32.not_lt.mp hlen
  split
  · exact .initFailed hle rfl
  rename_i hinit
  split
  · exact .eraseFailed hle (not_not.mp hinit) ‹_› rfl
  · rename_i herase
    exact .accepted hle (not_not.mp herase) rfl

/-- The outcomes of storing a page. -/
inductive Upgrade.Stores (P : Platform σ) (pg : Page) (cur : UInt32) (u : Upgrade σ) :
    Upgrade σ → Prop where
  | rejected : pageOk pg cur u.iap = false → Stores P pg cur u u
  | failed {w : σ} : pageOk pg cur u.iap = true →
      (P.bootloaderWriteStorage u.iap.offset pg.data u.world).1 ≠ bootloaderOk →
      w = (P.bootloaderWriteStorage u.iap.offset pg.data u.world).2 →
      Stores P pg cur u
        { u with world := w, hist := u.hist ++ [.wrote u.iap.offset pg.data false] }
  | stored {w : σ} : pageOk pg cur u.iap = true →
      (P.bootloaderWriteStorage u.iap.offset pg.data u.world).1 = bootloaderOk →
      w = (P.bootloaderWriteStorage u.iap.offset pg.data u.world).2 →
      Stores P pg cur u
        { u with
          iap :=
            { u.iap with
              offset := u.iap.offset + pg.dataLength.toUInt32
              packNum := u.iap.packNum + 1 }
          world := w
          hist := u.hist ++ [.wrote u.iap.offset pg.data true] }

theorem Upgrade.storePage_spec (P : Platform σ) (pg : Page) (cur : UInt32) (u : Upgrade σ) :
    Stores P pg cur u (u.storePage P pg cur) := by
  unfold storePage
  dsimp only
  cases hok : pageOk pg cur u.iap with
  | false => exact .rejected hok
  | true =>
      rw [if_pos rfl]
      by_cases hres : (P.bootloaderWriteStorage u.iap.offset pg.data u.world).1 = bootloaderOk
      · simp only [call, hres, if_true]
        exact .stored hok hres rfl
      · simp only [call, hres, if_false]
        exact .failed hok hres rfl

/-- The outcomes of the end of a transfer. -/
inductive Upgrade.Finishes (P : Platform σ) (u : Upgrade σ) : Bool × Upgrade σ → Prop where
  | bad {w : σ} : w = (P.bootloaderVerifyImage u.world).2 →
      Finishes P u (false, u.withWorld w)
  | good {w : σ} :
      w = P.bootloaderRebootAndInstall (P.mbleRecordWrite 1 [0xAA]
        (P.bootloaderSetImageToBootload (P.bootloaderVerifyImage u.world).2)) →
      Finishes P u
        (true,
          ⟨{ u.iap with finished := 0xAA }, w, u.hist ++ [.setImage] ++ [.reboot], true⟩)

theorem Upgrade.finish_spec (P : Platform σ) (u : Upgrade σ) : Finishes P u (u.finish P) := by
  unfold finish
  dsimp only
  split
  · exact .good rfl
  · exact .bad rfl

/-- Taking a page is storing it and, after the last one, ending the transfer. -/
theorem Upgrade.takePage_rule {P : Platform σ} {u : Upgrade σ} {pg : Page} {cur : UInt32}
    {motive : Upgrade σ → Prop} (stored : motive (u.storePage P pg cur))
    (finished : ∀ res, ¬ (u.storePage P pg cur).iap.offset < (u.storePage P pg cur).iap.fwLen →
      Finishes P (u.storePage P pg cur) res → motive res.2) :
    motive (u.takePage P pg cur) := by
  unfold takePage
  dsimp only
  split
  · exact stored
  · exact finished _ ‹_› (finish_spec P _)

/-- `page` reads as many bytes as it says. -/
@[simp] theorem Upgrade.length_page_data (c : Mem) :
    (page c).data.length = (page c).dataLength.toNat := by
  simp [page]

/-! ### The current transfer -/

/-- The length of an accepted request, and how much the send path had logged. -/
def UpgObs.requested : UpgObs → Option (UInt32 × Nat)
  | .accepted fwLen mark => some (fwLen, mark)
  | _ => none

/-- The last accepted request, and what was done since. -/
def Upgrade.transfer (u : Upgrade σ) : Option ((UInt32 × Nat) × List UpgObs) :=
  sinceLast UpgObs.requested u.hist

namespace Device

variable [SendOps τ] {P : Platform σ} {c : Mem} {d d' : Device τ σ}

theorem dispose_upgrade {info : SendInfo} (h : d.dispose info = some d') :
    d'.toUpgrade = d.toUpgrade := by
  obtain ⟨⟨_, tx⟩, -, hend⟩ := Option.bind_eq_some_iff.mp h
  cases hend
  rfl

theorem answer_upgrade {cmdId : UInt8} {ans : List UInt8} {r : Bool}
    (h : d.answer cmdId c ans = some (r, d')) : d'.toUpgrade = d.toUpgrade := by
  obtain ⟨⟨_, tx⟩, -, hend⟩ := Option.bind_eq_some_iff.mp h
  cases hend
  rfl

/-! ### The handlers -/

/-- A handler that leaves the transfer alone. -/
def LeavesUpgrade (P : Platform σ) (d d' : Device τ σ) : Prop :=
  ∃ w, P.Aside d.world w ∧ d'.toUpgrade = d.toUpgrade.withWorld w

theorem moduleHandShakeRsp_upgrade (h : d.moduleHandShakeRsp P c = some d') :
    LeavesUpgrade P d d' := by
  obtain ⟨⟨r, d₁⟩, hans, hend⟩ := Option.bind_eq_some_iff.mp h
  cases hend
  have hu := answer_upgrade hans
  cases r with
  | false => exact ⟨d.world, .refl, hu⟩
  | true => exact ⟨_, .address .refl, congrArg (Upgrade.withWorld · _) hu⟩

theorem advCtrlRsp_upgrade (h : d.advCtrlRsp P c = some d') : LeavesUpgrade P d d' := by
  obtain ⟨ctrl, -, hrest⟩ := Option.bind_eq_some_iff.mp h
  obtain ⟨⟨r, d₁⟩, hans, hend⟩ := Option.bind_eq_some_iff.mp hrest
  cases hend
  have hu := answer_upgrade hans
  split at hu
  · exact ⟨_, .advStart .refl, hu⟩
  · exact ⟨d.world, .refl, hu⟩

theorem setAdvDataRsp_upgrade (h : d.setAdvDataRsp P c = some d') : LeavesUpgrade P d d' := by
  obtain ⟨conf, -, hrest⟩ := Option.bind_eq_some_iff.mp h
  obtain ⟨mac, -, hrest⟩ := Option.bind_eq_some_iff.mp hrest
  obtain ⟨resp, -, hrest⟩ := Option.bind_eq_some_iff.mp hrest
  have haside := Platform.Aside.advertisingInit (P := P) conf c resp mac d.world
  generalize hcall : d.toUpgrade.call (advertisingInit P conf c resp mac) = res at hrest
  have hres : res.2 = d.toUpgrade.withWorld (advertisingInit P conf c resp mac d.world).2 := by
    rw [← hcall]
    rfl
  by_cases hfail : res.1 ≠ 0
  · simp only [if_pos hfail, Option.some.injEq] at hrest
    exact ⟨_, haside, by rw [← hrest, withUpgrade_toUpgrade, hres]⟩
  · simp only [if_neg hfail] at hrest
    obtain ⟨⟨r, d₁⟩, hans, hend⟩ := Option.bind_eq_some_iff.mp hrest
    cases hend
    exact ⟨_, haside, (answer_upgrade hans).trans hres⟩

theorem upgRequestRsp_upgrade {fwLen : UInt32} (hlen : d.param.word c 1 = some fwLen)
    (h : d.upgRequestRsp P c = some d') :
    d'.toUpgrade = (d.toUpgrade.request P fwLen (SendOps.vars d.tx).log.length).2 := by
  simp only [upgRequestRsp, hlen, Option.bind_eq_bind, Option.bind_some] at h
  split at h
  · obtain ⟨⟨r, d₁⟩, hans, hend⟩ := Option.bind_eq_some_iff.mp h
    have hu := answer_upgrade hans
    split at hend
    · exact (dispose_upgrade hend).trans hu
    · cases hend
      exact hu
  · cases h
    rfl

theorem upgDataRsp_upgrade {cur : UInt32} (hcur : d.param.word c 0 = some cur)
    (h : d.upgDataRsp P c = some d') :
    d'.toUpgrade = d.toUpgrade.takePage P (Upgrade.page c) cur := by
  simp only [upgDataRsp, hcur, Option.bind_eq_bind, Option.bind_some] at h
  unfold Upgrade.takePage
  dsimp only
  split at h
  · rw [if_pos ‹_›]
    exact dispose_upgrade h
  · rw [if_neg ‹_›]
    split at h
    · cases h
      rfl
    · exact dispose_upgrade h

/-! ### A parsed frame -/

/-- The rows that a frame can select. -/
theorem uartCmd_cases' {r : UartCmd τ σ} (h : uartCmd c = some r) :
    toModule c = true ∧ hdrCmdId c = r.cmdword ∧ r ∈ uartCmdList := by
  unfold uartCmd at h
  split at h
  · have hword := List.find?_some h
    exact ⟨‹_›, by simpa using hword, List.mem_of_find?_eq_some h⟩
  · cases h

theorem uartCmd_upgRequest (h : accepts cmdUpgRequest c = true) :
    uartCmd (τ := τ) (σ := σ) c =
      some ⟨cmdUpgRequest, askUpgRequest, upgRequestRsp, some [3, 1, 0]⟩ := by
  simp only [accepts, Bool.and_eq_true, beq_iff_eq] at h
  rw [uartCmd, if_pos h.1.2, h.2]
  rfl

theorem uartCmd_upgData (h : accepts rspUpgData c = true) :
    uartCmd (τ := τ) (σ := σ) c = some ⟨rspUpgData, 0, upgDataRsp, some [4, 1, 0]⟩ := by
  simp only [accepts, Bool.and_eq_true, beq_iff_eq] at h
  rw [uartCmd, if_pos h.1.2, h.2]
  rfl

theorem argsParam_upgRequest (p : Param) :
    (argsParam dataOff (some [3, 1, 0]) p).word c 1 = some (Upgrade.announced c) := rfl

theorem argsParam_upgData (p : Param) :
    (argsParam dataOff (some [4, 1, 0]) p).word c 0 = some (Upgrade.declared c) := rfl

theorem uartProtocolParse_row {r : UartCmd τ σ} (hcheck : procotolCheck c = true)
    (hrow : uartCmd c = some r) (h : uartProtocolParse P c d = some d') :
    ∃ d₁, r.callback P c { d with param := argsParam dataOff r.argvlist d.param } = some d₁ ∧
      d'.toUpgrade = d₁.toUpgrade := by
  simp only [uartProtocolParse, hcheck, Bool.true_eq_false, if_false, hrow] at h
  obtain ⟨d₁, hcall, hrest⟩ := Option.bind_eq_some_iff.mp h
  refine ⟨d₁, hcall, ?_⟩
  split at hrest
  · cases hrest
    rfl
  split at hrest
  · cases hrest
    rfl
  · obtain ⟨tx, -, hend⟩ := Option.bind_eq_some_iff.mp hrest
    cases hend
    rfl

/-- **A parsed frame changes the transfer as `Parses` says.** -/
theorem uartProtocolParse_upgrade (h : uartProtocolParse P c d = some d') :
    Upgrade.Parses P (SendOps.vars d.tx).log.length c d.toUpgrade d'.toUpgrade := by
  have hkeep : accepts cmdUpgRequest c = false → accepts rspUpgData c = false →
      d'.toUpgrade = d.toUpgrade →
      Upgrade.Parses P (SendOps.vars d.tx).log.length c d.toUpgrade d'.toUpgrade :=
    fun hreq hdata heq => by
      rw [heq]
      exact .other (w := d.world) hreq hdata .refl
  by_cases hcheck : procotolCheck c = true
  · cases hreq : accepts cmdUpgRequest c with
    | true =>
        obtain ⟨d₁, hcall, heq⟩ := uartProtocolParse_row hcheck (uartCmd_upgRequest hreq) h
        rw [heq, upgRequestRsp_upgrade (argsParam_upgRequest d.param) hcall]
        exact .request hreq
    | false =>
    cases hdata : accepts rspUpgData c with
    | true =>
        obtain ⟨d₁, hcall, heq⟩ := uartProtocolParse_row hcheck (uartCmd_upgData hdata) h
        rw [heq, upgDataRsp_upgrade (argsParam_upgData d.param) hcall]
        exact .data hdata
    | false =>
    cases hrow : uartCmd (τ := τ) (σ := σ) c with
    | none =>
        simp only [uartProtocolParse, hcheck, Bool.true_eq_false, if_false, hrow] at h
        refine hkeep hreq hdata ?_
        split at h <;> (cases h; rfl)
    | some r =>
        obtain ⟨hto, hword, hmem⟩ := uartCmd_cases' hrow
        obtain ⟨d₁, hcall, heq⟩ := uartProtocolParse_row hcheck hrow h
        have hother :
            LeavesUpgrade P { d with param := argsParam dataOff r.argvlist d.param } d₁ := by
          simp only [uartCmdList, List.mem_cons, List.not_mem_nil, or_false] at hmem
          rcases hmem with rfl | rfl | rfl | rfl | rfl
          · exact moduleHandShakeRsp_upgrade hcall
          · exact advCtrlRsp_upgrade hcall
          · exact setAdvDataRsp_upgrade hcall
          · simp [accepts, hcheck, hto, hword] at hreq
          · simp [accepts, hcheck, hto, hword] at hdata
        obtain ⟨w, haside, hw⟩ := hother
        rw [heq, hw]
        exact .other hreq hdata haside
  · have hbad : ∀ cmd, accepts cmd c = false := fun cmd => by simp [accepts, hcheck]
    simp only [uartProtocolParse, Bool.not_eq_true] at h hcheck
    rw [if_pos hcheck] at h
    cases h
    exact hkeep (hbad _) (hbad _) rfl

/-- **Nothing but a parsed frame changes the transfer.** -/
theorem step_upgrade {e : DevEvent} (h : d.step P e = some d') :
    d'.toUpgrade = d.toUpgrade ∨ d.rebooted = false ∧ ∃ c, e = .parse c ∧
      Upgrade.Parses P (SendOps.vars d.tx).log.length c d.toUpgrade d'.toUpgrade := by
  unfold step at h
  split at h
  · cases h
    exact .inl rfl
  · rename_i hreb
    cases e with
    | parse c => exact .inr ⟨by simpa using hreb, c, rfl, uartProtocolParse_upgrade h⟩
    | tick | inspect =>
        obtain ⟨tx, -, hend⟩ := Option.bind_eq_some_iff.mp h
        cases hend
        exact .inl rfl
    | pend | transmit | complete | otherMsgs | connState => cases h; exact .inl rfl
    | bleStateNotify | iapDone => exact .inl (dispose_upgrade h)
    | forward bleRecvBuf =>
        simp only [appBleParse] at h
        split at h
        · obtain ⟨⟨_, tx⟩, -, hend⟩ := Option.bind_eq_some_iff.mp h
          cases hend
          exact .inl rfl
        · cases h
          exact .inl rfl

/-- A parsed frame, while the device is up. -/
theorem step_parse (hreb : d.rebooted = false) (h : d.step P (.parse c) = some d') :
    Upgrade.Parses P (SendOps.vars d.tx).log.length c d.toUpgrade d'.toUpgrade := by
  unfold step at h
  rw [if_neg (by simp [hreb])] at h
  exact uartProtocolParse_upgrade h

/-- **Run rule for the transfer.** A predicate that every parsed frame preserves,
where `ok` allows it, holds after every guarded run of the device. -/
theorem run_upgrade {ok : Device τ σ → DevEvent → Prop} {Inv : Upgrade σ → Prop}
    (preserves : ∀ (d : Device τ σ) c u', Inv d.toUpgrade → ok d (.parse c) → d.rebooted = false →
      Upgrade.Parses P (SendOps.vars d.tx).log.length c d.toUpgrade u' → Inv u')
    (init : Inv d.toUpgrade) {es : List DevEvent} (guarded : (machine τ P).Guarded ok d es)
    (run : (machine τ P).run d es = some d') : Inv d'.toUpgrade := by
  have hstep : ∀ (d : Device τ σ) e d', Inv d.toUpgrade → ok d e →
      (machine τ P).step d e = some d' → Inv d'.toUpgrade := by
    intro d e d' hinv hok hstep
    rcases step_upgrade hstep with heq | ⟨hreb, c, rfl, hparses⟩
    · exact heq ▸ hinv
    · exact preserves d c _ hinv hok hreb hparses
  exact Machine.run_invariant (M := machine τ P) hstep init guarded run

/-- The same for the code from its start on. -/
theorem runFrom_upgrade (Inv : Upgrade σ → Prop) {ok : Device Tx σ → DevEvent → Prop}
    {heap : Heap} {mem : BufId → UartSendFormat} {msgPoolSize : Nat} {world : σ}
    {es : List DevEvent} {d : Device Tx σ}
    (preserves : ∀ (d : Device Tx σ) c u', Inv d.toUpgrade → ok d (.parse c) → d.rebooted = false →
      Upgrade.Parses P (SendOps.vars d.tx).log.length c d.toUpgrade u' → Inv u')
    (init : Inv ⟨⟨0, 0, 0, 0, 0, 0⟩, world, [], false⟩)
    (guarded : GuardedFrom P ok heap mem msgPoolSize world es)
    (run : runFrom P heap mem msgPoolSize world es = some d) : Inv d.toUpgrade := by
  unfold runFrom at run
  obtain ⟨tx, htx, hrun⟩ := Option.bind_eq_some_iff.mp run
  simp only [GuardedFrom, htx] at guarded
  exact run_upgrade preserves init guarded hrun

end Device

/-! ### Frames of a host -/

/-- A `CMD_UPG_REQUEST` for a firmware of this length. -/
def upgRequestFrame (sn : UInt8) (fwLen : UInt32) : Mem :=
  Mem.ofList (wireFrame wifiampDevHeader sn pdttypeBleFlash cmdUpgRequest
    ([0, 0, 0] ++ wordBytes fwLen))

/-- An `RSP_UPG_DATA` with the bytes `data` for `offset`. -/
def upgDataFrame (sn : UInt8) (offset : UInt32) (data : List UInt8) : Mem :=
  let crc := crc16 data
  Mem.ofList (wireFrame wifiampDevHeader sn pdttypeBleFlash rspUpgData
    (wordBytes offset ++ data ++ [(crc >>> 8).toUInt8, crc.toUInt8]))

/-- A platform on which every call succeeds. -/
def compliantPlatform : Platform Unit where
  bootloaderInit _ := (bootloaderOk, ())
  bootloaderEraseStorageSlot _ := (bootloaderOk, ())
  bootloaderWriteStorage _ _ _ := (bootloaderOk, ())
  bootloaderVerifyImage _ := (bootloaderOk, ())
  bootloaderSetImageToBootload _ := ()
  bootloaderRebootAndInstall _ := ()
  mbleRecordWrite _ _ _ := ()
  mibleGapAddressGet _ := (fun _ => 0, ())
  mibleGapAdvStart _ := ()
  geckoSetAdvData _ _ _ := (bgErrSuccess, ())

/-- A platform on which nothing succeeds, and which counts the calls of
`gecko_cmd_le_gap_bt5_set_adv_data`. -/
def refusingPlatform : Platform Nat where
  bootloaderInit n := (1, n)
  bootloaderEraseStorageSlot n := (1, n)
  bootloaderWriteStorage _ _ n := (1, n)
  bootloaderVerifyImage n := (1, n)
  bootloaderSetImageToBootload n := n
  bootloaderRebootAndInstall n := n
  mbleRecordWrite _ _ n := n
  mibleGapAddressGet n := (fun _ => 0, n)
  mibleGapAdvStart n := n
  geckoSetAdvData _ _ n := (bgErrInvalidParam, n + 1)

/-- The end of a run on blank memory, by evaluation. -/
theorem Device.exists_run (P : Platform σ) (world : σ) (es : List DevEvent)
    (p : Device Tx σ → Bool)
    (h : (runFrom P Sys.blankHeap Sys.blankMem 0 world es).any p = true) :
    ∃ d, runFrom P Sys.blankHeap Sys.blankMem 0 world es = some d ∧ p d = true := by
  cases hrun : runFrom P Sys.blankHeap Sys.blankMem 0 world es with
  | none => simp [hrun] at h
  | some d => exact ⟨d, rfl, by simpa [hrun] using h⟩

/-! ### Refused requests -/

/-- What makes `upg_request_rsp` refuse a request. -/
def Upgrade.Refuses (P : Platform σ) (fwLen : UInt32) (world : σ) : Prop :=
  fwLen > maxFwLen ∨ (P.bootloaderInit world).1 ≠ bootloaderOk ∨
    (P.bootloaderEraseStorageSlot (P.bootloaderInit world).2).1 ≠ bootloaderOk

/-- A refused request leaves its own length behind, or none. -/
theorem Upgrade.request_refused {P : Platform σ} {fwLen : UInt32} {u : Upgrade σ}
    (h : Refuses P fwLen u.world) (mark : Nat) :
    ∃ w, u.request P fwLen mark =
      (false, { u with
        iap := { u.iap with fwLen := if fwLen > maxFwLen then 0 else fwLen }
        world := w }) := by
  unfold request
  by_cases hlong : fwLen > maxFwLen
  · exact ⟨u.world, by simp [hlong]⟩
  by_cases hinit : (P.bootloaderInit u.world).1 = bootloaderOk
  · have herase := (h.resolve_left hlong).resolve_left (not_not.mpr hinit)
    exact ⟨(P.bootloaderEraseStorageSlot (P.bootloaderInit u.world).2).2,
      by simp [hlong, call, withWorld, hinit, herase]⟩
  · exact ⟨(P.bootloaderInit u.world).2, by simp [hlong, call, withWorld, hinit]⟩

theorem uartProtocolParse_refused [SendOps τ] {P : Platform σ} {c : Mem} {d : Device τ σ}
    {u : Upgrade σ} (request : accepts cmdUpgRequest c = true)
    (refused : d.toUpgrade.request P (Upgrade.announced c) (SendOps.vars d.tx).log.length =
      (false, u)) :
    uartProtocolParse P c d =
      some ⟨u, d.tx, argsParam dataOff (some [3, 1, 0]) d.param, d.bleConnState, d.notifyArray⟩ := by
  have hcheck : procotolCheck c = true := by
    simp only [accepts, Bool.and_eq_true] at request
    exact request.1.1
  have hack : askUpgRequest ≠ 0 := by decide
  simp only [uartProtocolParse, hcheck, Bool.true_eq_false, if_false,
    Device.uartCmd_upgRequest request, Device.upgRequestRsp, Device.argsParam_upgRequest,
    Option.bind_eq_bind, Option.bind_some, refused, ne_eq, hack, not_false_eq_true, if_true,
    ite_self]
  rfl

/-- **A refused request leaves the transfer state intact**, exactly if it leaves the
length of the running transfer behind. -/
theorem refused_keeps_iap [SendOps τ] (P : Platform σ) (c : Mem) (d : Device τ σ)
    (request : accepts cmdUpgRequest c = true)
    (refused : Upgrade.Refuses P (Upgrade.announced c) d.world) :
    ∃ d', uartProtocolParse P c d = some d' ∧
      (d'.iap = d.iap ↔
        d.iap.fwLen = if Upgrade.announced c > Upgrade.maxFwLen then 0 else Upgrade.announced c) := by
  obtain ⟨w, hrequest⟩ := Upgrade.request_refused refused (SendOps.vars d.tx).log.length
  refine ⟨_, uartProtocolParse_refused request hrequest, ?_⟩
  constructor
  · intro hsame
    exact (congrArg IapStr.fwLen hsame).symm
  · intro hlen
    simp only [← hlen]

/-- A transfer of 1000 bytes, the first of which has been stored. -/
def underWay : List DevEvent := [.parse (upgRequestFrame 0 1000), .parse (upgDataFrame 0 0 [1])]

/-- A platform whose slot can be erased once; the world says whether it has been. -/
def eraseOncePlatform : Platform Bool where
  bootloaderInit w := (bootloaderOk, w)
  bootloaderEraseStorageSlot w := (if w then 1 else bootloaderOk, true)
  bootloaderWriteStorage _ _ w := (bootloaderOk, w)
  bootloaderVerifyImage w := (bootloaderOk, w)
  bootloaderSetImageToBootload w := w
  bootloaderRebootAndInstall w := w
  mbleRecordWrite _ _ w := w
  mibleGapAddressGet w := (fun _ => 0, w)
  mibleGapAdvStart w := w
  geckoSetAdvData _ _ w := (bgErrSuccess, w)

/-- A second request for the same length is refused, and the transfer goes on. -/
theorem refused_keeps_iap_underWay :
    ∃ d d',
      Device.runFrom eraseOncePlatform Sys.blankHeap Sys.blankMem 0 false underWay = some d ∧
      uartProtocolParse eraseOncePlatform (upgRequestFrame 1 1000) d = some d' ∧
      d.iap.offset = 1 ∧ d'.iap = d.iap := by
  obtain ⟨d, hrun, hd⟩ := Device.exists_run eraseOncePlatform false underWay
    (fun d => decide (d.world = true ∧ d.iap.offset = 1 ∧ d.iap.fwLen = 1000)) (by decide +kernel)
  obtain ⟨hworld, hoffset, hlen⟩ := of_decide_eq_true hd
  have hrefuses : Upgrade.Refuses eraseOncePlatform (Upgrade.announced (upgRequestFrame 1 1000))
      d.world := .inr (.inr (by rw [hworld]; decide))
  obtain ⟨d', hparse, hiff⟩ := refused_keeps_iap eraseOncePlatform (upgRequestFrame 1 1000) d
    (by decide) hrefuses
  exact ⟨d, d', hrun, hparse, hoffset, hiff.mpr (hlen.trans (by decide))⟩

/-- A request for too much ends the transfer. -/
theorem refused_request_spoils :
    accepts cmdUpgRequest (upgRequestFrame 1 300000) = true ∧
      ∃ d d', Device.runFrom compliantPlatform Sys.blankHeap Sys.blankMem 0 () underWay = some d ∧
        Upgrade.Refuses compliantPlatform (Upgrade.announced (upgRequestFrame 1 300000)) d.world ∧
        uartProtocolParse compliantPlatform (upgRequestFrame 1 300000) d = some d' ∧
        d.iap.fwLen = 1000 ∧ d'.iap.fwLen = 0 := by
  obtain ⟨d, hrun, hlen⟩ := Device.exists_run compliantPlatform () underWay
    (fun d => d.iap.fwLen == 1000) (by decide +kernel)
  have hrefuses : Upgrade.Refuses compliantPlatform
      (Upgrade.announced (upgRequestFrame 1 300000)) d.world := .inl (by decide)
  obtain ⟨w, hrequest⟩ := Upgrade.request_refused hrefuses (SendOps.vars d.tx).log.length
  refine ⟨by decide, d, _, hrun, hrefuses, uartProtocolParse_refused (by decide) hrequest,
    by simpa using hlen, ?_⟩
  have hlong : Upgrade.announced (upgRequestFrame 1 300000) > Upgrade.maxFwLen := by decide
  simp only [if_pos hlong]

end WifiExpander
