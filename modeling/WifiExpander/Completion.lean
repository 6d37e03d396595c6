import WifiExpander.Integrity
import WifiExpander.Encoding
import WifiExpander.Parse

/-!
Does a transfer come to its end?

The host sends the pages of the image in order. Pages may come more than once,
damaged pages, other commands and the traffic of the other tasks may come between
them: once every page has come in its turn, each has been written once and the
image is installed.
-/

namespace WifiExpander

open WifiExpander.Theory

variable {σ : Type}

/-! ### Pages of an image -/

/-- The bytes of page `k` -/
def pageOf (image : List UInt8) (k : Nat) : List UInt8 := (image.drop (128 * k)).take 128

def pageCount (image : List UInt8) : Nat := (image.length + 127) / 128

/-- The writes of the first `k` pages -/
def pageWrites (image : List UInt8) (k : Nat) : List UpgObs :=
  (List.range k).map fun j => .wrote (UInt32.ofNat (128 * j)) (pageOf image j) true

/-- The data of the frame is page `k`. -/
def HasPage (image : List UInt8) (k : Nat) (c : Mem) : Prop :=
  Upgrade.declared c = UInt32.ofNat (128 * k) ∧ (Upgrade.page c).data = pageOf image k

instance (image : List UInt8) (k : Nat) (c : Mem) : Decidable (HasPage image k c) :=
  inferInstanceAs (Decidable (_ ∧ _))

/-- The host's frame for page `k` -/
structure CarriesPage (image : List UInt8) (k : Nat) (c : Mem) : Prop where
  accepted : accepts rspUpgData c = true
  page : HasPage image k c
  crc : (Upgrade.page c).crcVal = crc16 (Upgrade.page c).data

/-- The bytes the host sends for page `k` -/
def pageFrame (sn : UInt8) (image : List UInt8) (k : Nat) : List UInt8 :=
  let crc := crc16 (pageOf image k)
  wireFrame wifiampDevHeader sn pdttypeBleFlash rspUpgData
    (wordBytes (UInt32.ofNat (128 * k)) ++ (pageOf image k ++ [(crc >>> 8).toUInt8, crc.toUInt8]))

section

variable {image : List UInt8} {k : Nat}

theorem lt_pageCount : k < pageCount image ↔ 128 * k < image.length := by
  unfold pageCount
  omega

theorem length_pageOf : (pageOf image k).length = min 128 (image.length - 128 * k) := by
  rw [pageOf, List.length_take, List.length_drop]

theorem take_add_pageOf : image.take (128 * k) ++ pageOf image k = image.take (128 * (k + 1)) := by
  rw [pageOf, Nat.mul_succ, List.take_add]

theorem pageWrites_succ : pageWrites image (k + 1) =
    pageWrites image k ++ [.wrote (UInt32.ofNat (128 * k)) (pageOf image k) true] := by
  rw [pageWrites, List.range_succ, List.map_append]
  rfl

end

/-! ### Reading a frame -/

section

variable {c : Mem} {head sn pdtType cmdId : UInt8} {data : List UInt8}

theorem procotolCheck_wireFrame (hf : frameBytes c = wireFrame head sn pdtType cmdId data) :
    procotolCheck c = true := by
  have hbody : (frameBody sn pdtType cmdId data).length = data.length + 4 := by simp [frameBody]
  have hfour : 4 ≤ (frameBody sn pdtType cmdId data).length := by
    rw [hbody]
    exact Nat.le_add_left 4 _
  have hcheck : procotolCheck c = (checkSumCal (frameBody sn pdtType cmdId data) ==
      checkSumCal (frameBody sn pdtType cmdId data)) := procotolCheck_of_frame hf hfour
  rw [hcheck, beq_self_eq_true]

/-- The fields of a frame and its payload are where the handlers look for them. -/
theorem wireFrame_fields (hf : frameBytes c = wireFrame head sn pdtType cmdId data) :
    hdrLength c = data.length + 4 ∧ hdrPdtType c = pdtType ∧ hdrCmdId c = cmdId ∧
      c.bytes dataOff data.length = data := by
  have hlength : hdrLength c = data.length + 4 := by
    have hbytes := congrArg List.length hf
    simpa [frameBytes, wireFrame, frameBody] using hbytes
  set body := frameBody sn pdtType cmdId data
  have hsplit : [c 0, c 1, c 2, c 3, c 4, c 5, c 6] ++ (c.bytes 7 data.length ++
      c.bytes (7 + data.length) 1) = [head, UInt8.ofNat (body.length >>> 8),
        UInt8.ofNat body.length, 0, sn, pdtType, cmdId] ++ (data ++ [checkSumCal body]) := by
    have hbytes : c.bytes 0 7 ++ (c.bytes 7 data.length ++ c.bytes (7 + data.length) 1) =
        frameBytes c := by
      rw [frameBytes, hlength, show data.length + 4 + 4 = 7 + (data.length + 1) by omega,
        Mem.bytes_add c 0, Nat.zero_add, Mem.bytes_add c 7]
    exact hbytes.trans hf
  obtain ⟨hhead, hrest⟩ := List.append_inj hsplit rfl
  simp only [List.cons.injEq, and_true] at hhead
  obtain ⟨-, -, -, -, -, hpdt, hcmd⟩ := hhead
  exact ⟨hlength, hpdt, hcmd, (List.append_inj hrest (by simp)).1⟩

/-- The two CRC bytes, put together again. -/
theorem crc_of_bytes (crc : UInt16) :
    ((crc >>> 8).toUInt8.toUInt16 <<< 8) + crc.toUInt8.toUInt16 = crc := by
  have hlt := crc.toNat_lt
  rw [← UInt16.toNat_inj]
  simp only [UInt16.toNat_add, UInt16.toNat_shiftLeft, UInt8.toNat_toUInt16, UInt16.toNat_toUInt8,
    UInt16.toNat_shiftRight, UInt16.reduceToNat, Nat.shiftLeft_eq, Nat.shiftRight_eq_div_pow,
    Nat.reduceMod, Nat.reducePow]
  omega

/-- A frame in memory is read as that frame. -/
theorem frameBytes_ofList (hlen : data.length + 4 < 65536) :
    frameBytes (Mem.ofList (wireFrame head sn pdtType cmdId data)) =
      wireFrame head sn pdtType cmdId data := by
  have hbody : (frameBody sn pdtType cmdId data).length = data.length + 4 := by simp [frameBody]
  have hlength : hdrLength (Mem.ofList (wireFrame head sn pdtType cmdId data)) = data.length + 4 :=
    hdrLength_of_split hlen (by rw [← hbody]; rfl) (by rw [← hbody]; rfl)
  have hframe : (wireFrame head sn pdtType cmdId data).length = data.length + 8 := by
    simp [wireFrame, frameBody]
  rw [frameBytes, hlength]
  apply List.ext_getElem (by simp [hframe])
  intro i hi hi'
  rw [Mem.getElem_bytes, Nat.zero_add]
  simp [Mem.ofList, List.getD_eq_getElem?_getD, hi']

end

/-- **`upg_data_rsp` reads the page that the host sent.** -/
theorem carriesPage_of_frame {image : List UInt8} {k : Nat} {c : Mem} {sn : UInt8}
    (hf : frameBytes c = pageFrame sn image k) : CarriesPage image k c := by
  set crc := crc16 (pageOf image k) with hcrc
  have hshort : (pageOf image k).length ≤ 128 := by
    rw [length_pageOf]
    exact Nat.min_le_left _ _
  obtain ⟨hlength, hpdt, hcmd, hdata⟩ := wireFrame_fields hf
  simp only [List.length_append, length_wordBytes, List.length_cons, List.length_nil,
    Nat.zero_add] at hlength hdata
  rw [Mem.bytes_add, Mem.bytes_add] at hdata
  obtain ⟨hoffset, hrest⟩ := List.append_inj hdata (by simp)
  obtain ⟨hpage, hsum⟩ := List.append_inj hrest (by simp)
  have hdataLength : (Upgrade.page c).dataLength.toNat = (pageOf image k).length := by
    rw [page_dataLength (by omega), hlength, if_pos (by omega)]
    omega
  have hcrcOff : (UInt16.ofNat (hdrLength c) - 6).toNat = (pageOf image k).length + 4 := by
    rw [hlength, UInt16.toNat_sub, UInt16.toNat_ofNat']
    change (65536 - 6 + _) % 65536 = _
    omega
  have hread : (Upgrade.page c).data = pageOf image k := by
    rw [← hpage, ← hdataLength]
    rfl
  refine ⟨?_, ⟨wordAt_of_bytes hoffset, hread⟩, ?_⟩
  · simp [accepts, procotolCheck_wireFrame hf, toModule, hpdt, hcmd]
  · rw [hread, ← hcrc]
    have hpair : [c (dataOff + 4 + (pageOf image k).length),
        c (dataOff + 4 + (pageOf image k).length + 1)] = [(crc >>> 8).toUInt8, crc.toUInt8] := hsum
    simp only [List.cons.injEq, and_true] at hpair
    simp only [Upgrade.page, hcrcOff]
    rw [Nat.add_comm (pageOf image k).length 4, ← Nat.add_assoc, hpair.1, hpair.2, crc_of_bytes]

/-! ### Assumptions -/

/-- The bootloader carries out what it is asked to, and an image that is there as
sent is a good one. -/
structure BootloaderWorks (P : Platform σ) (slot : σ → List UInt8) (size : Nat)
    (image : List UInt8) : Prop where
  init : ∀ w, (P.bootloaderInit w).1 = bootloaderOk
  erase : ∀ w, (P.bootloaderEraseStorageSlot w).1 = bootloaderOk
  write : ∀ off bs w, off.toNat + bs.length ≤ size →
    (P.bootloaderWriteStorage off bs w).1 = bootloaderOk
  verify : ∀ w, (slot w).take image.length = image → (P.bootloaderVerifyImage w).1 = bootloaderOk

/-- No other request comes, and what passes the CRC is a page of the image. -/
def OnlyPages (image : List UInt8) : DevEvent → Prop
  | .parse c => accepts cmdUpgRequest c = false ∧
      (accepts rspUpgData c = true → 10 ≤ hdrLength c →
        (Upgrade.page c).crcVal = crc16 (Upgrade.page c).data →
          ∃ k < pageCount image, HasPage image k c)
  | _ => True

instance (image : List UInt8) : ∀ e, Decidable (OnlyPages image e)
  | .parse _ => inferInstanceAs (Decidable (_ ∧ (_ → _)))
  | .tick | .pend | .transmit | .complete | .inspect | .otherMsgs _ | .connState _
  | .bleStateNotify _ | .iapDone _ | .forward _ => isTrue trivial

theorem CarriesPage.onlyPages {image : List UInt8} {k : Nat} {c : Mem} (h : CarriesPage image k c)
    (hk : k < pageCount image) : OnlyPages image (.parse c) := by
  refine ⟨?_, fun _ _ _ => ⟨k, hk, h.page⟩⟩
  have haccepts := h.accepted
  simp only [accepts, Bool.and_eq_true, beq_iff_eq] at haccepts
  simp [accepts, haccepts.2, cmdUpgRequest, rspUpgData]

/-! ### The phases of a transfer -/

/-- The first `k` pages have been written since `hist`, and more are missing. -/
structure Transferring (slot : σ → List UInt8) (image : List UInt8) (hist : List UpgObs) (k : Nat)
    (u : Upgrade σ) : Prop where
  more : k < pageCount image
  offset : u.iap.offset = UInt32.ofNat (128 * k)
  fwLen : u.iap.fwLen = UInt32.ofNat image.length
  pageLen : u.iap.pageLen = 128
  awake : u.rebooted = false
  stored : (slot u.world).take (128 * k) = image.take (128 * k)
  hist_eq : u.hist = hist ++ pageWrites image k

/-- Every page has been written once and in order since `hist`, and the image,
which the slot holds, installed. -/
structure Installed (slot : σ → List UInt8) (image : List UInt8) (hist : List UpgObs)
    (u : Upgrade σ) : Prop where
  rebooted : u.rebooted = true
  slot_eq : (slot u.world).take image.length = image
  hist_eq : u.hist = hist ++ pageWrites image (pageCount image) ++ [.setImage, .reboot]

namespace Transferring

variable {P : Platform σ} {slot : σ → List UInt8} {size mark k : Nat} {image : List UInt8}
  {hist : List UpgObs} {u u' : Upgrade σ} {c : Mem}

theorem lt_length (h : Transferring slot image hist k u) : 128 * k < image.length :=
  lt_pageCount.mp h.more

theorem toNat_offset (h : Transferring slot image hist k u) (hlen : image.length ≤ 241664) :
    u.iap.offset.toNat = 128 * k := by
  have hlt := h.lt_length
  rw [h.offset, UInt32.toNat_ofNat']
  omega

/-- The page that is written is the one due. -/
theorem page_due (h : Transferring slot image hist k u) (hlen : image.length ≤ 241664)
    (hdata : accepts rspUpgData c = true) (honly : OnlyPages image (.parse c))
    (hok : Upgrade.pageOk (Upgrade.page c) (Upgrade.declared c) u.iap = true) :
    CarriesPage image k c := by
  have hten := Upgrade.pageOk_length (h.pageLen ▸ UInt32.le_refl _) hdata hok
  simp only [Upgrade.pageOk, decide_eq_true_eq] at hok
  obtain ⟨hcrc, hoffset, -⟩ := hok
  obtain ⟨j, hj, hpage⟩ := honly.2 hdata hten hcrc
  have heq : 128 * j = 128 * k := by
    have hnat := congrArg UInt32.toNat (hpage.1.symm.trans hoffset)
    have hjlt := lt_pageCount.mp hj
    rw [h.toNat_offset hlen, UInt32.toNat_ofNat'] at hnat
    omega
  obtain rfl : j = k := by omega
  exact ⟨hdata, hpage, hcrc⟩

/-- The page due passes the check. -/
theorem pageOk_due (h : Transferring slot image hist k u) (hpage : CarriesPage image k c) :
    Upgrade.pageOk (Upgrade.page c) (Upgrade.declared c) u.iap = true := by
  simp only [Upgrade.pageOk, decide_eq_true_eq]
  refine ⟨hpage.crc, hpage.page.1.trans h.offset.symm, ?_⟩
  have hlen := Upgrade.length_page_data c
  rw [hpage.page.2, length_pageOf] at hlen
  rw [h.pageLen, UInt32.le_iff_toNat_le, UInt16.toNat_toUInt32, ← hlen]
  exact Nat.min_le_left _ _

/-- Writing the page due. -/
theorem store (h : Transferring slot image hist k u) (laws : StorageLaws P slot size)
    (works : BootloaderWorks P slot size image) (hlen : image.length ≤ 241664)
    (hroom : image.length ≤ size) (hpage : CarriesPage image k c) :
    let u' := u.storePage P (Upgrade.page c) (Upgrade.declared c)
    u'.iap.offset.toNat = min (128 * (k + 1)) image.length ∧ u'.iap.fwLen = u.iap.fwLen ∧
      u'.iap.pageLen = 128 ∧ u'.rebooted = false ∧
      (slot u'.world).take (min (128 * (k + 1)) image.length) = image.take (128 * (k + 1)) ∧
      u'.hist = hist ++ pageWrites image (k + 1) := by
  have hok := h.pageOk_due hpage
  have hoffset := h.toNat_offset hlen
  have hlt := h.lt_length
  have hbytes : (Upgrade.page c).data.length = min 128 (image.length - 128 * k) := by
    rw [hpage.page.2, length_pageOf]
  have hwrite := works.write u.iap.offset (Upgrade.page c).data u.world (by omega)
  obtain ⟨-, hslot⟩ := laws.write_ok _ _ _ hwrite
  have hspec := Upgrade.storePage_spec P (Upgrade.page c) (Upgrade.declared c) u
  generalize u.storePage P (Upgrade.page c) (Upgrade.declared c) = u' at hspec
  cases hspec with
  | rejected hbad => simp [hok] at hbad
  | failed _ hbad => exact absurd hwrite hbad
  | stored _ _ hw =>
      subst hw
      refine ⟨?_, rfl, h.pageLen, h.awake, ?_, ?_⟩
      · have hcount := Upgrade.length_page_data c
        change (u.iap.offset + (Upgrade.page c).dataLength.toUInt32).toNat = _
        rw [UInt32.toNat_add, UInt16.toNat_toUInt32, ← hcount, hbytes, hoffset]
        omega
      · rw [hslot, hoffset, h.stored, hpage.page.2, take_add_pageOf]
        have hfull : (image.take (128 * (k + 1))).length = min (128 * (k + 1)) image.length :=
          List.length_take
        rw [List.take_append_of_le_length (Nat.le_of_eq hfull.symm),
          List.take_of_length_le (Nat.le_of_eq hfull)]
      · change u.hist ++ [.wrote u.iap.offset (Upgrade.page c).data true] = _
        rw [h.hist_eq, h.offset, hpage.page.2, pageWrites_succ, List.append_assoc]

/-- **A data frame** is passed over, or is the page due: then the next one is due,
or it was the last and the image is installed. -/
theorem takePage (h : Transferring slot image hist k u) (laws : StorageLaws P slot size)
    (works : BootloaderWorks P slot size image) (hlen : image.length ≤ 241664)
    (hroom : image.length ≤ size) (hdata : accepts rspUpgData c = true)
    (honly : OnlyPages image (.parse c)) :
    let u' := u.takePage P (Upgrade.page c) (Upgrade.declared c)
    Installed slot image hist u' ∨ Transferring slot image hist (k + 1) u' ∨
      Transferring slot image hist k u' ∧ ¬ CarriesPage image k c := by
  have hfw : u.iap.fwLen.toNat = image.length := by
    rw [h.fwLen, UInt32.toNat_ofNat']
    omega
  cases hok : Upgrade.pageOk (Upgrade.page c) (Upgrade.declared c) u.iap with
  | false =>
      have hkeep : u.takePage P (Upgrade.page c) (Upgrade.declared c) = u := by
        have hlt : u.iap.offset < u.iap.fwLen := by
          rw [UInt32.lt_iff_toNat_lt, h.toNat_offset hlen, hfw]
          exact h.lt_length
        simp [Upgrade.takePage, Upgrade.storePage, hok, hlt]
      refine .inr (.inr ⟨by rw [hkeep]; exact h, ?_⟩)
      intro hpage
      simp [h.pageOk_due hpage] at hok
  | true =>
      obtain ⟨hoffset, hfwLen, hpageLen, hawake, hstored, hhist⟩ :=
        h.store laws works hlen hroom (h.page_due hlen hdata honly hok)
      unfold Upgrade.takePage
      dsimp only
      generalize u.storePage P (Upgrade.page c) (Upgrade.declared c) = u₁ at *
      by_cases hlast : 128 * (k + 1) < image.length
      · have hlt : u₁.iap.offset < u₁.iap.fwLen := by
          rw [UInt32.lt_iff_toNat_lt, hfwLen, hfw, hoffset]
          omega
        rw [if_pos hlt]
        refine .inr (.inl ⟨lt_pageCount.mpr hlast, ?_, hfwLen.trans h.fwLen, hpageLen, hawake, ?_,
          hhist⟩)
        · rw [← UInt32.toNat_inj, hoffset, UInt32.toNat_ofNat']
          omega
        · rwa [Nat.min_eq_left (Nat.le_of_lt hlast)] at hstored
      · have hge : ¬ u₁.iap.offset < u₁.iap.fwLen := by
          rw [UInt32.lt_iff_toNat_lt, hfwLen, hfw, hoffset]
          omega
        have hcount : k + 1 = pageCount image := by
          have hmore := h.lt_length
          unfold pageCount
          omega
        have himage : (slot u₁.world).take image.length = image := by
          rwa [Nat.min_eq_right (Nat.le_of_not_lt hlast),
            List.take_of_length_le (Nat.le_of_not_lt hlast)] at hstored
        have hgood := works.verify u₁.world himage
        rw [if_neg hge]
        simp only [Upgrade.finish, Upgrade.call, hgood, if_true]
        refine .inl ⟨rfl, ?_, ?_⟩
        · change (slot (P.bootloaderRebootAndInstall _)).take _ = _
          rw [laws.reboot]
          change (slot (P.mbleRecordWrite _ _ _)).take _ = _
          rw [laws.record]
          change (slot (P.bootloaderSetImageToBootload _)).take _ = _
          rw [laws.setImage]
          change (slot (P.bootloaderVerifyImage _).2).take _ = _
          rw [laws.verify, himage]
        · change u₁.hist ++ [.setImage] ++ [.reboot] = _
          rw [hhist, hcount, List.append_assoc]
          rfl

/-- **A parsed frame** -/
theorem parses (h : Transferring slot image hist k u) (laws : StorageLaws P slot size)
    (works : BootloaderWorks P slot size image) (hlen : image.length ≤ 241664)
    (hroom : image.length ≤ size) (honly : OnlyPages image (.parse c))
    (hparses : Upgrade.Parses P mark c u u') :
    Installed slot image hist u' ∨ Transferring slot image hist (k + 1) u' ∨
      Transferring slot image hist k u' ∧ ¬ CarriesPage image k c := by
  cases hparses with
  | request hreq => simp [honly.1] at hreq
  | data hdata => exact h.takePage laws works hlen hroom hdata honly
  | other _ hnot haside =>
      refine .inr (.inr ⟨⟨h.more, h.offset, h.fwLen, h.pageLen, h.awake, ?_, h.hist_eq⟩, ?_⟩)
      · exact (congrArg _ (laws.aside haside)).trans h.stored
      · intro hpage
        simp [hpage.accepted] at hnot

/-- An accepted request starts a transfer. -/
theorem ofRequest (works : BootloaderWorks P slot size image) (hpos : image ≠ [])
    (hlen : image.length ≤ 241664) (hawake : u.rebooted = false) :
    Transferring slot image
      (u.hist ++ [.accepted (UInt32.ofNat image.length) mark]) 0
      (u.request P (UInt32.ofNat image.length) mark).2 := by
  have hshort : ¬ UInt32.ofNat image.length > Upgrade.maxFwLen := by
    have hmax : Upgrade.maxFwLen.toNat = 241664 := rfl
    rw [gt_iff_lt, UInt32.lt_iff_toNat_lt, hmax, UInt32.toNat_ofNat']
    omega
  have hmore : 0 < pageCount image := lt_pageCount.mpr (List.length_pos_iff.mpr hpos)
  simp only [Upgrade.request, if_neg hshort, Upgrade.call, Upgrade.withWorld, works.init,
    works.erase, ne_eq, not_true_eq_false, if_false]
  exact ⟨hmore, rfl, rfl, rfl, hawake, rfl, (List.append_nil _).symm⟩

end Transferring

/-! ### Runs -/

namespace Device

variable {P : Platform σ} {slot : σ → List UInt8} {size k : Nat} {image : List UInt8}
  {hist : List UpgObs} {d : Device Tx σ} {e : DevEvent}

/-- The state of the code is sound, and its transfer is in the phase `p`. -/
def InPhase (p : Upgrade σ → Prop) (d : Device Tx σ) : Prop :=
  d.Sound (fun _ => True) ∧ p d.toUpgrade

/-- **One step** of the device during a transfer. -/
theorem InPhase.advance (h : d.InPhase (Transferring slot image hist k))
    (laws : StorageLaws P slot size) (works : BootloaderWorks P slot size image)
    (hlen : image.length ≤ 241664) (hroom : image.length ≤ size)
    (hok : d.InspectFresh e ∧ OnlyPages image e) :
    ∃ d', d.step P e = some d' ∧ (d'.InPhase (Installed slot image hist) ∨
      d'.InPhase (Transferring slot image hist (k + 1)) ∨
      d'.InPhase (Transferring slot image hist k) ∧ ∀ c, CarriesPage image k c → e ≠ .parse c) := by
  obtain ⟨hsound, hphase⟩ := h
  obtain ⟨d', hstep, hsound'⟩ := hsound.step (P := P) hok.1
  refine ⟨d', hstep, ?_⟩
  by_cases hparse : ∃ c, e = .parse c
  · obtain ⟨c, rfl⟩ := hparse
    rcases hphase.parses laws works hlen hroom hok.2 (step_parse hphase.awake hstep) with
      hdone | hnext | ⟨hsame, hother⟩
    · exact .inl ⟨hsound', hdone⟩
    · exact .inr (.inl ⟨hsound', hnext⟩)
    · refine .inr (.inr ⟨⟨hsound', hsame⟩, ?_⟩)
      rintro c' hpage heq
      exact hother (DevEvent.parse.inj heq ▸ hpage)
  · have hsame : d'.toUpgrade = d.toUpgrade := by
      rcases step_upgrade hstep with heq | ⟨-, c, heq, -⟩
      · exact heq
      · exact absurd ⟨c, heq⟩ hparse
    refine .inr (.inr ⟨⟨hsound', hsame ▸ hphase⟩, ?_⟩)
    rintro c - heq
    exact hparse ⟨c, heq⟩

/-- After the reboot nothing happens. -/
theorem InPhase.stay (h : d.InPhase (Installed slot image hist)) :
    d.step P e = some d := by
  unfold step
  rw [if_pos h.2.rebooted]

end Device

/-- **A transfer completes.** The device accepts a request for an image that fits the
slot; the frames that follow carry its pages in order, among other traffic that asks for
no other image and has no other data with a right CRC, and the send task recycles no
buffer that is free or linked. Then the slot holds the image, and every page has been
written once, before the image was installed. -/
theorem upgrade_completes {P : Platform σ} {slot : σ → List UInt8} {size : Nat}
    (laws : StorageLaws P slot size) (image : List UInt8)
    (works : BootloaderWorks P slot size image) (hpos : image ≠ [])
    (hlen : image.length ≤ 241664) (hroom : image.length ≤ size) (heap : Heap)
    (mem : BufId → UartSendFormat) (msgPoolSize : Nat) (world : σ) (before : List DevEvent)
    (fresh : Device.GuardedFrom P (fun d e => d.InspectFresh e) heap mem msgPoolSize world before)
    (d : Device Tx σ) (run : Device.runFrom P heap mem msgPoolSize world before = some d)
    (awake : d.rebooted = false) (c : Mem) (request : accepts cmdUpgRequest c = true)
    (announces : Upgrade.announced c = UInt32.ofNat image.length) (frames : List Mem)
    (pages : frames.length = pageCount image)
    (carry : ∀ k (h : k < frames.length), ∃ sn, frameBytes frames[k] = pageFrame sn image k)
    (es : List DevEvent)
    (guarded : ∀ d₀, d.step P (.parse c) = some d₀ →
      (Device.machine Tx P).Guarded (fun d e => d.InspectFresh e ∧ OnlyPages image e) d₀ es)
    (arrive : (frames.map DevEvent.parse).Sublist es) :
    ∃ d', (Device.machine Tx P).run d (.parse c :: es) = some d' ∧
      Installed slot image
        (d.hist ++ [.accepted (UInt32.ofNat image.length) d.tx.log.length]) d'.toUpgrade := by
  obtain ⟨d₁, hrun, hsound⟩ := Device.sound_runFrom fresh
  obtain rfl : d = d₁ := Option.some.inj (run.symm.trans hrun)
  obtain ⟨d₀, hstep, hsound₀⟩ := hsound.step (P := P) (e := .parse c) trivial
  have hstart : d₀.InPhase (Transferring slot image
      (d.hist ++ [.accepted (UInt32.ofNat image.length) d.tx.log.length]) 0) := by
    have hparses := Device.step_parse awake hstep
    have hupgrade : d₀.toUpgrade =
        (d.toUpgrade.request P (UInt32.ofNat image.length) d.tx.log.length).2 := by
      generalize d₀.toUpgrade = u at hparses
      cases hparses with
      | request => rw [announces]; rfl
      | data hdata => simp [accepts_upgData_of_request request] at hdata
      | other hnot => simp [request] at hnot
    exact ⟨hsound₀, hupgrade ▸ Transferring.ofRequest works hpos hlen awake⟩
  obtain ⟨d', hrun', hdone⟩ := Machine.run_script (M := Device.machine Tx P)
    (fun k d' => d'.InPhase (Transferring slot image
      (d.hist ++ [.accepted (UInt32.ofNat image.length) d.tx.log.length]) k))
    (fun d' => d'.InPhase (Installed slot image
      (d.hist ++ [.accepted (UInt32.ofNat image.length) d.tx.log.length])))
    (fun k d₂ e h hok => by
      obtain ⟨d₃, hstep, hnext⟩ := h.advance laws works hlen hroom hok
      refine ⟨d₃, hstep, hnext.imp_right (Or.imp_right ?_)⟩
      rintro ⟨hsame, hother⟩
      refine ⟨hsame, ?_⟩
      intro hscript
      rw [List.getElem?_map, Option.map_eq_some_iff] at hscript
      obtain ⟨c, hc, rfl⟩ := hscript
      obtain ⟨hk, rfl⟩ := List.getElem?_eq_some_iff.mp hc
      obtain ⟨sn, hframe⟩ := carry k hk
      exact hother _ (carriesPage_of_frame hframe) rfl)
    (fun d₂ e h _ => ⟨d₂, h.stay, h⟩)
    (fun k d₂ h => by
      rw [List.length_map, pages]
      exact h.2.more)
    hstart (guarded d₀ hstep) arrive
  exact ⟨d', Machine.run_cons.mpr ⟨d₀, hstep, hrun'⟩, hdone.2⟩

/-- A slot in memory, with a bootloader that takes every image to be good. -/
def workingFlash (size : Nat) : Platform Mem :=
  { flash size (fun _ => (bootloaderOk, fun _ => 0xFF)) with
    bootloaderVerifyImage := fun w => (bootloaderOk, w) }

theorem workingFlash_laws {size : Nat} (hsize : size < UInt32.size) :
    StorageLaws (workingFlash size) (fun w => w.bytes 0 size) size :=
  have h : StorageLaws (flash size fun _ => (bootloaderOk, fun _ => 0xFF))
      (fun w => w.bytes 0 size) size := flash_laws hsize fun _ _ => rfl
  ⟨h.length, h.size_lt, h.write_ok, h.write_failed, h.erase_ok, h.init, fun _ => rfl, h.setImage,
    h.reboot, h.record, h.address, h.advStart, h.advData⟩

theorem workingFlash_works (size : Nat) (image : List UInt8) :
    BootloaderWorks (workingFlash size) (fun w => w.bytes 0 size) size image where
  init _ := rfl
  erase _ := rfl
  write off bs w h := by simp [workingFlash, flash, h]
  verify _ _ := rfl

/-- One byte more than a page -/
def smallImage : List UInt8 := List.replicate 128 0x5A ++ [0xA5]

/-- A host's frame with page `k` of it -/
def smallPage (sn : UInt8) (k : Nat) : Mem := Mem.ofList (pageFrame sn smallImage k)

theorem smallPage_frame (sn : UInt8) (k : Nat) :
    frameBytes (smallPage sn k) = pageFrame sn smallImage k := by
  apply frameBytes_ofList
  have hlen : (pageOf smallImage k).length ≤ 128 := by
    rw [length_pageOf]
    exact Nat.min_le_left _ _
  simp only [List.length_append, length_wordBytes, List.length_cons, List.length_nil]
  omega

/-- Its second page comes too early, and the first one twice. -/
theorem upgrade_completes_small :
    ∃ tx, Tx.uartContextInit Sys.blankHeap Sys.blankMem 0 = some tx ∧
      ∃ d', (Device.machine Tx (workingFlash 256)).run (Device.boot tx fun _ => 0)
          [.parse (upgRequestFrame 0 129), .parse (smallPage 0 1), .parse (smallPage 0 0),
            .parse (smallPage 1 0), .tick, .parse (smallPage 2 1)] = some d' ∧
        Installed (fun w : Mem => w.bytes 0 256) smallImage
          ((Device.boot tx fun _ => 0 : Device Tx Mem).hist ++
            [.accepted (UInt32.ofNat smallImage.length) tx.log.length]) d'.toUpgrade := by
  obtain ⟨tx, htx, -⟩ := uartContextInit_spec Sys.blankHeap Sys.blankMem 0
  have hlen : smallImage.length = 129 := by simp [smallImage]
  have only : ∀ sn k, k < 2 → OnlyPages smallImage (.parse (smallPage sn k)) := fun sn k hk =>
    (carriesPage_of_frame (smallPage_frame sn k)).onlyPages
      (lt_pageCount.mpr (by rw [hlen]; omega))
  refine ⟨tx, htx, upgrade_completes (workingFlash_laws (by decide)) smallImage
    (workingFlash_works 256 smallImage) (by simp [smallImage]) (by simp [hlen]) (by simp [hlen])
    Sys.blankHeap Sys.blankMem 0 (fun _ => 0) [] ?_ (Device.boot tx fun _ => 0) ?_ rfl
    (upgRequestFrame 0 129) (by decide) (by rw [hlen]; decide) [smallPage 0 0, smallPage 2 1]
    (by simp [pageCount, hlen]) ?_ _ ?_ ?_⟩
  · simp only [Device.GuardedFrom, htx]
    trivial
  · simp only [Device.runFrom, htx]
    rfl
  · intro k hk
    have htwo : k = 0 ∨ k = 1 := by
      simp only [List.length_cons, List.length_nil] at hk
      omega
    rcases htwo with rfl | rfl
    · exact ⟨0, smallPage_frame 0 0⟩
    · exact ⟨2, smallPage_frame 2 1⟩
  · intro d₀ _
    exact ⟨⟨trivial, only 0 1 (by omega)⟩, fun _ _ => ⟨⟨trivial, only 0 0 (by omega)⟩, fun _ _ =>
      ⟨⟨trivial, only 1 0 (by omega)⟩, fun _ _ => ⟨⟨trivial, trivial⟩, fun _ _ =>
        ⟨⟨trivial, only 2 1 (by omega)⟩, fun _ _ => trivial⟩⟩⟩⟩⟩
  · exact .cons _ (.cons_cons _ (.cons _ (.cons _ (.cons_cons _ .slnil))))

end WifiExpander
