import WifiExpander.Upgrade

/-!
Does the slot hold the image?

The bootloader's storage is assumed to do what it reports (`StorageLaws`). As long
as the valid pages carry the bytes of one image and no failed erase alters the
slot, the slot holds the image up to `offset`, and writes follow one another
without gap or overlap.
-/

namespace WifiExpander

open WifiExpander.Theory

variable {σ : Type}

/-- The documented behaviour of the storage slot, which holds `size` bytes. -/
structure StorageLaws (P : Platform σ) (slot : σ → List UInt8) (size : Nat) : Prop where
  length : ∀ w, (slot w).length = size
  size_lt : size < UInt32.size
  write_ok : ∀ off bs w, (P.bootloaderWriteStorage off bs w).1 = bootloaderOk →
    off.toNat + bs.length ≤ size ∧ slot (P.bootloaderWriteStorage off bs w).2 =
      (slot w).take off.toNat ++ bs ++ (slot w).drop (off.toNat + bs.length)
  write_failed : ∀ off bs w, (P.bootloaderWriteStorage off bs w).1 ≠ bootloaderOk →
    slot (P.bootloaderWriteStorage off bs w).2 = slot w
  erase_ok : ∀ w, (P.bootloaderEraseStorageSlot w).1 = bootloaderOk →
    slot (P.bootloaderEraseStorageSlot w).2 = List.replicate size 0xFF
  init : ∀ w, slot (P.bootloaderInit w).2 = slot w
  verify : ∀ w, slot (P.bootloaderVerifyImage w).2 = slot w
  setImage : ∀ w, slot (P.bootloaderSetImageToBootload w) = slot w
  reboot : ∀ w, slot (P.bootloaderRebootAndInstall w) = slot w
  record : ∀ id bs w, slot (P.mbleRecordWrite id bs w) = slot w
  address : ∀ w, slot (P.mibleGapAddressGet w).2 = slot w
  advStart : ∀ w, slot (P.mibleGapAdvStart w) = slot w
  advData : ∀ packet bs w, slot (P.geckoSetAdvData packet bs w).2 = slot w

theorem StorageLaws.aside {P : Platform σ} {slot : σ → List UInt8} {size : Nat}
    (laws : StorageLaws P slot size) {w w' : σ} (h : P.Aside w w') : slot w' = slot w := by
  induction h with
  | refl => rfl
  | address _ ih => rw [laws.address, ih]
  | advStart _ ih => rw [laws.advStart, ih]
  | advData packet data _ ih => rw [laws.advData, ih]

/-! ### The writes of a transfer -/

/-- Where the last accepted write of the current transfer ended. -/
def slotEnd (hist : List UpgObs) : Nat :=
  hist.foldl (fun e o =>
    match o with
    | .accepted _ _ => 0
    | .wrote off data true => off.toNat + data.length
    | _ => e) 0

/-- Every write starts where the last accepted write ended. -/
def Contiguous : List UpgObs → Prop :=
  Past fun pre o => ∀ off data ok, o = .wrote off data ok → off.toNat = slotEnd pre

/-- Of two accepted writes with no erase between them, the first ends before the
second begins. -/
def WrittenOnce (hist : List UpgObs) : Prop :=
  ∀ pre off data mid off' data' post,
    hist = pre ++ .wrote off data true :: mid ++ .wrote off' data' true :: post →
      (∀ o ∈ mid, o.requested = none) → off.toNat + data.length ≤ off'.toNat

theorem slotEnd_concat (hist : List UpgObs) (o : UpgObs) :
    slotEnd (hist ++ [o]) =
      match o with
      | .accepted _ _ => 0
      | .wrote off data true => off.toNat + data.length
      | _ => slotEnd hist := by
  simp [slotEnd, List.foldl_append]

/-- Between two erases the end of the writes only moves up. -/
theorem Contiguous.le_slotEnd {pre mid : List UpgObs} (h : Contiguous (pre ++ mid))
    (hmid : ∀ o ∈ mid, o.requested = none) : slotEnd pre ≤ slotEnd (pre ++ mid) := by
  induction mid using List.reverseRecOn with
  | nil => simp
  | append_singleton mid o ih =>
      rw [← List.append_assoc] at h ⊢
      have hle := ih (Past.left h) fun a ha => hmid a (List.mem_append_left _ ha)
      have ho := hmid o (by simp)
      rw [slotEnd_concat]
      match o with
      | .accepted _ _ => cases ho
      | .wrote off data true =>
          have hstart : off.toNat = slotEnd (pre ++ mid) :=
            h (pre ++ mid) (.wrote off data true) [] rfl off data true rfl
          change slotEnd pre ≤ off.toNat + data.length
          omega
      | .wrote _ _ false | .setImage | .reboot => exact hle

theorem Contiguous.writtenOnce {hist : List UpgObs} (h : Contiguous hist) : WrittenOnce hist := by
  intro pre off data mid off' data' post heq hmid
  have hsplit : hist = pre ++ [.wrote off data true] ++ mid ++ .wrote off' data' true :: post := by
    simp [heq]
  have hstart : off'.toNat = slotEnd (pre ++ [.wrote off data true] ++ mid) :=
    h _ (.wrote off' data' true) post hsplit off' data' true rfl
  rw [hsplit] at h
  have hle := Contiguous.le_slotEnd (Past.left h) hmid
  rw [slotEnd_concat] at hle
  rw [hstart]
  exact hle

/-! ### Pages -/

/-- The length of a page: the field minus 10, or far too long. -/
theorem page_dataLength {c : Mem} (h : 4 ≤ hdrLength c) :
    (Upgrade.page c).dataLength.toNat =
      if 10 ≤ hdrLength c then hdrLength c - 10 else hdrLength c + 65526 := by
  have hlt := hdrLength_lt c
  simp only [Upgrade.page, UInt16.toNat_sub, UInt16.toNat_ofNat']
  change (65536 - 4 + (65536 - 6 + hdrLength c % 65536) % 65536) % 65536 = _
  split <;> omega

theorem accepts_length {c : Mem} {cmd : UInt8} (h : accepts cmd c = true) : 4 ≤ hdrLength c := by
  simp only [accepts, Bool.and_eq_true] at h
  exact four_le_hdrLength h.1.1

/-- A frame whose CRC matches carries the bytes of the image at its offset. -/
def Carries (image : List UInt8) (c : Mem) : Prop :=
  (Upgrade.page c).crcVal = crc16 (Upgrade.page c).data →
    (Upgrade.declared c).toNat + (Upgrade.page c).dataLength.toNat ≤ image.length ∧
      (Upgrade.page c).data =
        (image.drop (Upgrade.declared c).toNat).take (Upgrade.page c).dataLength.toNat

instance (image : List UInt8) (c : Mem) : Decidable (Carries image c) :=
  inferInstanceAs (Decidable (_ → _))

namespace Upgrade

/-- If the erase for this request fails, it leaves the slot as it was. -/
def ErasesCleanly (P : Platform σ) (slot : σ → List UInt8) (u : Upgrade σ) (c : Mem) : Prop :=
  announced c ≤ maxFwLen → (P.bootloaderInit u.world).1 = bootloaderOk →
    (P.bootloaderEraseStorageSlot (P.bootloaderInit u.world).2).1 ≠ bootloaderOk →
      slot (P.bootloaderEraseStorageSlot (P.bootloaderInit u.world).2).2 = slot u.world

instance (P : Platform σ) (slot : σ → List UInt8) (u : Upgrade σ) (c : Mem) :
    Decidable (u.ErasesCleanly P slot c) := inferInstanceAs (Decidable (_ → _))

/-- The slot holds the image up to `offset`, where the writes have come to. -/
structure Holds (slot : σ → List UInt8) (image : List UInt8) (u : Upgrade σ) : Prop where
  bound : u.iap.offset.toNat ≤ image.length
  prefix_eq : (slot u.world).take u.iap.offset.toNat = image.take u.iap.offset.toNat
  contiguous : Contiguous u.hist
  slotEnd : slotEnd u.hist = u.iap.offset.toNat
  pageLen : u.iap.pageLen ≤ 128

variable {P : Platform σ} {slot : σ → List UInt8} {size : Nat} {image : List UInt8}
  {u u' : Upgrade σ} {mark : Nat} {c : Mem}

theorem pageOk_length (hpageLen : u.iap.pageLen ≤ 128) (hc : accepts rspUpgData c = true)
    (hok : pageOk (page c) (declared c) u.iap = true) : 10 ≤ hdrLength c := by
  simp only [pageOk, decide_eq_true_eq] at hok
  have hle := UInt32.le_iff_toNat_le.mp (UInt32.le_trans hok.2.2 hpageLen)
  rw [UInt16.toNat_toUInt32, page_dataLength (accepts_length hc)] at hle
  have h128 : (128 : UInt32).toNat = 128 := rfl
  split at hle <;> omega

namespace Holds

theorem request (h : u.Holds slot image) (laws : StorageLaws P slot size)
    (hclean : u.ErasesCleanly P slot c) : (u.request P (announced c) mark).2.Holds slot image := by
  have hspec := request_spec P (announced c) mark u
  generalize u.request P (announced c) mark = res at hspec
  have hsame : ∀ {w : σ} {fwLen : UInt32}, slot w = slot u.world →
      Holds slot image { u with iap := { u.iap with fwLen }, world := w } := fun hw =>
    ⟨h.bound, by rw [← h.prefix_eq]; exact congrArg _ hw, h.contiguous, h.slotEnd, h.pageLen⟩
  cases hspec with
  | tooLong => exact hsame rfl
  | initFailed _ hw => exact hsame (hw ▸ laws.init _)
  | eraseFailed hle hinit herase hw => exact hsame (hw ▸ hclean hle hinit herase)
  | accepted =>
      refine ⟨Nat.zero_le _, rfl, h.contiguous.concat (by simp), ?_, UInt32.le_refl _⟩
      rw [slotEnd_concat]
      rfl

/-- A write that is issued starts at `offset`. -/
theorem concat_wrote (h : u.Holds slot image) (data : List UInt8) (ok : Bool) :
    Contiguous (u.hist ++ [.wrote u.iap.offset data ok]) := by
  apply h.contiguous.concat
  intro off data' ok' heq
  obtain ⟨rfl, -⟩ := UpgObs.wrote.inj heq
  exact h.slotEnd.symm

theorem storePage (h : u.Holds slot image) (laws : StorageLaws P slot size)
    (hc : accepts rspUpgData c = true) (hcarries : 10 ≤ hdrLength c → Carries image c) :
    (u.storePage P (page c) (declared c)).Holds slot image := by
  have hspec := storePage_spec P (page c) (declared c) u
  generalize u.storePage P (page c) (declared c) = u' at hspec
  cases hspec with
  | rejected => exact h
  | failed _ hres hw =>
      refine ⟨h.bound, ?_, h.concat_wrote _ _, ?_, h.pageLen⟩
      · rw [hw, laws.write_failed _ _ _ hres]
        exact h.prefix_eq
      · rw [slotEnd_concat]
        exact h.slotEnd
  | stored hok hres hw =>
      obtain ⟨hroom, hslot⟩ := laws.write_ok _ _ _ hres
      have hpage := hok
      simp only [pageOk, decide_eq_true_eq] at hpage
      obtain ⟨hfits, hdata⟩ := hcarries (pageOk_length h.pageLen hc hok) hpage.1
      rw [hpage.2.1] at hfits hdata
      rw [length_page_data] at hroom
      have hsum : (u.iap.offset + (page c).dataLength.toUInt32).toNat =
          u.iap.offset.toNat + (page c).dataLength.toNat := by
        rw [UInt32.toNat_add, UInt16.toNat_toUInt32]
        exact Nat.mod_eq_of_lt (Nat.lt_of_le_of_lt hroom laws.size_lt)
      have hlen : ((slot u.world).take u.iap.offset.toNat).length = u.iap.offset.toNat := by
        rw [List.length_take, laws.length]
        omega
      refine ⟨hsum ▸ hfits, ?_, h.concat_wrote _ _, ?_, h.pageLen⟩
      · change (slot _).take (u.iap.offset + (page c).dataLength.toUInt32).toNat = _
        rw [hsum, hw, hslot, List.take_append_of_le_length (by simp [hlen]),
          List.take_of_length_le (by simp [hlen]), h.prefix_eq, hdata]
        exact List.take_add.symm
      · rw [slotEnd_concat]
        change u.iap.offset.toNat + (page c).data.length = _
        rw [length_page_data]
        exact hsum.symm

theorem parses (h : u.Holds slot image) (laws : StorageLaws P slot size)
    (hclean : accepts cmdUpgRequest c = true → u.ErasesCleanly P slot c)
    (hcarries : accepts rspUpgData c = true → 10 ≤ hdrLength c → Carries image c)
    (hparses : Parses P mark c u u') : u'.Holds slot image := by
  cases hparses with
  | request hc => exact h.request laws (hclean hc)
  | data hc =>
      have hstore := h.storePage laws hc (hcarries hc)
      apply takePage_rule hstore
      intro res _ hspec
      generalize u.storePage P (page c) (declared c) = u₁ at hstore hspec
      cases hspec with
      | bad hw =>
          refine ⟨hstore.bound, ?_, hstore.contiguous, hstore.slotEnd, hstore.pageLen⟩
          rw [hw]
          exact (congrArg _ (laws.verify _)).trans hstore.prefix_eq
      | good hw =>
          refine ⟨hstore.bound, ?_, ?_, ?_, hstore.pageLen⟩
          · rw [hw, laws.reboot, laws.record, laws.setImage, laws.verify]
            exact hstore.prefix_eq
          · exact (hstore.contiguous.concat (by simp)).concat (by simp)
          · rw [slotEnd_concat, slotEnd_concat]
            exact hstore.slotEnd
  | other _ _ haside =>
      refine ⟨h.bound, ?_, h.contiguous, h.slotEnd, h.pageLen⟩
      exact (congrArg _ (laws.aside haside)).trans h.prefix_eq

end Holds

end Upgrade

/-! ### Runs -/

/-- What integrity asks of the frames: valid pages carry the bytes of the image. -/
def Device.CarriesImage (image : List UInt8) (d : Device Tx σ) : DevEvent → Prop
  | .parse c => d.rebooted = false → accepts rspUpgData c = true → 10 ≤ hdrLength c →
      Carries image c
  | _ => True

/-- What it asks of the platform besides: no failed erase alters the slot. -/
def Device.ErasesCleanly (P : Platform σ) (slot : σ → List UInt8) (d : Device Tx σ) :
    DevEvent → Prop
  | .parse c => d.rebooted = false → accepts cmdUpgRequest c = true →
      d.toUpgrade.ErasesCleanly P slot c
  | _ => True

instance (image : List UInt8) (d : Device Tx σ) : ∀ e, Decidable (d.CarriesImage image e)
  | .parse _ => inferInstanceAs (Decidable (_ → _))
  | .tick | .pend | .transmit | .complete | .inspect | .otherMsgs _ | .connState _
  | .bleStateNotify _ | .iapDone _ | .forward _ => isTrue trivial

instance (P : Platform σ) (slot : σ → List UInt8) (d : Device Tx σ) :
    ∀ e, Decidable (d.ErasesCleanly P slot e)
  | .parse _ => inferInstanceAs (Decidable (_ → _))
  | .tick | .pend | .transmit | .complete | .inspect | .otherMsgs _ | .connState _
  | .bleStateNotify _ | .iapDone _ | .forward _ => isTrue trivial

/-- A data frame that is not accepted changes neither the slot nor `offset`. -/
def Device.RejectsSafely (P : Platform σ) (slot : σ → List UInt8) (d : Device Tx σ) : Prop :=
  ∀ c d', accepts rspUpgData c = true → d.step P (.parse c) = some d' →
    (Upgrade.pageOk (Upgrade.page c) (Upgrade.declared c) d.iap = true →
      (P.bootloaderWriteStorage d.iap.offset (Upgrade.page c).data d.world).1 ≠ bootloaderOk) →
    slot d'.world = slot d.world ∧ d'.iap.offset = d.iap.offset

/-- The slot holds the image up to `offset`, writes follow one another, and a frame
that is not accepted changes nothing. -/
structure Device.Intact (P : Platform σ) (slot : σ → List UInt8) (image : List UInt8)
    (d : Device Tx σ) : Prop where
  bound : d.toUpgrade.transfer ≠ none → d.iap.offset.toNat ≤ image.length
  prefix_eq : d.toUpgrade.transfer ≠ none →
    (slot d.world).take d.iap.offset.toNat = image.take d.iap.offset.toNat
  contiguous : Contiguous d.hist
  writtenOnce : WrittenOnce d.hist
  rejects : d.RejectsSafely P slot

theorem Device.rejectsSafely {P : Platform σ} {slot : σ → List UInt8} {size : Nat}
    (laws : StorageLaws P slot size) (d : Device Tx σ) : d.RejectsSafely P slot := by
  intro c d' hc hstep hbad
  rcases step_upgrade hstep with heq | ⟨-, c', hparse, hparses⟩
  · exact ⟨by rw [heq], by rw [heq]⟩
  obtain rfl := DevEvent.parse.inj hparse
  have hnot : accepts cmdUpgRequest c = false := by
    simp only [accepts, Bool.and_eq_true, beq_iff_eq] at hc ⊢
    simp [hc.2, rspUpgData, cmdUpgRequest]
  generalize d'.toUpgrade = u' at hparses
  cases hparses with
  | request h => simp [hnot] at h
  | other _ h => simp [hc] at h
  | data =>
      have hstore : slot (d.toUpgrade.storePage P (Upgrade.page c) (Upgrade.declared c)).world =
            slot d.world ∧
          (d.toUpgrade.storePage P (Upgrade.page c) (Upgrade.declared c)).iap.offset =
            d.iap.offset := by
        have hspec := Upgrade.storePage_spec P (Upgrade.page c) (Upgrade.declared c) d.toUpgrade
        generalize d.toUpgrade.storePage P (Upgrade.page c) (Upgrade.declared c) = u at hspec
        cases hspec with
        | rejected => exact ⟨rfl, rfl⟩
        | failed _ hres hw => exact ⟨by rw [hw]; exact laws.write_failed _ _ _ hres, rfl⟩
        | stored hok hres => exact absurd hres (hbad hok)
      refine Upgrade.takePage_rule
        (motive := fun u => slot u.world = slot d.world ∧ u.iap.offset = d.iap.offset) hstore ?_
      intro res _ hspec
      generalize d.toUpgrade.storePage P (Upgrade.page c) (Upgrade.declared c) = u at hstore hspec
      cases hspec with
      | bad hw => exact ⟨(hw ▸ laws.verify _ : slot _ = _).trans hstore.1, hstore.2⟩
      | good hw =>
          refine ⟨?_, hstore.2⟩
          rw [hw, laws.reboot, laws.record, laws.setImage, laws.verify]
          exact hstore.1

/-- With storage that does what it reports, valid pages of one image and no failed
erase that alters the slot, **the transfer is intact**. -/
theorem transfer_intact {P : Platform σ} {slot : σ → List UInt8} {size : Nat}
    (laws : StorageLaws P slot size) (image : List UInt8) (heap : Heap)
    (mem : BufId → UartSendFormat) (msgPoolSize : Nat) (world : σ) (es : List DevEvent)
    (guarded : Device.GuardedFrom P (fun d e => d.CarriesImage image e ∧ d.ErasesCleanly P slot e)
      heap mem msgPoolSize world es)
    (d : Device Tx σ) (run : Device.runFrom P heap mem msgPoolSize world es = some d) :
    d.Intact P slot image := by
  have hholds := Device.runFrom_upgrade (Upgrade.Holds slot image)
    (fun _ _ _ h hok hreb hparses =>
      h.parses laws (hok.2 hreb) (hok.1 hreb) hparses)
    ⟨Nat.zero_le _, rfl, past_nil, rfl, (by decide : (0 : UInt32) ≤ 128)⟩ guarded run
  exact ⟨fun _ => hholds.bound, fun _ => hholds.prefix_eq, hholds.contiguous,
    hholds.contiguous.writtenOnce, d.rejectsSafely laws⟩

/-! ### A storage slot in memory -/

/-- A slot of `size` bytes at the start of a memory, with some way of erasing it. -/
def flash (size : Nat) (erase : Mem → Int × Mem) : Platform Mem where
  bootloaderInit w := (bootloaderOk, w)
  bootloaderEraseStorageSlot := erase
  bootloaderWriteStorage off bs w :=
    if off.toNat + bs.length ≤ size then (bootloaderOk, w.write off.toNat bs) else (-1, w)
  bootloaderVerifyImage w := (-1, w)
  bootloaderSetImageToBootload w := w
  bootloaderRebootAndInstall w := w
  mbleRecordWrite _ _ w := w
  mibleGapAddressGet w := (fun _ => 0, w)
  mibleGapAdvStart w := w
  geckoSetAdvData _ _ w := (bgErrSuccess, w)

theorem Mem.bytes_write_take_drop {m : Mem} {off size : Nat} {bs : List UInt8}
    (h : off + bs.length ≤ size) :
    (m.write off bs).bytes 0 size =
      (m.bytes 0 size).take off ++ bs ++ (m.bytes 0 size).drop (off + bs.length) := by
  have hsplit : ∀ m : Mem, m.bytes 0 size =
      m.bytes 0 off ++ m.bytes off bs.length ++
        m.bytes (off + bs.length) (size - (off + bs.length)) := by
    intro m
    have hsize : size = off + bs.length + (size - (off + bs.length)) := by omega
    conv_lhs => rw [hsize]
    rw [Mem.bytes_add, Mem.bytes_add, Nat.zero_add, Nat.zero_add]
  have hbefore : (m.write off bs).bytes 0 off = m.bytes 0 off :=
    Mem.bytes_congr fun i hi => Mem.write_of_lt (by omega)
  have hafter : (m.write off bs).bytes (off + bs.length) (size - (off + bs.length)) =
      m.bytes (off + bs.length) (size - (off + bs.length)) :=
    Mem.bytes_congr fun i _ => if_neg (by omega)
  have htake : (m.bytes 0 size).take off = m.bytes 0 off := by
    rw [hsplit m, List.append_assoc, List.take_left' (by simp)]
  have hdrop : (m.bytes 0 size).drop (off + bs.length) =
      m.bytes (off + bs.length) (size - (off + bs.length)) := by
    rw [hsplit m, List.drop_left' (by simp)]
  rw [htake, hdrop, hsplit (m.write off bs), hbefore, hafter, Mem.bytes_write]

theorem flash_laws {size : Nat} {erase : Mem → Int × Mem} (hsize : size < UInt32.size)
    (herase : ∀ w, (erase w).1 = bootloaderOk → (erase w).2 = fun _ => 0xFF) :
    StorageLaws (flash size erase) (fun w => w.bytes 0 size) size where
  length _ := Mem.length_bytes _ _ _
  size_lt := hsize
  write_ok off bs w h := by
    simp only [flash] at h ⊢
    split at h
    · rename_i hroom
      rw [if_pos hroom]
      exact ⟨hroom, Mem.bytes_write_take_drop hroom⟩
    · cases h
  write_failed off bs w h := by
    simp only [flash] at h ⊢
    split at h
    · exact absurd rfl h
    · rw [if_neg ‹_›]
  erase_ok w h := by
    simp only [flash] at h ⊢
    rw [herase w h]
    simp [Mem.bytes, List.map_const']
  init _ := rfl
  verify _ := rfl
  setImage _ := rfl
  reboot _ := rfl
  record _ _ _ := rfl
  address _ := rfl
  advStart _ := rfl
  advData _ _ _ := rfl

/-- Two pages of a longer firmware. -/
def firstPages : List DevEvent :=
  [.parse (upgRequestFrame 0 8), .parse (upgDataFrame 0 0 [1, 2]), .parse (upgDataFrame 1 2 [3, 4])]

theorem transfer_intact_firstPages :
    ∃ d, Device.runFrom (flash 8 fun _ => (bootloaderOk, fun _ => 0xFF)) Sys.blankHeap Sys.blankMem
        0 (fun _ => 0) firstPages = some d ∧ d.iap.offset = 4 ∧
      d.Intact (flash 8 fun _ => (bootloaderOk, fun _ => 0xFF)) (fun w => w.bytes 0 8)
        [1, 2, 3, 4, 5, 6, 7, 8] := by
  obtain ⟨d, hrun, hoffset⟩ := Device.exists_run (flash 8 fun _ => (bootloaderOk, fun _ => 0xFF))
    (fun _ => 0) firstPages (fun d => d.iap.offset = 4) (by decide +kernel)
  exact ⟨d, hrun, of_decide_eq_true hoffset,
    transfer_intact (flash_laws (by decide) fun _ _ => rfl) _ _ _ _ _ _ (by decide +kernel) d hrun⟩

/-- An erase that succeeds only where the slot is blank, and else clears it. -/
def brittleErase (w : Mem) : Int × Mem :=
  if w 0 = 0xFF then (bootloaderOk, fun _ => 0xFF) else (-1, fun _ => 0)

/-- A second request in the middle of a transfer. -/
def secondRequest : List DevEvent :=
  [.parse (upgRequestFrame 0 8), .parse (upgDataFrame 0 0 [1, 2]), .parse (upgRequestFrame 1 8)]

/-- The failed erase of the second request clears what was written, and the
transfer goes on at its old offset. -/
theorem failed_erase_spoils :
    ¬ ∀ (P : Platform Mem) slot size, StorageLaws P slot size → ∀ image heap mem msgPoolSize world
      es, Device.GuardedFrom P (fun d e => d.CarriesImage image e) heap mem msgPoolSize world es →
      ∀ d, Device.runFrom P heap mem msgPoolSize world es = some d → d.Intact P slot image := by
  intro h
  have herase : ∀ w, (brittleErase w).1 = bootloaderOk → (brittleErase w).2 = fun _ => 0xFF := by
    intro w hw
    unfold brittleErase at hw ⊢
    split at hw
    · rw [if_pos ‹_›]
    · cases hw
  obtain ⟨d, hrun, hspoilt⟩ := Device.exists_run (flash 8 brittleErase) (fun _ => 0xFF)
    secondRequest (fun d => d.toUpgrade.transfer.isSome ∧ d.iap.offset = 2 ∧ d.world 0 = 0)
    (by decide +kernel)
  obtain ⟨hsome, hoffset, hzero⟩ := of_decide_eq_true hspoilt
  have hintact := h _ _ _ (flash_laws (by decide) herase) [1, 2, 3, 4, 5, 6, 7, 8] Sys.blankHeap
    Sys.blankMem 0 (fun _ => 0xFF) secondRequest (by decide +kernel) d hrun
  have hprefix := hintact.prefix_eq (by simpa [Option.isSome_iff_ne_none] using hsome)
  rw [hoffset] at hprefix
  have hfirst := congrArg List.head? hprefix
  simp [Mem.bytes, List.range_succ, hzero] at hfirst

end WifiExpander
