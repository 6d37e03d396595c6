import WifiExpander.Theory.Crc
import WifiExpander.Upgrade

/-!
What `CRC16` computes, and which damage to a firmware page it detects.

The table holds the effect of eight shifts on each byte, so the code's loop is the
bit-by-bit CRC-16 with the reflected polynomial `0xA001`. That polynomial has its
highest bit set, and the general theorem about bursts applies.
-/

namespace WifiExpander

open WifiExpander.Theory

/-! ### The bit-by-bit reference -/

/-- One shift of the register. -/
def crcBit (reg : UInt16) : UInt16 :=
  if reg &&& 1 = 1 then (reg >>> 1) ^^^ 0xA001 else reg >>> 1

/-- One byte of the message. -/
def crcByte (reg : UInt16) (b : UInt8) : UInt16 :=
  crcBit^[8] (reg ^^^ b.toUInt16)

def crcReference (bs : List UInt8) : UInt16 :=
  bs.foldl crcByte 0

/-- The polynomial as a word of the register's width. -/
def crcPoly : BitVec 16 := 0xA001#16

theorem crcBit_toBitVec (reg : UInt16) : (crcBit reg).toBitVec = lfsr crcPoly reg.toBitVec := by
  have hlow : (reg &&& 1 = 1) ↔ reg.toBitVec.getLsbD 0 = true := by
    rw [← UInt16.toBitVec_inj, UInt16.toBitVec_and, UInt16.toBitVec_one,
      BitVec.and_one_eq_setWidth_ofBool_getLsbD]
    cases reg.toBitVec.getLsbD 0 <;> decide
  unfold crcBit lfsr
  by_cases h : reg &&& 1 = 1
  · rw [if_pos h, if_pos (hlow.mp h)]
    rfl
  · rw [if_neg h, if_neg (mt hlow.mpr h)]
    rfl

theorem crcBit_iterate_toBitVec (k : Nat) (reg : UInt16) :
    (crcBit^[k] reg).toBitVec = (lfsr crcPoly)^[k] reg.toBitVec := by
  induction k generalizing reg with
  | zero => rfl
  | succ k ih => rw [Function.iterate_succ_apply, Function.iterate_succ_apply, ih, crcBit_toBitVec]

/-! ### The table -/

/-- An entry of the table is its index after eight shifts. -/
theorem wCRC16Table_eq (b : UInt8) :
    wCRC16Table.getD b.toNat 0 = crcBit^[8] b.toUInt16 := by
  have htable : ∀ i : Fin 256, wCRC16Table.getD i.val 0 = crcBit^[8] (UInt8.ofNat i).toUInt16 := by
    decide +kernel
  simpa using htable ⟨b.toNat, b.toNat_lt⟩

/-- The low byte of a register. -/
theorem low_byte (reg : UInt16) : reg &&& 0xff = reg.toUInt8.toUInt16 := by
  have hmask : ∀ i, i < 16 → (0xff#16).getLsbD i = decide (i < 8) := by decide
  apply UInt16.toBitVec_inj.mp
  apply BitVec.eq_of_getLsbD_eq
  intro i hi
  change (reg.toBitVec &&& 0xff#16).getLsbD i = ((reg.toBitVec.setWidth 8).setWidth 16).getLsbD i
  rw [BitVec.getLsbD_and, hmask i hi]
  simp [hi, Bool.and_comm]

/-- The index into the table. -/
theorem crc16Step_index (reg : UInt16) (b : UInt8) :
    (reg &&& 0xff) ^^^ (b.toUInt16 &&& 0xff) = (reg ^^^ b.toUInt16).toUInt8.toUInt16 := by
  rw [low_byte, low_byte, UInt8.toUInt8_toUInt16, UInt16.toUInt8_xor, UInt8.toUInt8_toUInt16,
    UInt8.toUInt16_xor]

/-- What is left of the register after the table was consulted. -/
theorem crc16Step_rest (reg : UInt16) (b : UInt8) :
    reg >>> 8 &&& (0xff : UInt16) = (reg ^^^ b.toUInt16) >>> 8 := by
  have hmask : ∀ i, i < 16 → (0xff#16).getLsbD i = decide (i < 8) := by decide
  apply UInt16.toBitVec_inj.mp
  apply BitVec.eq_of_getLsbD_eq
  intro i hi
  change ((reg.toBitVec >>> 8) &&& 0xff#16).getLsbD i =
    ((reg.toBitVec ^^^ b.toBitVec.setWidth 16) >>> 8).getLsbD i
  rw [BitVec.getLsbD_and, hmask i hi, BitVec.getLsbD_ushiftRight, BitVec.getLsbD_ushiftRight,
    BitVec.getLsbD_xor, BitVec.getLsbD_setWidth, BitVec.getLsbD_of_ge b.toBitVec _ (by omega)]
  by_cases hlt : i < 8
  · simp [hlt]
  · simp [hlt, BitVec.getLsbD_of_ge reg.toBitVec (8 + i) (by omega)]

theorem crcBit_iterate_eight (reg : UInt16) :
    crcBit^[8] reg = (reg >>> 8) ^^^ crcBit^[8] reg.toUInt8.toUInt16 := by
  apply UInt16.toBitVec_inj.mp
  rw [UInt16.toBitVec_xor, crcBit_iterate_toBitVec, crcBit_iterate_toBitVec]
  exact lfsr_iterate_eq_shift crcPoly 8 reg.toBitVec

theorem crc16Step_eq (reg : UInt16) (b : UInt8) : crc16Step reg b = crcByte reg b := by
  change ((reg >>> 8) &&& (0xff : UInt16)) ^^^
    wCRC16Table.getD ((reg &&& 0xff) ^^^ (b.toUInt16 &&& 0xff)).toNat 0 = crcByte reg b
  rw [crc16Step_index, crc16Step_rest, UInt8.toNat_toUInt16, wCRC16Table_eq, crcByte]
  exact (crcBit_iterate_eight _).symm

/-- `CRC16` computes the bit-by-bit reference. -/
theorem crc16_bitwise (pDataIn : List UInt8) : crc16 pDataIn = crcReference pDataIn := by
  have hstep : crc16Step = crcByte := funext₂ crc16Step_eq
  rw [crc16, crcReference, hstep]

/-! ### A page as a sequence of bits -/

/-- The bits of a byte, least significant first. -/
def byteBits (b : UInt8) : List Bool :=
  (List.range 8).map b.toBitVec.getLsbD

/-- The bits of a byte sequence in the order in which they enter the register. -/
def bitsOf (bs : List UInt8) : List Bool :=
  bs.flatMap byteBits

@[simp] theorem length_byteBits (b : UInt8) : (byteBits b).length = 8 := by
  simp [byteBits]

theorem word_byteBits (b : UInt8) : (word (byteBits b) : BitVec 16) = b.toBitVec.setWidth 16 := by
  apply BitVec.eq_of_getLsbD_eq
  intro i hi
  rw [getLsbD_word, BitVec.getLsbD_setWidth, byteBits]
  by_cases hlt : i < 8
  · simp [hlt]
  · simp [hlt, BitVec.getLsbD_of_ge b.toBitVec i (by omega)]

theorem crcByte_toBitVec (reg : UInt16) (b : UInt8) :
    (crcByte reg b).toBitVec = crc crcPoly reg.toBitVec (byteBits b) := by
  rw [crcByte, crcBit_iterate_toBitVec, crc_eq_iterate (by simp), length_byteBits, word_byteBits]
  rfl

theorem bitsOf_cons (b : UInt8) (bs : List UInt8) : bitsOf (b :: bs) = byteBits b ++ bitsOf bs :=
  List.flatMap_cons

theorem crc16_toBitVec (bs : List UInt8) : (crc16 bs).toBitVec = crc crcPoly 0 (bitsOf bs) := by
  have hfold : ∀ (bs : List UInt8) (reg : UInt16),
      (bs.foldl crc16Step reg).toBitVec = crc crcPoly reg.toBitVec (bitsOf bs) := by
    intro bs
    induction bs with
    | nil =>
        intro reg
        rfl
    | cons b bs ih =>
        intro reg
        rw [List.foldl_cons, ih, bitsOf_cons, crc_append, crc16Step_eq, crcByte_toBitVec]
  exact hfold bs 0

theorem length_bitsOf (bs : List UInt8) : (bitsOf bs).length = 8 * bs.length := by
  induction bs with
  | nil => rfl
  | cons b bs ih =>
      rw [bitsOf_cons, List.length_append, length_byteBits, ih, List.length_cons]
      omega

theorem byteBits_injective : Function.Injective byteBits := by
  intro a b h
  have hword : (word (byteBits a) : BitVec 16) = word (byteBits b) := by rw [h]
  rw [word_byteBits, word_byteBits] at hword
  apply UInt8.toBitVec_inj.mp
  have := congrArg (BitVec.setWidth 8) hword
  simpa using this

theorem bitsOf_injective : Function.Injective bitsOf := by
  intro xs
  induction xs with
  | nil =>
      intro ys h
      cases ys with
      | nil => rfl
      | cons y ys => simp [bitsOf, byteBits, List.range_succ] at h
  | cons x xs ih =>
      intro ys h
      cases ys with
      | nil => simp [bitsOf, byteBits, List.range_succ] at h
      | cons y ys =>
          rw [bitsOf_cons, bitsOf_cons] at h
          obtain ⟨hhead, htail⟩ := List.append_inj h (by simp)
          rw [byteBits_injective hhead, ih htail]

/-! ### Damaged pages -/

/-- `upg_data_rsp` refuses the page of `dataP`: nothing is written and the transfer
stands where it stood. -/
def Device.RefusesPage {τ σ : Type} [SendOps τ] (P : Platform σ) (dataP : Mem) (d : Device τ σ) :
    Prop :=
  ∀ d', d.upgDataRsp P dataP = some d' →
    d'.iap.offset = d.iap.offset ∧ d'.iap.packNum = d.iap.packNum ∧
      ∃ more, d'.hist = d.hist ++ more ∧ ∀ o ∈ more, ∀ off data ok, o ≠ .wrote off data ok

theorem Device.refusesPage_of_crc {τ σ : Type} [SendOps τ] {P : Platform σ} {dataP : Mem}
    (d : Device τ σ) (h : (Upgrade.page dataP).crcVal ≠ crc16 (Upgrade.page dataP).data) :
    d.RefusesPage P dataP := by
  intro d' hrsp
  obtain ⟨cur, hcur, -⟩ := Option.bind_eq_some_iff.mp hrsp
  have hstore : d.toUpgrade.storePage P (Upgrade.page dataP) cur = d.toUpgrade := by
    unfold Upgrade.storePage Upgrade.pageOk
    simp [h]
  have hafter := Device.upgDataRsp_upgrade hcur hrsp
  rw [Upgrade.takePage, hstore] at hafter
  by_cases hlt : d.iap.offset < d.iap.fwLen
  · rw [if_pos hlt] at hafter
    rw [hafter]
    exact ⟨rfl, rfl, [], (List.append_nil _).symm, by simp⟩
  · rw [if_neg hlt] at hafter
    have hspec := Upgrade.finish_spec P d.toUpgrade
    rw [hafter]
    generalize d.toUpgrade.finish P = r at hspec
    cases hspec with
    | bad _ => exact ⟨rfl, rfl, [], (List.append_nil _).symm, by simp⟩
    | good _ => exact ⟨rfl, rfl, [.setImage, .reboot], by simp, by simp⟩

/-- A burst of up to 16 bits changes the check sum, so a page damaged by it is
refused if its CRC field is intact. -/
theorem crc16_detects_burst {xs ys : List UInt8} (s : Nat) (hlen : xs.length = ys.length)
    (hne : xs ≠ ys) (hwin : ∀ i, (bitsOf xs)[i]? ≠ (bitsOf ys)[i]? → s ≤ i ∧ i < s + 16) :
    crc16 xs ≠ crc16 ys ∧
      ∀ (τ σ : Type) [SendOps τ] (P : Platform σ) (dataP : Mem) (d : Device τ σ),
        (Upgrade.page dataP).crcVal = crc16 xs → (Upgrade.page dataP).data = ys →
          d.RefusesPage P dataP := by
  have hpoly : crcPoly.msb = true := by decide
  have hbitlen : (bitsOf xs).length = (bitsOf ys).length := by
    rw [length_bitsOf, length_bitsOf, hlen]
  have hdiffer : crc16 xs ≠ crc16 ys := by
    intro h
    have hbits := crc_ne_of_window hpoly hbitlen (bitsOf_injective.ne hne) hwin 0
    rw [← crc16_toBitVec, ← crc16_toBitVec, h] at hbits
    exact hbits rfl
  refine ⟨hdiffer, ?_⟩
  intro τ σ _ P dataP d hcrc hdata
  apply d.refusesPage_of_crc
  rw [hcrc, hdata]
  exact hdiffer

/-- A data frame for offset 0 in which a burst over three bytes damaged the page. -/
def damagedFrame : Mem :=
  let crc := crc16 [0x12, 0x34, 0x56]
  Mem.ofList (wireFrame wifiampDevHeader 0 pdttypeBleFlash rspUpgData
    (wordBytes 0 ++ ([0x92, 0x00, 0x11] : List UInt8) ++ [(crc >>> 8).toUInt8, crc.toUInt8]))

theorem crc16_detects_burst_threeBytes :
    crc16 [0x12, 0x34, 0x56] ≠ crc16 [0x92, 0x00, 0x11] ∧
      ∀ d : Device Tx Unit, d.RefusesPage compliantPlatform damagedFrame := by
  have hwin : ∀ i, (bitsOf [0x12, 0x34, 0x56])[i]? ≠ (bitsOf [0x92, 0x00, 0x11])[i]? →
      7 ≤ i ∧ i < 7 + 16 := by
    have hin : ∀ i < 24, (bitsOf [0x12, 0x34, 0x56])[i]? ≠ (bitsOf [0x92, 0x00, 0x11])[i]? →
        7 ≤ i ∧ i < 7 + 16 := by
      decide
    intro i hi
    rcases Nat.lt_or_ge i 24 with hlt | hge
    · exact hin i hlt hi
    · rw [List.getElem?_eq_none (by rw [length_bitsOf]; exact hge),
        List.getElem?_eq_none (by rw [length_bitsOf]; exact hge)] at hi
      exact absurd rfl hi
  have hcrcVal : (Upgrade.page damagedFrame).crcVal = crc16 [0x12, 0x34, 0x56] := by
    decide +kernel
  have hdata : (Upgrade.page damagedFrame).data = [0x92, 0x00, 0x11] := by
    decide +kernel
  have hlen : ([0x12, 0x34, 0x56] : List UInt8).length = [0x92, 0x00, 0x11].length := rfl
  obtain ⟨hcrc, hrefuse⟩ := crc16_detects_burst 7 hlen (by decide) hwin
  exact ⟨hcrc, fun d => hrefuse Tx Unit compliantPlatform damagedFrame d hcrcVal hdata⟩

end WifiExpander
