import WifiExpander.Checksum
import WifiExpander.Theory.CrcWeight

/-!
Which damage to a firmware page and its CRC field the check detects by the number
of flipped bits.

The polynomial `0xA001` has three ones, and under it a single one comes back
after 32767 shifts only: far beyond a page and its field.
-/

namespace WifiExpander

open WifiExpander.Theory

/-- A single one does not come back within 32766 shifts. -/
theorem crcPoly_period (k : Nat) (hpos : 0 < k) (hk : k < 32767) :
    (lfsr crcPoly)^[k] (word [true]) ≠ word [true] := by
  have havoids : avoids crcPoly.toNat (word [true] : BitVec 16).toNat 32766
      (word [true] : BitVec 16).toNat = true := by
    decide +kernel
  exact ne_of_avoids havoids k hpos (by omega)

/-- The bits of a page and its CRC field -/
def pageBits (data : List UInt8) (crcVal : UInt16) : List Bool :=
  bitsOf data ++ registerBits crcVal.toBitVec

/-- A page of up to 4093 bytes whose data and CRC field, together, had an odd number
of bits or two bits flipped on the way is refused. -/
theorem crc16_detects_flips {xs ys : List UInt8} {crcVal : UInt16} (hlen : xs.length = ys.length)
    (hshort : xs.length ≤ 4093)
    (hflips : flips (pageBits xs (crc16 xs)) (pageBits ys crcVal) % 2 = 1 ∨
      flips (pageBits xs (crc16 xs)) (pageBits ys crcVal) = 2) :
    crcVal ≠ crc16 ys ∧
      ∀ (τ σ : Type) [SendOps τ] (P : Platform σ) (dataP : Mem) (d : Device τ σ),
        (Upgrade.page dataP).crcVal = crcVal → (Upgrade.page dataP).data = ys →
          d.RefusesPage P dataP := by
  have hpoly : crcPoly.msb = true := by decide
  have hodd : parity crcPoly = true := by decide
  have hbitlen : (bitsOf xs).length = (bitsOf ys).length := by
    rw [length_bitsOf, length_bitsOf, hlen]
  have hdiffer : crcVal ≠ crc16 ys := by
    intro h
    have hbits := crc_detects_flips (r := 0) (c := crcVal.toBitVec) hpoly hodd crcPoly_period
      hbitlen (by rw [length_bitsOf]; omega)
    rw [← crc16_toBitVec, ← crc16_toBitVec, h] at hbits
    rw [pageBits, pageBits, h] at hflips
    exact hbits hflips rfl
  refine ⟨hdiffer, ?_⟩
  intro τ σ _ P dataP d hcrc hdata
  apply d.refusesPage_of_crc
  rw [hcrc, hdata]
  exact hdiffer

/-- A data frame for offset 0 with one bit of the page and one of the CRC field flipped. -/
def twoBitsFrame : Mem :=
  let crc := crc16 [0x12, 0x34, 0x56] ^^^ 0x0400
  Mem.ofList (wireFrame wifiampDevHeader 0 pdttypeBleFlash rspUpgData
    (wordBytes 0 ++ ([0x12, 0x34, 0xD6] : List UInt8) ++ [(crc >>> 8).toUInt8, crc.toUInt8]))

theorem crc16_detects_flips_two :
    crc16 [0x12, 0x34, 0x56] ^^^ 0x0400 ≠ crc16 [0x12, 0x34, 0xD6] ∧
      ∀ d : Device Tx Unit, d.RefusesPage compliantPlatform twoBitsFrame := by
  have hflips : flips (pageBits [0x12, 0x34, 0x56] (crc16 [0x12, 0x34, 0x56]))
      (pageBits [0x12, 0x34, 0xD6] (crc16 [0x12, 0x34, 0x56] ^^^ 0x0400)) = 2 := by
    decide +kernel
  have hcrcVal : (Upgrade.page twoBitsFrame).crcVal = crc16 [0x12, 0x34, 0x56] ^^^ 0x0400 := by
    decide +kernel
  have hdata : (Upgrade.page twoBitsFrame).data = [0x12, 0x34, 0xD6] := by
    decide +kernel
  have hlen : ([0x12, 0x34, 0x56] : List UInt8).length = [0x12, 0x34, 0xD6].length := rfl
  obtain ⟨hcrc, hrefuse⟩ := crc16_detects_flips hlen (by simp) (.inr hflips)
  exact ⟨hcrc, fun d => hrefuse Tx Unit compliantPlatform twoBitsFrame d hcrcVal hdata⟩

end WifiExpander
