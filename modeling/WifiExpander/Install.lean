import WifiExpander.Upgrade

/-!
When is an image installed?

`upg_data_rsp` looks at `offset` and `fw_len` after every data frame, accepted or
not, and never at `in_progress`. Before the first accepted request both are 0,
and a refused request changes `fw_len` alone: then an image can be installed that
was never transferred.
-/

namespace WifiExpander

open WifiExpander.Theory

variable {σ : Type}

/-- Byte `i` of the slot was written by an accepted data frame. -/
def Written (os : List UpgObs) (i : Nat) : Prop :=
  ∃ off data, .wrote off data true ∈ os ∧ off.toNat ≤ i ∧ i < off.toNat + data.length

/-- A request was accepted, and since then every byte it announced was written. -/
def Complete (hist : List UpgObs) : Prop :=
  ∃ fwLen mark os, sinceLast UpgObs.requested hist = some ((fwLen, mark), os) ∧
    fwLen ≤ Upgrade.maxFwLen ∧ ∀ i < fwLen.toNat, Written os i

/-- An image is installed only after a complete transfer. -/
def InstallsComplete : List UpgObs → Prop :=
  Past fun pre o => o = .setImage ∨ o = .reboot → Complete pre

namespace Upgrade

/-- A data frame cannot end a transfer too early: an accepted request announced
no more than `fw_len` or `offset`, or the bytes it brings do not reach `fw_len`. -/
def Timely (u : Upgrade σ) (c : Mem) : Prop :=
  (∃ t ∈ u.transfer, t.1.1 ≤ u.iap.fwLen ∨ t.1.1 ≤ u.iap.offset) ∨
    u.iap.offset.toNat +
      (if pageOk (page c) (declared c) u.iap then (page c).dataLength.toNat else 0) <
        u.iap.fwLen.toNat

instance (u : Upgrade σ) (c : Mem) : Decidable (u.Timely c) :=
  inferInstanceAs (Decidable (_ ∨ _))

/-- What is below `offset` has been written since the last accepted request. -/
structure Backed (u : Upgrade σ) : Prop where
  installs : InstallsComplete u.hist
  limit : ∀ t ∈ u.transfer, t.1.1 ≤ maxFwLen
  written : ∀ t ∈ u.transfer, ∀ i < u.iap.offset.toNat, Written t.2 i

namespace Backed

variable {P : Platform σ} {u u' : Upgrade σ} {mark : Nat} {c : Mem}

theorem request (h : u.Backed) (fwLen : UInt32) : (u.request P fwLen mark).2.Backed := by
  have hspec := request_spec P fwLen mark u
  generalize u.request P fwLen mark = res at hspec
  cases hspec with
  | tooLong | initFailed | eraseFailed => exact ⟨h.installs, h.limit, h.written⟩
  | accepted hle =>
      have htransfer : sinceLast UpgObs.requested (u.hist ++ [.accepted fwLen mark]) =
          some ((fwLen, mark), []) := sinceLast_concat_some rfl
      refine ⟨h.installs.concat (by simp), ?_, ?_⟩
      · intro t ht
        obtain rfl := Option.some.inj (htransfer.symm.trans ht)
        exact hle
      · intro t _ i hi
        exact absurd hi (Nat.not_lt_zero i)

/-- One more write, accepted or not, and what `offset` becomes. -/
theorem wrote (h : u.Backed) {data : List UInt8} {ok : Bool} (offset : UInt32)
    (hhist : u'.hist = u.hist ++ [.wrote u.iap.offset data ok]) (hoffset : u'.iap.offset = offset)
    (hgrow : ∀ i < offset.toNat, i < u.iap.offset.toNat ∨
      ok = true ∧ u.iap.offset.toNat ≤ i ∧ i < u.iap.offset.toNat + data.length) :
    u'.Backed := by
  have htransfer : u'.transfer =
      u.transfer.map fun t => (t.1, t.2 ++ [.wrote u.iap.offset data ok]) := by
    rw [transfer, hhist]
    exact sinceLast_concat_none rfl
  refine ⟨hhist ▸ h.installs.concat (by simp), ?_, ?_⟩
  · intro t ht
    obtain ⟨t₀, ht₀, rfl⟩ := Option.map_eq_some_iff.mp (htransfer.symm.trans ht)
    exact h.limit t₀ ht₀
  · intro t ht i hi
    obtain ⟨t₀, ht₀, rfl⟩ := Option.map_eq_some_iff.mp (htransfer.symm.trans ht)
    rcases hgrow i (hoffset ▸ hi) with hold | ⟨rfl, hge, hlt⟩
    · obtain ⟨off, d, hmem, hrange⟩ := h.written t₀ ht₀ i hold
      exact ⟨off, d, List.mem_append_left _ hmem, hrange⟩
    · exact ⟨u.iap.offset, data, by simp, hge, hlt⟩

theorem storePage (h : u.Backed) (c : Mem) :
    (u.storePage P (page c) (declared c)).Backed := by
  have hspec := storePage_spec P (page c) (declared c) u
  generalize u.storePage P (page c) (declared c) = u' at hspec
  cases hspec with
  | rejected => exact h
  | failed => exact h.wrote u.iap.offset rfl rfl fun i hi => .inl hi
  | stored =>
      apply h.wrote (u.iap.offset + (page c).dataLength.toUInt32) rfl rfl
      intro i hi
      have hsum : (u.iap.offset + (page c).dataLength.toUInt32).toNat ≤
          u.iap.offset.toNat + (page c).dataLength.toNat := by
        rw [UInt32.toNat_add, UInt16.toNat_toUInt32]
        exact Nat.mod_le _ _
      rw [length_page_data]
      by_cases hold : i < u.iap.offset.toNat
      · exact .inl hold
      · exact .inr ⟨rfl, Nat.le_of_not_lt hold, by omega⟩

/-- When a transfer ends, everything announced has been written. -/
theorem complete (h : u.Backed) (htimely : u.Timely c)
    (hdone : ¬ (u.storePage P (page c) (declared c)).iap.offset <
      (u.storePage P (page c) (declared c)).iap.fwLen) :
    Complete (u.storePage P (page c) (declared c)).hist := by
  have hback := h.storePage (P := P) c
  have hspec := storePage_spec P (page c) (declared c) u
  -- the frame leaves `fw_len` and the accepted request as they are
  have hkeep : (u.storePage P (page c) (declared c)).iap.fwLen = u.iap.fwLen ∧
      ∀ t ∈ u.transfer, ∃ os, (u.storePage P (page c) (declared c)).transfer = some (t.1, os) ∧
        ∀ i, Written t.2 i → Written os i := by
    generalize u.storePage P (page c) (declared c) = u' at hspec
    have happ : ∀ o, UpgObs.requested o = none → ∀ t ∈ u.transfer,
        ∃ os, sinceLast UpgObs.requested (u.hist ++ [o]) = some (t.1, os) ∧
          ∀ i, Written t.2 i → Written os i := by
      intro o ho t ht
      refine ⟨t.2 ++ [o], ?_, fun i ⟨off, d, hmem, hrange⟩ =>
        ⟨off, d, List.mem_append_left _ hmem, hrange⟩⟩
      rw [sinceLast_concat_none ho, show sinceLast UpgObs.requested u.hist = some t from ht]
      rfl
    cases hspec with
    | rejected => exact ⟨rfl, fun t ht => ⟨t.2, ht, fun i hi => hi⟩⟩
    | failed | stored => exact ⟨rfl, happ _ rfl⟩
  rcases htimely with ⟨t, ht, hle⟩ | hshort
  · obtain ⟨os, htransfer, hmono⟩ := hkeep.2 t ht
    refine ⟨t.1.1, t.1.2, os, htransfer, h.limit t ht, ?_⟩
    intro i hi
    rcases hle with hle | hle
    · refine hback.written _ htransfer i (Nat.lt_of_lt_of_le hi ?_)
      rw [hkeep.1] at hdone
      exact Nat.le_trans (UInt32.le_iff_toNat_le.mp hle)
        (UInt32.le_iff_toNat_le.mp (UInt32.not_lt.mp hdone))
    · exact hmono i (h.written t ht i (Nat.lt_of_lt_of_le hi (UInt32.le_iff_toNat_le.mp hle)))
  · refine absurd ?_ hdone
    rw [hkeep.1, UInt32.lt_iff_toNat_lt]
    refine Nat.lt_of_le_of_lt ?_ hshort
    generalize u.storePage P (page c) (declared c) = u' at hspec
    cases hspec with
    | rejected | failed => exact Nat.le_add_right _ _
    | stored hok =>
        rw [if_pos hok]
        change (u.iap.offset + (page c).dataLength.toUInt32).toNat ≤ _
        rw [UInt32.toNat_add, UInt16.toNat_toUInt32]
        exact Nat.mod_le _ _

theorem takePage (h : u.Backed) (htimely : u.Timely c) :
    (u.takePage P (page c) (declared c)).Backed := by
  have hback := h.storePage (P := P) c
  apply takePage_rule hback
  intro res hdone hspec
  have hcomplete := h.complete htimely hdone
  generalize u.storePage P (page c) (declared c) = u₁ at hback hcomplete hspec
  cases hspec with
  | bad => exact ⟨hback.installs, hback.limit, hback.written⟩
  | good =>
      have hsame : ∀ l : List UpgObs, sinceLast UpgObs.requested (l ++ [.setImage] ++ [.reboot]) =
          (sinceLast UpgObs.requested l).map fun t => (t.1, t.2 ++ [.setImage] ++ [.reboot]) := by
        intro l
        rw [sinceLast_concat_none rfl, sinceLast_concat_none rfl, Option.map_map]
        rfl
      have hafter : Complete (u₁.hist ++ [.setImage]) := by
        obtain ⟨fwLen, mark, os, htransfer, hle, hall⟩ := hcomplete
        refine ⟨fwLen, mark, os ++ [.setImage], ?_, hle, ?_⟩
        · rw [sinceLast_concat_none rfl, htransfer]
          rfl
        · intro i hi
          obtain ⟨off, d, hmem, hrange⟩ := hall i hi
          exact ⟨off, d, List.mem_append_left _ hmem, hrange⟩
      refine ⟨(hback.installs.concat fun _ => hcomplete).concat fun _ => hafter, ?_, ?_⟩
      · intro t ht
        obtain ⟨t₀, ht₀, rfl⟩ := Option.map_eq_some_iff.mp ((hsame u₁.hist).symm.trans ht)
        exact hback.limit t₀ ht₀
      · intro t ht i hi
        obtain ⟨t₀, ht₀, rfl⟩ := Option.map_eq_some_iff.mp ((hsame u₁.hist).symm.trans ht)
        obtain ⟨off, d, hmem, hrange⟩ := hback.written t₀ ht₀ i hi
        exact ⟨off, d, by simp [hmem], hrange⟩

theorem parses (h : u.Backed) (htimely : accepts rspUpgData c = true → u.Timely c)
    (hparses : Parses P mark c u u') : u'.Backed := by
  cases hparses with
  | request => exact h.request _
  | data hdata => exact h.takePage (htimely hdata)
  | other => exact ⟨h.installs, h.limit, h.written⟩

end Backed

end Upgrade

/-- Every data frame that is parsed is timely. -/
def Device.Timely (d : Device Tx σ) : DevEvent → Prop
  | .parse c => accepts rspUpgData c = true → d.rebooted = false → d.toUpgrade.Timely c
  | _ => True

instance (d : Device Tx σ) : ∀ e, Decidable (d.Timely e)
  | .parse _ => inferInstanceAs (Decidable (_ → _))
  | .tick | .pend | .transmit | .complete | .inspect | .otherMsgs _ | .connState _
  | .bleStateNotify _ | .iapDone _ | .forward _ => isTrue trivial

/-- A firmware of four bytes in one page. -/
def shortUpgrade : List DevEvent :=
  [.parse (upgRequestFrame 0 4), .parse (upgDataFrame 0 0 [1, 2, 3, 4])]

/-- The first frame after the start is a data frame. -/
def strayData : List DevEvent := [.parse (upgDataFrame 0 0 [])]

end WifiExpander
