import WifiExpander.Upgrade

/-!
Do the writes stay inside the announced image?

`upg_data_rsp` compares the payload with `page_len` only. A page that passes its
check is written at `offset` whatever is left of the image, also when nothing is.
-/

namespace WifiExpander

open WifiExpander.Theory

variable {σ : Type}

/-- The length of the most recently accepted request, 0 without one. -/
def announcedLen (hist : List UpgObs) : Nat :=
  ((sinceLast UpgObs.requested hist).map fun t => t.1.1.toNat).getD 0

/-- Every `bootloader_writeStorage` ends inside the image announced last, and so
below the limit of `upg_request_rsp`. -/
def WritesInside : List UpgObs → Prop :=
  Past fun pre o => ∀ off data ok, o = .wrote off data ok →
    off.toNat + data.length ≤ announcedLen pre ∧ announcedLen pre ≤ Upgrade.maxFwLen.toNat

namespace Upgrade

/-- How much of the image announced last is still to come. -/
def left (u : Upgrade σ) : Nat := announcedLen u.hist - u.iap.offset.toNat

/-- Where less than a page is still to come, the page whose turn it is has no more,
or more than `page_len` lets through. -/
def LastFits (u : Upgrade σ) (c : Mem) : Prop :=
  (page c).crcVal = crc16 (page c).data → declared c = u.iap.offset → u.left < 128 →
    (page c).dataLength.toNat ≤ u.left ∨ 128 < (page c).dataLength.toNat

instance (u : Upgrade σ) (c : Mem) : Decidable (u.LastFits c) :=
  inferInstanceAs (Decidable (_ → _ → _ → _))

structure Bounded (u : Upgrade σ) : Prop where
  writes : WritesInside u.hist
  limit : announcedLen u.hist ≤ maxFwLen.toNat
  offset : u.iap.offset.toNat ≤ announcedLen u.hist
  /-- before the first accepted request only empty pages pass the check -/
  pageLen : u.iap.pageLen = if u.transfer.isSome then 128 else 0

theorem announcedLen_concat {hist : List UpgObs} {o : UpgObs} (ho : o.requested = none) :
    announcedLen (hist ++ [o]) = announcedLen hist := by
  simp only [announcedLen, sinceLast_concat_none ho, Option.map_map]
  rfl

theorem pageOk_iff {pg : Page} {cur : UInt32} {iap : IapStr} :
    pageOk pg cur iap = true ↔
      pg.crcVal = crc16 pg.data ∧ cur = iap.offset ∧ pg.dataLength.toUInt32 ≤ iap.pageLen := by
  simp [pageOk]

/-! ### What a frame adds to the history -/

theorem request_hist (P : Platform σ) (fwLen : UInt32) (mark : Nat) (u : Upgrade σ) :
    ∃ l, (u.request P fwLen mark).2.hist = u.hist ++ l := by
  have hspec := request_spec P fwLen mark u
  generalize u.request P fwLen mark = res at hspec
  cases hspec with
  | tooLong | initFailed | eraseFailed => exact ⟨[], (List.append_nil _).symm⟩
  | accepted => exact ⟨_, rfl⟩

/-- After the page has been stored only the end of the transfer is recorded. -/
theorem takePage_hist (P : Platform σ) (pg : Page) (cur : UInt32) (u : Upgrade σ) :
    ∃ l, (u.takePage P pg cur).hist = (u.storePage P pg cur).hist ++ l := by
  have hnone : ∀ hist : List UpgObs, ∃ l, hist = hist ++ l := fun _ =>
    ⟨[], (List.append_nil _).symm⟩
  apply takePage_rule (motive := fun u' => ∃ l, u'.hist = (u.storePage P pg cur).hist ++ l)
  · exact hnone _
  · intro res _ hspec
    cases hspec with
    | bad => exact hnone _
    | good => exact ⟨_, List.append_assoc _ _ _⟩

/-- A page that passes the check is written. -/
theorem storePage_hist {P : Platform σ} {pg : Page} {cur : UInt32} {u : Upgrade σ}
    (hok : pageOk pg cur u.iap = true) :
    ∃ ok, (u.storePage P pg cur).hist = u.hist ++ [.wrote u.iap.offset pg.data ok] := by
  have hspec := storePage_spec P pg cur u
  generalize u.storePage P pg cur = u' at hspec
  cases hspec with
  | rejected hbad => simp [hok] at hbad
  | failed => exact ⟨false, rfl⟩
  | stored => exact ⟨true, rfl⟩

theorem storePage_hist_left (P : Platform σ) (pg : Page) (cur : UInt32) (u : Upgrade σ) :
    ∃ l, (u.storePage P pg cur).hist = u.hist ++ l := by
  cases hok : pageOk pg cur u.iap with
  | false => exact ⟨[], by simp [storePage, hok]⟩
  | true =>
      obtain ⟨ok, hhist⟩ := storePage_hist (P := P) hok
      exact ⟨_, hhist⟩

theorem Parses.hist_left {P : Platform σ} {u u' : Upgrade σ} {mark : Nat} {c : Mem}
    (h : Parses P mark c u u') : ∃ l, u'.hist = u.hist ++ l := by
  cases h with
  | request => exact request_hist P _ mark u
  | data =>
      obtain ⟨l, hstore⟩ := storePage_hist_left P (page c) (declared c) u
      obtain ⟨l', htake⟩ := takePage_hist P (page c) (declared c) u
      exact ⟨l ++ l', by rw [htake, hstore, List.append_assoc]⟩
  | other => exact ⟨[], (List.append_nil _).symm⟩

namespace Bounded

variable {P : Platform σ} {u u' : Upgrade σ} {mark : Nat} {c : Mem}

/-! ### The page that is written -/

/-- With a page or more to come `page_len` is the bound, else the condition is. -/
theorem ends_inside (h : u.Bounded) (hfits : u.transfer.isSome = true → u.LastFits c)
    (hok : pageOk (page c) (declared c) u.iap = true) :
    u.iap.offset.toNat + (page c).dataLength.toNat ≤ announcedLen u.hist := by
  obtain ⟨hcrc, hcur, hlen⟩ := pageOk_iff.mp hok
  rw [h.pageLen, UInt32.le_iff_toNat_le, UInt16.toNat_toUInt32] at hlen
  have hoffset := h.offset
  cases htransfer : u.transfer.isSome with
  | false =>
      have hempty : (page c).dataLength.toNat = 0 := by simpa [htransfer] using hlen
      rw [hempty]
      exact hoffset
  | true =>
      have hpage : (page c).dataLength.toNat ≤ 128 := by simpa [htransfer] using hlen
      by_cases hleft : u.left < 128
      · have hfit := hfits htransfer hcrc hcur hleft
        unfold left at hfit
        omega
      · unfold left at hleft
        omega

/-- A page that the condition forbids is written past the end. -/
theorem ends_outside (h : u.Bounded) (htransfer : u.transfer.isSome = true)
    (hbad : ¬ u.LastFits c) :
    pageOk (page c) (declared c) u.iap = true ∧
      announcedLen u.hist < u.iap.offset.toNat + (page c).dataLength.toNat := by
  simp only [LastFits, Classical.not_imp, not_or, Nat.not_le, Nat.not_lt] at hbad
  obtain ⟨hcrc, hcur, -, hmore, hpage⟩ := hbad
  refine ⟨pageOk_iff.mpr ⟨hcrc, hcur, ?_⟩, ?_⟩
  · rw [h.pageLen, if_pos htransfer, UInt32.le_iff_toNat_le, UInt16.toNat_toUInt32]
    exact hpage
  · unfold left at hmore
    omega

/-! ### Frames keep the bounds -/

/-- An entry that is no request leaves the transfer and the length announced. -/
theorem record (h : u.Bounded) {o : UpgObs} (ho : o.requested = none)
    (hhist : u'.hist = u.hist ++ [o]) (hpage : u'.iap.pageLen = u.iap.pageLen)
    (hwrites : WritesInside u'.hist) (hoffset : u'.iap.offset.toNat ≤ announcedLen u.hist) :
    u'.Bounded := by
  have hlen : announcedLen u'.hist = announcedLen u.hist := hhist ▸ announcedLen_concat ho
  have htransfer : u'.transfer.isSome = u.transfer.isSome := by
    rw [transfer, hhist, sinceLast_concat_none ho, Option.isSome_map, transfer]
  exact ⟨hwrites, hlen ▸ h.limit, hlen ▸ hoffset, by rw [hpage, htransfer, h.pageLen]⟩

theorem request (h : u.Bounded) (fwLen : UInt32) : (u.request P fwLen mark).2.Bounded := by
  have hspec := request_spec P fwLen mark u
  generalize u.request P fwLen mark = res at hspec
  cases hspec with
  | tooLong | initFailed | eraseFailed => exact ⟨h.writes, h.limit, h.offset, h.pageLen⟩
  | accepted hle =>
      have htransfer : sinceLast UpgObs.requested (u.hist ++ [.accepted fwLen mark]) =
          some ((fwLen, mark), []) := sinceLast_concat_some rfl
      refine ⟨h.writes.concat (by simp), ?_, Nat.zero_le _, ?_⟩
      · simp only [announcedLen, htransfer]
        exact UInt32.le_iff_toNat_le.mp hle
      · simp only [Upgrade.transfer, htransfer]
        rfl

theorem storePage (h : u.Bounded) (hfits : u.transfer.isSome = true → u.LastFits c) :
    (u.storePage P (page c) (declared c)).Bounded := by
  -- the history after a write that is issued
  have hwrote : ∀ ok, pageOk (page c) (declared c) u.iap = true →
      WritesInside (u.hist ++ [.wrote u.iap.offset (page c).data ok]) := by
    intro ok hok
    apply h.writes.concat
    intro off data ok' heq
    obtain ⟨rfl, rfl, rfl⟩ := UpgObs.wrote.inj heq
    rw [length_page_data]
    exact ⟨h.ends_inside hfits hok, h.limit⟩
  have hspec := storePage_spec P (page c) (declared c) u
  generalize u.storePage P (page c) (declared c) = u' at hspec
  cases hspec with
  | rejected => exact h
  | failed hok => exact h.record rfl rfl rfl (hwrote false hok) h.offset
  | stored hok =>
      refine h.record rfl rfl rfl (hwrote true hok) ?_
      calc (u.iap.offset + (page c).dataLength.toUInt32).toNat
        _ ≤ u.iap.offset.toNat + (page c).dataLength.toNat := by
          rw [UInt32.toNat_add, UInt16.toNat_toUInt32]
          exact Nat.mod_le _ _
        _ ≤ announcedLen u.hist := h.ends_inside hfits hok

theorem parses (h : u.Bounded)
    (hfits : accepts rspUpgData c = true → u.transfer.isSome = true → u.LastFits c)
    (hparses : Parses P mark c u u') : u'.Bounded := by
  cases hparses with
  | request => exact h.request _
  | data hdata =>
      have hstore := h.storePage (P := P) (hfits hdata)
      apply takePage_rule hstore
      intro res _ hspec
      generalize u.storePage P (page c) (declared c) = u₁ at hstore hspec
      cases hspec with
      | bad => exact ⟨hstore.writes, hstore.limit, hstore.offset, hstore.pageLen⟩
      | good =>
          have h₁ : Bounded (u₁.record .setImage) :=
            hstore.record rfl rfl rfl (hstore.writes.concat (by simp)) hstore.offset
          exact h₁.record (o := .reboot) rfl rfl rfl (h₁.writes.concat (by simp)) h₁.offset
  | other => exact ⟨h.writes, h.limit, h.offset, h.pageLen⟩

/-- A frame that the condition forbids leaves a write outside behind. -/
theorem parses_outside (h : u.Bounded) (hdata : accepts rspUpgData c = true)
    (htransfer : u.transfer.isSome = true) (hbad : ¬ u.LastFits c)
    (hparses : Parses P mark c u u') : ¬ WritesInside u'.hist := by
  intro hinside
  obtain ⟨hok, hpast⟩ := h.ends_outside htransfer hbad
  cases hparses with
  | request hreq => simp [accepts_upgData_of_request hreq] at hdata
  | other _ hnot => simp [hdata] at hnot
  | data =>
      obtain ⟨ok, hstore⟩ := storePage_hist (P := P) hok
      obtain ⟨l, htake⟩ := takePage_hist P (page c) (declared c) u
      have hhist : (u.takePage P (page c) (declared c)).hist =
          u.hist ++ .wrote u.iap.offset (page c).data ok :: l := by
        rw [htake, hstore, List.append_assoc, List.cons_append, List.nil_append]
      have hle := (hinside _ _ _ hhist _ _ _ rfl).1
      rw [length_page_data] at hle
      exact absurd hle (Nat.not_le_of_lt hpast)

end Bounded

end Upgrade

/-! ### Runs -/

/-- The last page of an image fits, and what comes after the last page is empty. -/
def Device.Fits (d : Device Tx σ) : DevEvent → Prop
  | .parse c => accepts rspUpgData c = true → d.rebooted = false → d.transfer.isSome = true →
      d.LastFits c
  | _ => True

instance (d : Device Tx σ) : ∀ e, Decidable (d.Fits e)
  | .parse _ => inferInstanceAs (Decidable (_ → _))
  | .tick | .pend | .transmit | .complete | .inspect | .otherMsgs _ | .connState _
  | .bleStateNotify _ | .iapDone _ | .forward _ => isTrue trivial

namespace Device

variable {P : Platform σ} {d d' : Device Tx σ} {e : DevEvent}

theorem step_bounded (h : d.toUpgrade.Bounded) (hfits : d.Fits e) (hstep : d.step P e = some d') :
    d'.toUpgrade.Bounded := by
  rcases step_upgrade hstep with heq | ⟨hreb, c, rfl, hparses⟩
  · exact heq ▸ h
  · exact h.parses (fun hdata => hfits hdata hreb) hparses

theorem step_outside (h : d.toUpgrade.Bounded) (hbad : ¬ d.Fits e)
    (hstep : d.step P e = some d') : ¬ WritesInside d'.hist := by
  cases e with
  | parse c =>
      simp only [Fits, Classical.not_imp] at hbad
      obtain ⟨hdata, hreb, htransfer, hbad⟩ := hbad
      exact h.parses_outside hdata htransfer hbad (step_parse hreb hstep)
  | _ => exact absurd trivial hbad

/-- What has been written outside stays so. -/
theorem step_stays_outside (h : ¬ WritesInside d.hist) (hstep : d.step P e = some d') :
    ¬ WritesInside d'.hist := by
  rcases step_upgrade hstep with heq | ⟨-, c, rfl, hparses⟩
  · exact heq ▸ h
  · obtain ⟨l, hhist⟩ := hparses.hist_left
    intro hinside
    rw [hhist] at hinside
    exact h (Past.left hinside)

end Device

/-- **No write reaches past the announced image** in a run, exactly if each page that
comes when less than 128 bytes are missing has no more than these. With more missing
`page_len` is bound enough. -/
theorem writes_inside (P : Platform σ) (heap : Heap) (mem : BufId → UartSendFormat)
    (msgPoolSize : Nat) (world : σ) (es : List DevEvent) (d : Device Tx σ)
    (run : Device.runFrom P heap mem msgPoolSize world es = some d) :
    WritesInside d.hist ↔
      Device.GuardedFrom P (fun d e => d.Fits e) heap mem msgPoolSize world es := by
  unfold Device.runFrom at run
  obtain ⟨tx, htx, hrun⟩ := Option.bind_eq_some_iff.mp run
  have hboot : (Device.boot tx world).toUpgrade.Bounded :=
    ⟨past_nil, Nat.zero_le _, Nat.zero_le _, rfl⟩
  have hexact : (Device.machine Tx P).Guarded (fun d e => d.Fits e) (Device.boot tx world) es ∧
        d.toUpgrade.Bounded ∨
      ¬ (Device.machine Tx P).Guarded (fun d e => d.Fits e) (Device.boot tx world) es ∧
        ¬ WritesInside d.hist :=
    Machine.run_exact (fun d => d.toUpgrade.Bounded) (fun d => ¬ WritesInside d.hist)
      (fun _ _ _ => Device.step_bounded) (fun _ _ _ => Device.step_outside)
      (fun _ _ _ => Device.step_stays_outside) hboot hrun
  simp only [Device.GuardedFrom, htx]
  rcases hexact with ⟨hguarded, hbounded⟩ | ⟨hnot, houtside⟩
  · exact ⟨fun _ => hguarded, fun _ => hbounded.writes⟩
  · exact ⟨fun hinside => absurd hinside houtside, fun hguarded => absurd hguarded hnot⟩

/-- A platform on which every call succeeds but `bootloader_verifyImage`. -/
def unverifiedPlatform : Platform Unit :=
  { compliantPlatform with bootloaderVerifyImage := fun _ => (1, ()) }

/-- A firmware of 130 bytes in two pages, and an empty page behind them. -/
def twoPages : List DevEvent :=
  [.parse (upgRequestFrame 0 130), .parse (upgDataFrame 0 0 (List.replicate 128 0)), .tick,
    .parse (upgDataFrame 1 128 [3, 4]), .parse (upgDataFrame 2 130 [])]

/-- The verification fails, and so the device takes the empty page too. -/
theorem writes_inside_twoPages :
    ∃ d, Device.runFrom unverifiedPlatform Sys.blankHeap Sys.blankMem 0 () twoPages = some d ∧
      .wrote 128 [3, 4] true ∈ d.hist ∧
      (WritesInside d.hist ↔ Device.GuardedFrom unverifiedPlatform (fun d e => d.Fits e)
        Sys.blankHeap Sys.blankMem 0 () twoPages) ∧ WritesInside d.hist := by
  obtain ⟨d, hrun, hmem⟩ := Device.exists_run unverifiedPlatform () twoPages
    (fun d => decide (.wrote 128 [3, 4] true ∈ d.hist)) (by decide +kernel)
  have hiff := writes_inside _ _ _ _ _ _ d hrun
  exact ⟨d, hrun, of_decide_eq_true hmem, hiff, hiff.mpr (by decide +kernel)⟩

/-- A firmware of one byte is announced, and its only page has two. -/
def longPage : List DevEvent := [.parse (upgRequestFrame 0 1), .parse (upgDataFrame 0 0 [0, 0])]

theorem long_page_overruns :
    ¬ ∀ (P : Platform Unit) heap mem msgPoolSize world es d,
      Device.runFrom P heap mem msgPoolSize world es = some d → WritesInside d.hist := by
  intro h
  obtain ⟨d, hrun, hhist⟩ := Device.exists_run compliantPlatform () longPage
    (fun d => d.hist = [.accepted 1 0, .wrote 0 [0, 0] true, .setImage, .reboot])
    (by decide +kernel)
  have hinside := h _ _ _ _ _ _ d hrun [.accepted 1 0] (.wrote 0 [0, 0] true)
    [.setImage, .reboot] (by simpa using hhist) 0 [0, 0] true rfl
  exact absurd hinside.1 (by decide)

end WifiExpander
