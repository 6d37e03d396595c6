import WifiExpander.Leftover

/-!
`advertising_init` of `app/ble.c`: the two payloads, store by store.

`advertisingInit` has the payloads as lists. Here they are built in their 31-byte
arrays, with every index that is stored to, so that the acceptance limit, the length
bytes, `strcpy` and the limit of `mble_gap_adv_data_set` can be held against one
another. They agree for names of at most 25 bytes; names of 26 to 28 bytes are
accepted although the terminator falls outside the array and the scan response is
not set.
-/

namespace WifiExpander

variable {σ : Type}

/-! ### AD structures -/

/-- An AD structure of an advertising payload. -/
structure AdStructure where
  adType : UInt8
  value : List UInt8
deriving DecidableEq

def AdStructure.encode (a : AdStructure) : List UInt8 :=
  UInt8.ofNat (a.value.length + 1) :: a.adType :: a.value

/-- The structures of a payload, or `none` if a length byte is 0 or runs over the end. -/
def adParseFuel : Nat → List UInt8 → Option (List AdStructure)
  | _, [] => some []
  | 0, _ :: _ => none
  | fuel + 1, n :: bs =>
      match bs.take n.toNat with
      | [] => none
      | adType :: value =>
          if bs.length < n.toNat then none
          else (adParseFuel fuel (bs.drop n.toNat)).map (⟨adType, value⟩ :: ·)

def adParse (payload : List UInt8) : Option (List AdStructure) :=
  adParseFuel payload.length payload

/-- The complete local name, which ends at the first zero. -/
def completeLocalName (ads : List AdStructure) : Option (List UInt8) :=
  (ads.find? (·.adType = 0x09)).map fun a => a.value.takeWhile (· ≠ 0)

/-- The address and the flag in the manufacturer data. -/
def macAndFlag (ads : List AdStructure) : Option (List UInt8 × UInt8) :=
  (ads.find? (·.adType = 0xFF)).map fun a => ((a.value.drop 4).take 6, a.value.getD 10 0)

theorem adParseFuel_cons (fuel : Nat) {a : AdStructure} (ha : a.value.length < 255)
    (rest : List UInt8) :
    adParseFuel (fuel + 1) (a.encode ++ rest) = (adParseFuel fuel rest).map (a :: ·) := by
  have hn : (a.value.length + 1) % 256 = a.value.length + 1 := Nat.mod_eq_of_lt (by omega)
  simp [AdStructure.encode, adParseFuel, hn]

/-- A payload made of structures is parsed into them. -/
theorem adParse_flatMap {ads : List AdStructure} (h : ∀ a ∈ ads, a.value.length < 255) :
    adParse (ads.flatMap AdStructure.encode) = some ads := by
  have hfuel : ∀ fuel, (ads.flatMap AdStructure.encode).length ≤ fuel →
      adParseFuel fuel (ads.flatMap AdStructure.encode) = some ads := by
    induction ads with
    | nil =>
        intro fuel _
        cases fuel <;> rfl
    | cons a ads ih =>
        intro fuel hlen
        rw [List.flatMap_cons] at hlen ⊢
        have hpos : 0 < a.encode.length := by simp [AdStructure.encode]
        rw [List.length_append] at hlen
        obtain ⟨fuel, rfl⟩ : ∃ k, fuel = k + 1 := ⟨fuel - 1, by omega⟩
        rw [adParseFuel_cons fuel (h a List.mem_cons_self),
          ih (fun b hb => h b (List.mem_cons_of_mem a hb)) fuel (by omega)]
        rfl
  exact hfuel _ (Nat.le_refl _)

/-! ### The arrays -/

/-- A payload array on the stack, zeroed at first: its bytes, the length counted so
far, and every index that was stored to. -/
structure AdvArray where
  data : Mem
  len : UInt8
  stored : List Nat

namespace AdvArray

/-- `uint8_t a[31]={0}; uint8_t len=0;` -/
def zero : AdvArray := ⟨fun _ => 0, 0, []⟩

/-- `a[i] = b` -/
def store (a : AdvArray) (i : Nat) (b : UInt8) : AdvArray :=
  { a with data := a.data.set i b, stored := a.stored ++ [i] }

/-- `a[len++] = b` -/
def append (a : AdvArray) (b : UInt8) : AdvArray :=
  { a.store a.len.toNat b with len := a.len + 1 }

/-- `strcpy(&a[i], ..)` of the bytes `bs`, the terminator included -/
def strcpy (a : AdvArray) (i : Nat) : List UInt8 → AdvArray
  | [] => a
  | b :: bs => (a.store i b).strcpy (i + 1) bs

/-- What is passed on: `len` bytes of the array. -/
def bytes (a : AdvArray) : List UInt8 := a.data.bytes 0 a.len.toNat

end AdvArray

/-- `adv_data` of `advertising_init` -/
def advData (confStatFlag : UInt8) (c : Mem) (devMac : Nat) : AdvArray :=
  ([0x02, 0x01, 0x06, 3, 2, 0x7B, 0xFD, 13, 0xFF, 0x70, 0x08, 0x03, 0x01] ++ c.bytes devMac 6 ++
    [confStatFlag, 0x00]).foldl AdvArray.append .zero

/-- `scan_resp_data` of `advertising_init` for a name of `len` bytes -/
def scanRespData (c : Mem) (resp len : Nat) : AdvArray :=
  let a := ((AdvArray.zero.append 0x02).append 0x0A).append 0
  let a := a.store a.len.toNat (UInt8.ofNat (len + 2))
  let a := a.store (a.len.toNat + 1) 0x09
  let a := a.strcpy (a.len.toNat + 2) (c.bytes resp (len + 1))
  { a with len := a.len + UInt8.ofNat (len + 3) }

/-- The scan response that `advertising_init` builds unless the name is too long. -/
def scanRespOf (c : Mem) (resp : Nat) : Option AdvArray :=
  (strlenUpTo 28 c resp).map (scanRespData c resp)

/-! ### Filling an array -/

/-- The array was filled with `bs` from index 0 on, one store after the other. -/
def AdvArray.Filled (a : AdvArray) (bs : List UInt8) : Prop :=
  a.data.bytes 0 bs.length = bs ∧ a.stored = List.range bs.length

namespace AdvArray

theorem Filled.store {a : AdvArray} {bs : List UInt8} (h : a.Filled bs) (b : UInt8) :
    (a.store bs.length b).Filled (bs ++ [b]) := by
  obtain ⟨hdata, hstored⟩ := h
  have hkeep : (a.data.set bs.length b).bytes 0 bs.length = bs := by
    refine (Mem.bytes_congr ?_).trans hdata
    intro i hi
    exact Mem.set_of_ne (by omega)
  constructor
  · rw [List.length_append, List.length_singleton, Mem.bytes_succ]
    change (a.data.set bs.length b).bytes 0 bs.length ++ [a.data.set bs.length b _] = _
    rw [hkeep, Nat.zero_add, Mem.set_self]
  · rw [List.length_append, List.length_singleton, List.range_succ, ← hstored]
    rfl

theorem Filled.strcpy {a : AdvArray} {bs : List UInt8} (h : a.Filled bs) (cs : List UInt8) :
    (a.strcpy bs.length cs).Filled (bs ++ cs) := by
  induction cs generalizing a bs with
  | nil => simpa [AdvArray.strcpy] using h
  | cons c cs ih =>
      have hnext := ih (h.store c)
      rw [List.length_append, List.length_singleton, List.append_assoc] at hnext
      exact hnext

@[simp] theorem strcpy_len (a : AdvArray) (i : Nat) (cs : List UInt8) :
    (a.strcpy i cs).len = a.len := by
  induction cs generalizing a i with
  | nil => rfl
  | cons c cs ih => exact ih _ _

/-- Bytes appended one by one fill the array and are counted, up to 255 of them. -/
theorem filled_appendAll (cs : List UInt8) (h : cs.length < 256) :
    (cs.foldl AdvArray.append zero).Filled cs ∧
      (cs.foldl AdvArray.append zero).len = UInt8.ofNat cs.length := by
  induction cs using List.reverseRecOn with
  | nil => exact ⟨⟨rfl, rfl⟩, rfl⟩
  | append_singleton cs c ih =>
      rw [List.length_append, List.length_singleton] at h
      obtain ⟨hfilled, hlen⟩ := ih (by omega)
      rw [List.foldl_append]
      generalize cs.foldl AdvArray.append zero = a at hfilled hlen
      have hat : a.len.toNat = cs.length := by
        rw [hlen, UInt8.toNat_ofNat']
        exact Nat.mod_eq_of_lt (by omega)
      have hstore := hfilled.store c
      rw [← hat] at hstore
      constructor
      · exact hstore
      · change a.len + 1 = _
        rw [hlen, List.length_append, List.length_singleton, UInt8.ofNat_add]
        rfl

theorem Filled.bytes_eq {a : AdvArray} {bs : List UInt8} (h : a.Filled bs)
    (hlen : a.len.toNat = bs.length) : a.bytes = bs := by
  rw [AdvArray.bytes, hlen]
  exact h.1

theorem Filled.stored_lt_iff {a : AdvArray} {bs : List UInt8} (h : a.Filled bs) (n : Nat) :
    (∀ i ∈ a.stored, i < n) ↔ bs.length ≤ n := by
  rw [h.2]
  constructor
  · intro hlt
    by_contra hgt
    have := hlt n (List.mem_range.mpr (by omega))
    omega
  · intro hle i hi
    have := List.mem_range.mp hi
    omega

end AdvArray

/-- `adv_data` as a list. -/
def advBytes (confStatFlag : UInt8) (c : Mem) (devMac : Nat) : List UInt8 :=
  [0x02, 0x01, 0x06, 3, 2, 0x7B, 0xFD, 13, 0xFF, 0x70, 0x08, 0x03, 0x01] ++ c.bytes devMac 6 ++
    [confStatFlag, 0x00]

theorem length_advBytes (confStatFlag : UInt8) (c : Mem) (devMac : Nat) :
    (advBytes confStatFlag c devMac).length = 21 := by
  simp [advBytes]

theorem advData_filled (confStatFlag : UInt8) (c : Mem) (devMac : Nat) :
    (advData confStatFlag c devMac).Filled (advBytes confStatFlag c devMac) ∧
      (advData confStatFlag c devMac).bytes = advBytes confStatFlag c devMac := by
  have hlen := length_advBytes confStatFlag c devMac
  obtain ⟨hfilled, hcount⟩ :=
    AdvArray.filled_appendAll (advBytes confStatFlag c devMac) (by omega)
  refine ⟨hfilled, hfilled.bytes_eq ?_⟩
  rw [hcount, hlen]
  rfl

/-- `scan_resp_data` as a list. -/
def scanRespBytes (c : Mem) (resp len : Nat) : List UInt8 :=
  [0x02, 0x0A, 0, UInt8.ofNat (len + 2), 0x09] ++ c.bytes resp (len + 1)

theorem scanRespData_filled (c : Mem) (resp len : Nat) (h : len ≤ 28) :
    (scanRespData c resp len).Filled (scanRespBytes c resp len) ∧
      (scanRespData c resp len).bytes = scanRespBytes c resp len := by
  have hpower := (AdvArray.filled_appendAll [0x02, 0x0A, 0] (by decide)).1
  have hname := ((hpower.store (UInt8.ofNat (len + 2))).store 0x09).strcpy (c.bytes resp (len + 1))
  have hfilled : (scanRespData c resp len).Filled (scanRespBytes c resp len) := hname
  refine ⟨hfilled, hfilled.bytes_eq ?_⟩
  have hlen : (scanRespData c resp len).len = 3 + UInt8.ofNat (len + 3) := by
    simp [scanRespData]
    rfl
  rw [hlen, UInt8.toNat_add, UInt8.toNat_ofNat']
  simp [scanRespBytes]
  omega

/-- `advertising_init` passes on what the arrays hold. -/
theorem advertisingInit_eq (P : Platform σ) (confStatFlag : UInt8) (c : Mem) (resp devMac : Nat)
    (w : σ) :
    advertisingInit P confStatFlag c resp devMac w =
      match scanRespOf c resp with
      | none => (-1, w)
      | some scan =>
          let (ok, w) := mbleGapAdvDataSet P (advData confStatFlag c devMac).bytes scan.bytes w
          if ok then (0, w) else (-1, w) := by
  unfold advertisingInit scanRespOf
  cases hlen : strlenUpTo 28 c resp with
  | none => rfl
  | some len =>
      obtain ⟨hle, hnul, -⟩ := strlenUpTo_eq_some.mp hlen
      have hscan : (scanRespData c resp len).bytes =
          [0x02, 0x0A, 0, UInt8.ofNat (len + 2), 0x09] ++ c.bytes resp len ++ [0] := by
        rw [(scanRespData_filled c resp len hle).2, scanRespBytes, Mem.bytes_succ, hnul,
          List.append_assoc]
      simp only [Option.map_some, (advData_filled confStatFlag c devMac).2, hscan]
      rfl

/-- `mble_gap_adv_data_set` with two payloads that fit. -/
theorem mbleGapAdvDataSet_handed {P : Platform σ} {data srData : List UInt8} {w : σ}
    (hdata : data.length ≤ 31) (hsr : srData.length ≤ 31)
    (hok : (mbleGapAdvDataSet P data srData w).1 = true) :
    (mbleGapAdvDataSet P data srData w).2 =
      (P.geckoSetAdvData 1 srData (P.geckoSetAdvData 0 data w).2).2 := by
  unfold mbleGapAdvDataSet at hok ⊢
  simp only [if_pos hdata, if_pos hsr] at hok ⊢
  by_cases hfail : (P.geckoSetAdvData 0 data w).1 = bgErrInvalidParam
  · rw [if_pos hfail] at hok
    cases hok
  · rw [if_neg hfail]

/-! ### Names -/

/-- A zero-terminated string at `p`. -/
structure CString (c : Mem) (p : Nat) (s : List UInt8) : Prop where
  bytes : c.bytes p s.length = s
  noZero : 0 ∉ s
  terminated : c (p + s.length) = 0

theorem CString.strlenUpTo {c : Mem} {p : Nat} {s : List UInt8} (h : CString c p s) (n : Nat) :
    strlenUpTo n c p = if s.length ≤ n then some s.length else none := by
  have hne : ∀ i < s.length, c (p + i) ≠ 0 := by
    intro i hi hzero
    have hlen : i < (c.bytes p s.length).length := by simpa using hi
    have hmem := List.getElem_mem hlen
    rw [Mem.getElem_bytes, hzero] at hmem
    rw [h.bytes] at hmem
    exact h.noZero hmem
  split
  · rename_i hle
    exact strlenUpTo_eq_some.mpr ⟨hle, h.terminated, hne⟩
  · rename_i hgt
    cases hlen : WifiExpander.strlenUpTo n c p with
    | none => rfl
    | some len =>
        obtain ⟨hle, hzero, -⟩ := strlenUpTo_eq_some.mp hlen
        exact absurd hzero (hne len (by omega))

/-- The call wrote inside its arrays, and if it returns 0 the stack was given two
well-formed payloads that carry the address, the flag and the name. A name whose
scan response would not fit is refused. -/
structure Advertises (confStatFlag : UInt8) (c : Mem) (resp devMac : Nat) (name : List UInt8) :
    Prop where
  advInside : ∀ i ∈ (advData confStatFlag c devMac).stored, i < 31
  scanInside : ∀ scan, scanRespOf c resp = some scan → ∀ i ∈ scan.stored, i < 31
  delivered : ∀ (σ : Type) (P : Platform σ) (w : σ),
    (advertisingInit P confStatFlag c resp devMac w).1 = 0 →
      ∃ adv scan ads scanAds,
        (advertisingInit P confStatFlag c resp devMac w).2 =
          (P.geckoSetAdvData 1 scan (P.geckoSetAdvData 0 adv w).2).2 ∧
        adv.length ≤ 31 ∧ scan.length ≤ 31 ∧
        adParse adv = some ads ∧ adParse scan = some scanAds ∧
        macAndFlag ads = some (c.bytes devMac 6, confStatFlag) ∧
        completeLocalName scanAds = some name
  refused : 31 < 3 + (2 + (name.length + 1)) → ∀ (σ : Type) (P : Platform σ) (w : σ),
    advertisingInit P confStatFlag c resp devMac w = (-1, w)

theorem adParse_advBytes (confStatFlag : UInt8) (c : Mem) (devMac : Nat) :
    ∃ ads, adParse (advBytes confStatFlag c devMac) = some ads ∧
      macAndFlag ads = some (c.bytes devMac 6, confStatFlag) := by
  let product := [0x70, 0x08, 0x03, 0x01] ++ c.bytes devMac 6 ++ [confStatFlag, 0x00]
  let ads : List AdStructure := [⟨0x01, [0x06]⟩, ⟨2, [0x7B, 0xFD]⟩, ⟨0xFF, product⟩]
  have hparse : adParse (ads.flatMap AdStructure.encode) = some ads :=
    adParse_flatMap (by simp [ads, product])
  have hbytes : ads.flatMap AdStructure.encode = advBytes confStatFlag c devMac := by
    simp [ads, product, AdStructure.encode, advBytes]
  rw [hbytes] at hparse
  refine ⟨ads, hparse, ?_⟩
  simp [ads, macAndFlag, product]

theorem adParse_scanRespBytes {c : Mem} {resp : Nat} {name : List UInt8} (h : CString c resp name)
    (hlen : name.length ≤ 28) :
    ∃ ads, adParse (scanRespBytes c resp name.length) = some ads ∧
      completeLocalName ads = some name := by
  let ads : List AdStructure := [⟨0x0A, [0]⟩, ⟨0x09, name ++ [0]⟩]
  have hparse : adParse (ads.flatMap AdStructure.encode) = some ads :=
    adParse_flatMap (by simp [ads]; omega)
  have hcount : UInt8.ofNat name.length + 1 + 1 = UInt8.ofNat name.length + 2 := by
    rw [UInt8.add_assoc]
    rfl
  have hbytes : ads.flatMap AdStructure.encode = scanRespBytes c resp name.length := by
    simp [ads, AdStructure.encode, scanRespBytes, Mem.bytes_succ, h.bytes, h.terminated, hcount]
  rw [hbytes] at hparse
  refine ⟨ads, hparse, ?_⟩
  have hkeep : ∀ b ∈ name, (!decide (b = 0)) = true := by
    intro b hb
    have hne : b ≠ 0 := ne_of_mem_of_not_mem hb h.noZero
    simpa using hne
  have htake : (name ++ [0]).takeWhile (fun b => !decide (b = 0)) = name := by
    rw [List.takeWhile_append_of_pos hkeep]
    simp
  simp [ads, completeLocalName, htake]

/-! ### Acceptance -/

theorem scanRespOf_eq {c : Mem} {resp : Nat} {name : List UInt8} (h : CString c resp name) :
    scanRespOf c resp =
      if name.length ≤ 28 then some (scanRespData c resp name.length) else none := by
  rw [scanRespOf, h.strlenUpTo]
  split <;> rfl

/-- Names of up to 25 bytes. -/
theorem advertises_of_le {c : Mem} {resp : Nat} {name : List UInt8} (h : CString c resp name)
    (hlen : name.length ≤ 25) (confStatFlag : UInt8) (devMac : Nat) :
    Advertises confStatFlag c resp devMac name := by
  obtain ⟨hadv, hadvBytes⟩ := advData_filled confStatFlag c devMac
  obtain ⟨hscan, hscanBytes⟩ := scanRespData_filled c resp name.length (by omega)
  have hof : scanRespOf c resp = some (scanRespData c resp name.length) := by
    rw [scanRespOf_eq h, if_pos (by omega)]
  have hadvLen := length_advBytes confStatFlag c devMac
  have hscanLen : (scanRespBytes c resp name.length).length = name.length + 6 := by
    simp [scanRespBytes]
  constructor
  · exact (hadv.stored_lt_iff 31).mpr (by omega)
  · intro scan hscan'
    rw [hof] at hscan'
    cases hscan'
    exact (hscan.stored_lt_iff 31).mpr (by omega)
  · intro σ P w hzero
    obtain ⟨ads, hparse, hmac⟩ := adParse_advBytes confStatFlag c devMac
    obtain ⟨scanAds, hparse', hname⟩ := adParse_scanRespBytes h (by omega)
    have hadvFits : (advBytes confStatFlag c devMac).length ≤ 31 := by omega
    have hscanFits : (scanRespBytes c resp name.length).length ≤ 31 := by omega
    refine ⟨_, _, ads, scanAds, ?_, hadvFits, hscanFits, hparse, hparse', hmac, hname⟩
    rw [advertisingInit_eq, hof] at hzero ⊢
    simp only [hadvBytes, hscanBytes] at hzero ⊢
    have hhanded := mbleGapAdvDataSet_handed (P := P) (w := w) hadvFits hscanFits
    cases hok : (mbleGapAdvDataSet P (advBytes confStatFlag c devMac)
        (scanRespBytes c resp name.length) w).1 with
    | true => exact hhanded hok
    | false =>
        rw [hok] at hzero
        cases hzero
  · intro hlong
    omega

/-- Names of more than 28 bytes are refused before anything is built. -/
theorem advertises_of_gt {c : Mem} {resp : Nat} {name : List UInt8} (h : CString c resp name)
    (hlen : 28 < name.length) (confStatFlag : UInt8) (devMac : Nat) :
    Advertises confStatFlag c resp devMac name := by
  have hof : scanRespOf c resp = none := by
    rw [scanRespOf_eq h, if_neg (by omega)]
  have hrefused : ∀ (σ : Type) (P : Platform σ) (w : σ),
      advertisingInit P confStatFlag c resp devMac w = (-1, w) := by
    intro σ P w
    rw [advertisingInit_eq, hof]
  constructor
  · have hadvLen := length_advBytes confStatFlag c devMac
    exact ((advData_filled confStatFlag c devMac).1.stored_lt_iff 31).mpr (by omega)
  · intro scan hscan
    rw [hof] at hscan
    cases hscan
  · intro σ P w hzero
    rw [hrefused] at hzero
    cases hzero
  · intro _
    exact hrefused

/-- The terminator of a name of 26 to 28 bytes is stored outside the array. -/
theorem not_advertises {c : Mem} {resp : Nat} {name : List UInt8} (h : CString c resp name)
    (hlow : 25 < name.length) (hhigh : name.length ≤ 28) (confStatFlag : UInt8) (devMac : Nat) :
    ¬ Advertises confStatFlag c resp devMac name := by
  intro hadv
  have hof : scanRespOf c resp = some (scanRespData c resp name.length) := by
    rw [scanRespOf_eq h, if_pos hhigh]
  have hinside := hadv.scanInside _ hof
  rw [(scanRespData_filled c resp name.length hhigh).1.stored_lt_iff 31] at hinside
  simp [scanRespBytes] at hinside
  omega

/-- Nor does the stack get to see the scan response of such a name. -/
theorem scanResp_skipped {c : Mem} {resp : Nat} {name : List UInt8} (h : CString c resp name)
    (hlow : 25 < name.length) (hhigh : name.length ≤ 28) (P : Platform σ) (confStatFlag : UInt8)
    (devMac : Nat) (w : σ) :
    (advertisingInit P confStatFlag c resp devMac w).2 =
      (P.geckoSetAdvData 0 (advBytes confStatFlag c devMac) w).2 := by
  have hadvFits : (advBytes confStatFlag c devMac).length ≤ 31 := by
    rw [length_advBytes]
    omega
  have hscanLong : ¬ (scanRespBytes c resp name.length).length ≤ 31 := by
    simp [scanRespBytes]
    omega
  rw [advertisingInit_eq, scanRespOf_eq h, if_pos hhigh]
  simp only [(advData_filled confStatFlag c devMac).2, (scanRespData_filled c resp _ hhigh).2,
    mbleGapAdvDataSet, if_pos hadvFits, if_neg hscanLong]
  by_cases hfail : (P.geckoSetAdvData 0 (advBytes confStatFlag c devMac) w).1 = bgErrInvalidParam
  · rw [if_pos hfail]
    rfl
  · rw [if_neg hfail]
    rfl

/-- `advertising_init` does what it should exactly for names of at most 25 bytes and
those it refuses. -/
theorem advertises_iff {c : Mem} {resp : Nat} {name : List UInt8} (h : CString c resp name)
    (confStatFlag : UInt8) (devMac : Nat) :
    Advertises confStatFlag c resp devMac name ↔ name.length ≤ 25 ∨ 28 < name.length := by
  constructor
  · intro hadv
    by_contra hlen
    exact not_advertises h (by omega) (by omega) confStatFlag devMac hadv
  · rintro (hlen | hlen)
    · exact advertises_of_le h hlen confStatFlag devMac
    · exact advertises_of_gt h hlen confStatFlag devMac

/-- The name `bt`, right behind a flag and an address. -/
def shortName : Mem := Mem.ofList [0, 1, 2, 3, 4, 5, 6, 0x62, 0x74, 0]

theorem advertises_iff_shortName : Advertises 0 shortName 7 1 [0x62, 0x74] :=
  (advertises_iff ⟨by decide, by decide, by decide⟩ 0 1).mpr (.inl (by decide))

/-- A name of 26 letters. -/
def longName : List UInt8 := List.replicate 26 0x61

/-- It is accepted, but index 31 is stored to. -/
theorem longName_not_advertised :
    CString (Mem.ofList longName) 0 longName ∧ ¬ Advertises 0 (Mem.ofList longName) 0 0 longName ∧
      advertisingInit compliantPlatform 0 (Mem.ofList longName) 0 0 () = (0, ()) ∧
      ∃ scan, scanRespOf (Mem.ofList longName) 0 = some scan ∧ 31 ∈ scan.stored := by
  have hname : CString (Mem.ofList longName) 0 longName := ⟨by decide, by decide, by decide⟩
  have hof :
      scanRespOf (Mem.ofList longName) 0 = some (scanRespData (Mem.ofList longName) 0 26) := by
    rw [scanRespOf_eq hname]
    rfl
  refine ⟨hname, not_advertises hname (by decide) (by decide) 0 0, ?_, _, hof, ?_⟩
  · decide
  · rw [(scanRespData_filled (Mem.ofList longName) 0 26 (by decide)).1.2]
    exact List.mem_range.mpr (by simp [scanRespBytes])

end WifiExpander
