import Mathlib.Data.List.Count
import WifiExpander.Theory.Crc

/-!
Which bit errors a cyclic redundancy check detects by their number.

A polynomial with an odd number of ones keeps the parity of the register, so an
odd number of errors is always detected. Two errors are detected as long as the
register does not come back to a single one within their distance. The errors may
be in the message and in the check sum sent with it.
-/

namespace WifiExpander.Theory

variable {w : Nat} {p : BitVec w}

/-! ### Bits of a register -/

/-- The bits of a register, least significant first. -/
def registerBits (r : BitVec w) : List Bool := (List.range w).map r.getLsbD

/-- An odd number of ones. -/
def oddOnes (bits : List Bool) : Bool := bits.foldr xor false

/-- The parity of a register. -/
def parity (r : BitVec w) : Bool := oddOnes (registerBits r)

/-- At how many positions two messages differ. -/
def flips (xs ys : List Bool) : Nat := (List.zipWith xor xs ys).count true

@[simp] theorem length_registerBits (r : BitVec w) : (registerBits r).length = w := by
  simp [registerBits]

theorem word_registerBits (r : BitVec w) : word (registerBits r) = r := by
  apply BitVec.eq_of_getLsbD_eq
  intro i hi
  rw [getLsbD_word]
  simp [registerBits, hi]

theorem registerBits_xor (x y : BitVec w) :
    registerBits (x ^^^ y) = List.zipWith xor (registerBits x) (registerBits y) := by
  simp [registerBits, List.zipWith_map, List.zipWith_self]

theorem oddOnes_append (xs ys : List Bool) :
    oddOnes (xs ++ ys) = xor (oddOnes xs) (oddOnes ys) := by
  induction xs with
  | nil => simp [oddOnes]
  | cons x xs ih =>
      change xor x (oddOnes (xs ++ ys)) = xor (xor x (oddOnes xs)) (oddOnes ys)
      rw [ih, Bool.xor_assoc]

theorem oddOnes_zipWith {xs ys : List Bool} (h : xs.length = ys.length) :
    oddOnes (List.zipWith xor xs ys) = xor (oddOnes xs) (oddOnes ys) := by
  induction xs generalizing ys with
  | nil =>
      cases ys with
      | nil => rfl
      | cons y ys => simp at h
  | cons x xs ih =>
      cases ys with
      | nil => simp at h
      | cons y ys =>
          have hlen : xs.length = ys.length := by simpa using h
          have hrest := ih hlen
          change xor (xor x y) (oddOnes (List.zipWith xor xs ys)) =
            xor (xor x (oddOnes xs)) (xor y (oddOnes ys))
          rw [hrest]
          cases x <;> cases y <;> cases oddOnes xs <;> cases oddOnes ys <;> rfl

theorem oddOnes_eq_count (bits : List Bool) : oddOnes bits = (bits.count true % 2 == 1) := by
  induction bits with
  | nil => rfl
  | cons b bits ih =>
      change xor b (oddOnes bits) = _
      rw [ih]
      cases b with
      | false => simp
      | true =>
          rw [List.count_cons_self]
          rcases Nat.mod_two_eq_zero_or_one (bits.count true) with h | h
          · simp [h, Nat.add_mod]
          · simp [h, Nat.add_mod]

theorem parity_xor (x y : BitVec w) : parity (x ^^^ y) = xor (parity x) (parity y) := by
  rw [parity, registerBits_xor, oddOnes_zipWith (by simp)]
  rfl

theorem parity_zero : parity (0#w) = false := by
  have hzero : parity (0#w) = xor (parity (0#w)) (parity (0#w)) := by
    rw [← parity_xor, BitVec.xor_self]
  rw [hzero, Bool.xor_self]

/-- The bit that leaves the register changes its parity. -/
theorem parity_eq_shift (r : BitVec w) : parity r = xor (r.getLsbD 0) (parity (r >>> 1)) := by
  cases w with
  | zero => simp [parity, registerBits, oddOnes]
  | succ n =>
      have hup : registerBits r =
          r.getLsbD 0 :: (List.range n).map fun i => r.getLsbD (i + 1) := by
        simp [registerBits, List.range_succ_eq_map]
      have hdown : registerBits (r >>> 1) =
          ((List.range n).map fun i => r.getLsbD (i + 1)) ++ [false] := by
        simp [registerBits, List.range_succ, Nat.add_comm 1]
      rw [parity, parity, hup, hdown, oddOnes_append]
      simp [oddOnes]

/-- A shift keeps the parity. -/
theorem parity_lfsr (hodd : parity p = true) (r : BitVec w) : parity (lfsr p r) = parity r := by
  rw [parity_eq_shift r, lfsr]
  cases r.getLsbD 0 with
  | false => simp
  | true =>
      rw [if_pos rfl, parity_xor, hodd]
      exact Bool.xor_comm _ _

theorem parity_word_singleton (hw : 0 < w) (b : Bool) : parity (word [b] : BitVec w) = b := by
  have hlow : (word [b] : BitVec w).getLsbD 0 = b := by
    rw [getLsbD_word]
    simp [hw]
  have hshift : (word [b] : BitVec w) >>> 1 = 0#w := by
    apply BitVec.eq_of_getLsbD_eq
    intro i _
    simp [getLsbD_word, Nat.add_comm 1]
  rw [parity_eq_shift, hlow, hshift, parity_zero, Bool.xor_false]

/-- Each one in the message changes the parity. -/
theorem parity_crc (hw : 0 < w) (hodd : parity p = true) (r : BitVec w) (bits : List Bool) :
    parity (crc p r bits) = xor (parity r) (oddOnes bits) := by
  induction bits generalizing r with
  | nil => simp [crc, oddOnes]
  | cons b bits ih =>
      change parity (crc p (feed p r b) bits) = xor (parity r) (xor b (oddOnes bits))
      rw [ih, feed, parity_lfsr hodd, parity_xor, parity_word_singleton hw, Bool.xor_assoc]

/-! ### Differences of messages -/

theorem word_singleton_xor (a b : Bool) :
    (word [xor a b] : BitVec w) = word [a] ^^^ word [b] := by
  apply BitVec.eq_of_getLsbD_eq
  intro i hi
  rw [BitVec.getLsbD_xor, getLsbD_word, getLsbD_word, getLsbD_word]
  cases i <;> simp [hi]

theorem feed_xor (p x y : BitVec w) (a b : Bool) :
    feed p (x ^^^ y) (xor a b) = feed p x a ^^^ feed p y b := by
  have hswap : x ^^^ y ^^^ (word [a] ^^^ word [b]) = x ^^^ word [a] ^^^ (y ^^^ word [b]) := by
    rw [BitVec.xor_assoc, BitVec.xor_assoc, ← BitVec.xor_assoc y,
      BitVec.xor_comm y (word [a]), BitVec.xor_assoc]
  rw [feed, feed, feed, ← lfsr_xor, word_singleton_xor, hswap]

/-- The check is linear in the start value and the message. -/
theorem crc_xor {xs ys : List Bool} (h : xs.length = ys.length) (x y : BitVec w) :
    crc p (x ^^^ y) (List.zipWith xor xs ys) = crc p x xs ^^^ crc p y ys := by
  induction xs generalizing ys x y with
  | nil =>
      cases ys with
      | nil => rfl
      | cons b ys => simp at h
  | cons a xs ih =>
      cases ys with
      | nil => simp at h
      | cons b ys =>
          change crc p (feed p (x ^^^ y) (xor a b)) (List.zipWith xor xs ys) =
            crc p (feed p x a) xs ^^^ crc p (feed p y b) ys
          rw [feed_xor, ih (by simpa using h)]

theorem lfsr_iterate_zero (p : BitVec w) (k : Nat) : (lfsr p)^[k] (0#w) = 0#w := by
  induction k with
  | zero => rfl
  | succ k ih =>
      rw [Function.iterate_succ_apply', ih]
      simp [lfsr]

/-- A message followed by its own check leaves nothing in the register. -/
theorem crc_registerBits (p r : BitVec w) : crc p r (registerBits r) = 0#w := by
  rw [crc_eq_iterate (by simp), word_registerBits, BitVec.xor_self, lfsr_iterate_zero]

/-! ### One and two errors -/

theorem feed_false (p r : BitVec w) : feed p r false = lfsr p r := by
  have hword : (word [false] : BitVec w) = 0#w := by
    apply BitVec.eq_of_getLsbD_eq
    intro i _
    rw [getLsbD_word]
    cases i <;> simp
  rw [feed, hword, BitVec.xor_zero]

theorem crc_replicate_false (p r : BitVec w) (n : Nat) :
    crc p r (List.replicate n false) = (lfsr p)^[n] r := by
  induction n generalizing r with
  | zero => rfl
  | succ n ih =>
      change crc p (feed p r false) (List.replicate n false) = _
      rw [feed_false, ih, Function.iterate_succ_apply]

theorem eq_replicate_of_no_ones {bits : List Bool} (h : true ∉ bits) :
    bits = List.replicate bits.length false := by
  rw [List.eq_replicate_iff]
  refine ⟨rfl, ?_⟩
  intro b hb
  cases b with
  | false => rfl
  | true => exact absurd hb h

/-- The first one of a message that has some. -/
theorem exists_first_one {bits : List Bool} {n : Nat} (h : bits.count true = n + 1) :
    ∃ a rest, bits = List.replicate a false ++ true :: rest ∧ rest.count true = n := by
  have hmem : true ∈ bits := List.count_pos_iff.mp (by omega)
  obtain ⟨front, rest, rfl, hfront⟩ := List.eq_append_cons_of_mem hmem
  refine ⟨front.length, rest, ?_, ?_⟩
  · rw [← eq_replicate_of_no_ones hfront]
  · rw [List.count_append, List.count_cons_self, List.count_eq_zero.mpr hfront] at h
    omega

/-- Two ones leave something in the register if a single one, shifted by their
distance, is not a single one again. -/
theorem crc_ne_zero_of_two (hp : p.msb = true) {bits : List Bool}
    (hperiod : ∀ k, 0 < k → k < bits.length → (lfsr p)^[k] (word [true]) ≠ word [true])
    (h : bits.count true = 2) : crc p (0#w) bits ≠ 0#w := by
  obtain ⟨a, rest₁, rfl, hrest₁⟩ := exists_first_one h
  obtain ⟨b, rest₂, rfl, hrest₂⟩ := exists_first_one hrest₁
  obtain ⟨c, rfl⟩ : ∃ c, rest₂ = List.replicate c false :=
    ⟨_, eq_replicate_of_no_ones (List.count_eq_zero.mp hrest₂)⟩
  intro hzero
  apply hperiod (b + 1) (Nat.succ_pos b)
  · simp
    omega
  · have hcons : ∀ (r : BitVec w) (bits : List Bool),
        crc p r (true :: bits) = crc p (lfsr p (r ^^^ word [true])) bits := fun _ _ => rfl
    rw [crc_append, crc_replicate_false, lfsr_iterate_zero, hcons, BitVec.zero_xor, crc_append,
      crc_replicate_false, hcons, crc_replicate_false, ← Function.iterate_succ_apply,
      ← Function.iterate_succ_apply] at hzero
    rw [← lfsr_iterate_zero p (c + 1)] at hzero
    exact BitVec.xor_eq_zero_iff.mp ((lfsr_injective hp).iterate (c + 1) hzero)

/-- **Errors by number.** Of a message and its check, sent together, an odd number
of flipped bits is detected, and so are two within the distance in which a single
one does not come back. -/
theorem crc_detects_flips (hp : p.msb = true) (hodd : parity p = true) {n : Nat}
    (hperiod : ∀ k, 0 < k → k < n → (lfsr p)^[k] (word [true]) ≠ word [true])
    {xs ys : List Bool} (hlen : xs.length = ys.length) (hn : xs.length + w ≤ n) {r c : BitVec w}
    (hflips : flips (xs ++ registerBits (crc p r xs)) (ys ++ registerBits c) % 2 = 1 ∨
      flips (xs ++ registerBits (crc p r xs)) (ys ++ registerBits c) = 2) :
    c ≠ crc p r ys := by
  have hw : 0 < w := by
    rcases Nat.eq_zero_or_pos w with rfl | h
    · simp [BitVec.of_length_zero] at hp
    · exact h
  have hwhole : ∀ {xs ys : List Bool}, xs.length = ys.length →
      crc p (0#w) (List.zipWith xor xs ys) = crc p r xs ^^^ crc p r ys := by
    intro xs ys h
    rw [← crc_xor h, BitVec.xor_self]
  rintro rfl
  have hlen' : (xs ++ registerBits (crc p r xs)).length =
      (ys ++ registerBits (crc p r ys)).length := by
    simp [hlen]
  -- both messages leave nothing, so their difference does
  have hzero : crc p (0#w) (List.zipWith xor (xs ++ registerBits (crc p r xs))
      (ys ++ registerBits (crc p r ys))) = 0#w := by
    rw [hwhole hlen', crc_append, crc_append, crc_registerBits, crc_registerBits, BitVec.xor_self]
  rcases hflips with hflips | hflips
  · have hparity := parity_crc hw hodd (0#w) (List.zipWith xor (xs ++ registerBits (crc p r xs))
      (ys ++ registerBits (crc p r ys)))
    rw [hzero, parity_zero, Bool.false_xor, oddOnes_eq_count] at hparity
    rw [flips] at hflips
    simp [hflips] at hparity
  · apply crc_ne_zero_of_two hp _ hflips hzero
    intro k hpos hk
    apply hperiod k hpos
    rw [List.length_zipWith, List.length_append, length_registerBits] at hk
    omega

/-! ### The period, by evaluation -/

/-- The shift on numbers -/
def lfsrNat (p r : Nat) : Nat := (r / 2) ^^^ (p * (r % 2))

theorem toNat_lfsr (p r : BitVec w) : (lfsr p r).toNat = lfsrNat p.toNat r.toNat := by
  have hlow : r.getLsbD 0 = decide (r.toNat % 2 = 1) := by
    simp [BitVec.getLsbD, Nat.testBit_zero]
  rw [lfsr, hlow, lfsrNat]
  rcases Nat.mod_two_eq_zero_or_one r.toNat with h | h
  · simp [h, Nat.shiftRight_eq_div_pow]
  · simp [h, Nat.shiftRight_eq_div_pow]

/-- In `n` shifts from `y` the register does not hold `x`. The shifted value is
matched so that it is computed at each step. -/
def avoids (p x : Nat) : Nat → Nat → Bool
  | 0, _ => true
  | n + 1, y =>
      match lfsrNat p y with
      | 0 => x != 0
      | z + 1 => z + 1 != x && avoids p x n (z + 1)

theorem ne_of_avoids {x y : BitVec w} {n : Nat} (h : avoids p.toNat x.toNat n y.toNat = true) :
    ∀ k, 0 < k → k ≤ n → (lfsr p)^[k] y ≠ x := by
  induction n generalizing y with
  | zero =>
      intro k hpos hk
      omega
  | succ n ih =>
      intro k hpos hk
      obtain ⟨k, rfl⟩ : ∃ j, k = j + 1 := ⟨k - 1, by omega⟩
      rw [Function.iterate_succ_apply]
      have hstep := toNat_lfsr p y
      rw [avoids] at h
      cases hz : lfsrNat p.toNat y.toNat with
      | zero =>
          simp only [hz] at h hstep
          have hzero : lfsr p y = 0#w := BitVec.eq_of_toNat_eq (by simpa using hstep)
          rw [hzero, lfsr_iterate_zero]
          rintro rfl
          simp at h
      | succ z =>
          simp only [hz, Bool.and_eq_true, bne_iff_ne] at h hstep
          rw [← hstep] at h
          cases k with
          | zero =>
              intro heq
              exact h.1 (congrArg BitVec.toNat heq)
          | succ k => exact ih h.2 (k + 1) (Nat.succ_pos k) (by omega)

end WifiExpander.Theory
