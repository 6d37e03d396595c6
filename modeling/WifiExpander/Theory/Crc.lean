import Mathlib.Logic.Function.Iterate

/-!
Cyclic redundancy checks with a reflected register of `w` bits.

The register is shifted right and the polynomial added when a one leaves it
(`lfsr`); a message bit is added to the lowest bit before the shift (`feed`).
Both are linear over exclusive or. From this come the two facts a user needs:
the table-driven step (`lfsr_iterate_eq_shift`), and that an error burst no wider
than the register changes the check sum (`crc_ne_of_burst`).
-/

namespace WifiExpander.Theory

variable {w : Nat} {p : BitVec w}

/-- One shift of the register with polynomial `p`. -/
def lfsr (p r : BitVec w) : BitVec w :=
  if r.getLsbD 0 then (r >>> 1) ^^^ p else r >>> 1

/-- The bits of a word, least significant first. -/
def word (bits : List Bool) : BitVec w :=
  (BitVec.ofBoolListLE bits).setWidth w

/-- Take one bit of the message into the register. -/
def feed (p r : BitVec w) (b : Bool) : BitVec w :=
  lfsr p (r ^^^ word [b])

/-- The register after the message `bits`. -/
def crc (p r : BitVec w) (bits : List Bool) : BitVec w :=
  bits.foldl (feed p) r

/-! ### Linearity -/

theorem lfsr_xor (p x y : BitVec w) : lfsr p (x ^^^ y) = lfsr p x ^^^ lfsr p y := by
  unfold lfsr
  rw [BitVec.ushiftRight_xor_distrib, BitVec.getLsbD_xor]
  have hp : ∀ a b : BitVec w, a ^^^ p ^^^ (b ^^^ p) = a ^^^ b := by
    intro a b
    rw [BitVec.xor_comm b p, BitVec.xor_assoc, ← BitVec.xor_assoc p p b, BitVec.xor_self,
      BitVec.zero_xor]
  cases x.getLsbD 0 <;> cases y.getLsbD 0
  · rfl
  · simp [BitVec.xor_assoc]
  · simp [BitVec.xor_assoc, BitVec.xor_comm p]
  · simp [hp]

theorem lfsr_iterate_xor (p : BitVec w) (k : Nat) (x y : BitVec w) :
    (lfsr p)^[k] (x ^^^ y) = (lfsr p)^[k] x ^^^ (lfsr p)^[k] y := by
  induction k generalizing x y with
  | zero => rfl
  | succ k ih => simp only [Function.iterate_succ_apply, lfsr_xor, ih]

/-- A register whose lowest `k` bits are clear only moves down. -/
theorem lfsr_iterate_of_low {x : BitVec w} {k : Nat} (hx : ∀ i < k, x.getLsbD i = false) :
    (lfsr p)^[k] x = x >>> k := by
  induction k with
  | zero => simp
  | succ k ih =>
      have hlow : (x >>> k).getLsbD 0 = false := by simpa using hx k (by omega)
      rw [Function.iterate_succ_apply', ih fun i hi => hx i (by omega), lfsr, hlow,
        BitVec.shiftRight_add]
      simp

/-- Several shifts at once: the bits that leave select an entry of a table. -/
theorem lfsr_iterate_eq_shift (p : BitVec w) (k : Nat) (x : BitVec w) :
    (lfsr p)^[k] x = (x >>> k) ^^^ (lfsr p)^[k] ((x.setWidth k).setWidth w) := by
  generalize hlow : (x.setWidth k).setWidth w = low
  have hbit : ∀ i, low.getLsbD i = (decide (i < k) && x.getLsbD i) := by
    intro i
    subst hlow
    rw [BitVec.getLsbD_setWidth, BitVec.getLsbD_setWidth]
    by_cases hi : i < w
    · simp [hi]
    · simp [hi, BitVec.getLsbD_of_ge x i (by omega)]
  have hsplit : x = (x ^^^ low) ^^^ low := by
    rw [BitVec.xor_assoc, BitVec.xor_self, BitVec.xor_zero]
  have hhigh : (lfsr p)^[k] (x ^^^ low) = (x ^^^ low) >>> k := by
    apply lfsr_iterate_of_low
    intro i hi
    simp [hbit, hi]
  have hzero : low >>> k = 0#w := by
    apply BitVec.eq_of_getLsbD_eq
    intro i _
    have hout : ¬ k + i < k := by omega
    simp [hbit, hout]
  calc (lfsr p)^[k] x = (lfsr p)^[k] ((x ^^^ low) ^^^ low) := by rw [← hsplit]
    _ = (x ^^^ low) >>> k ^^^ (lfsr p)^[k] low := by rw [lfsr_iterate_xor, hhigh]
    _ = (x >>> k) ^^^ (lfsr p)^[k] low := by
      rw [BitVec.ushiftRight_xor_distrib, hzero, BitVec.xor_zero]

/-! ### Words -/

theorem getLsbD_word (bits : List Bool) (i : Nat) :
    (word bits : BitVec w).getLsbD i = (decide (i < w) && bits.getD i false) := by
  simp [word]

/-- The first bit leaves the register, the others move down. -/
theorem lfsr_word_cons {b : Bool} {bits : List Bool} (h : bits.length < w) :
    lfsr p (word (b :: bits)) = lfsr p (word [b]) ^^^ word bits := by
  have hsplit : (word (b :: bits) : BitVec w) = word [b] ^^^ word (false :: bits) := by
    apply BitVec.eq_of_getLsbD_eq
    intro i hi
    rw [BitVec.getLsbD_xor, getLsbD_word, getLsbD_word, getLsbD_word]
    cases i <;> simp [hi]
  have hdown : lfsr p (word (false :: bits)) = word bits := by
    apply BitVec.eq_of_getLsbD_eq
    intro i hi
    have hlow : (word (false :: bits) : BitVec w).getLsbD 0 = false := by simp [getLsbD_word]
    rw [lfsr, hlow, if_neg Bool.false_ne_true, BitVec.getLsbD_ushiftRight, getLsbD_word,
      getLsbD_word]
    by_cases hlt : 1 + i < w
    · simp [hi, Nat.add_comm 1 i, Nat.add_comm 1 i ▸ hlt]
    · have hlen : bits.length ≤ i := by omega
      simp [hlt, List.getElem?_eq_none hlen]
  rw [hsplit, lfsr_xor, hdown]

theorem word_injective {xs ys : List Bool} (hlen : xs.length = ys.length) (hw : xs.length ≤ w)
    (h : (word xs : BitVec w) = word ys) : xs = ys := by
  apply List.ext_getElem hlen
  intro i hi hi'
  have hiw : i < w := by omega
  have hbit : (word xs : BitVec w).getLsbD i = (word ys : BitVec w).getLsbD i := by rw [h]
  rw [getLsbD_word, getLsbD_word] at hbit
  simpa [hiw, hi, hi'] using hbit

/-! ### Messages -/

theorem crc_append (p r : BitVec w) (xs ys : List Bool) :
    crc p r (xs ++ ys) = crc p (crc p r xs) ys := by
  simp [crc]

/-- Up to `w` bits may be taken in at once. -/
theorem crc_eq_iterate {bits : List Bool} (h : bits.length ≤ w) (r : BitVec w) :
    crc p r bits = (lfsr p)^[bits.length] (r ^^^ word bits) := by
  induction bits generalizing r with
  | nil =>
      have hzero : (word [] : BitVec w) = 0#w := by
        apply BitVec.eq_of_getLsbD_eq
        intro i _
        simp [getLsbD_word]
      simp [crc, hzero]
  | cons b bits ih =>
      rw [List.length_cons] at h
      have hstep : lfsr p (r ^^^ word (b :: bits)) = feed p r b ^^^ word bits := by
        rw [feed, lfsr_xor, lfsr_word_cons (by omega), lfsr_xor, BitVec.xor_assoc]
      rw [crc, List.foldl_cons, ← crc, ih (by omega), List.length_cons,
        Function.iterate_succ_apply, hstep]

/-- A polynomial with its highest bit set makes the shift reversible. -/
theorem lfsr_injective (hp : p.msb = true) : Function.Injective (lfsr p) := by
  have hker : ∀ x : BitVec w, lfsr p x = 0#w → x = 0#w := by
    intro x hx
    have hw : 0 < w := by
      rcases Nat.eq_zero_or_pos w with rfl | h
      · simp [BitVec.of_length_zero] at hp
      · exact h
    rw [lfsr] at hx
    cases hlow : x.getLsbD 0 with
    | true =>
        rw [hlow, if_pos rfl] at hx
        have htop := congrArg (BitVec.getLsbD · (w - 1)) hx
        rw [BitVec.msb_eq_getLsbD_last] at hp
        have hout : w ≤ 1 + (w - 1) := by omega
        simp [hp, BitVec.getLsbD_of_ge x _ hout] at htop
    | false =>
        rw [hlow, if_neg Bool.false_ne_true] at hx
        apply BitVec.eq_of_getLsbD_eq
        intro i hi
        cases i with
        | zero => simp [hlow]
        | succ i =>
            have hbit := congrArg (BitVec.getLsbD · i) hx
            simpa [Nat.add_comm 1 i] using hbit
  intro x y h
  apply BitVec.xor_eq_zero_iff.mp
  apply hker
  rw [lfsr_xor, h, BitVec.xor_self]

theorem crc_injective (hp : p.msb = true) (bits : List Bool) :
    Function.Injective fun r => crc p r bits := by
  induction bits with
  | nil => exact Function.injective_id
  | cons b bits ih =>
      intro x y h
      have hfeed : feed p x b = feed p y b := ih h
      exact (BitVec.xor_left_inj _).mp (lfsr_injective hp hfeed)

/-- Two messages that differ in a stretch of at most `w` bits. -/
theorem crc_ne_of_burst (hp : p.msb = true) {xs ys : List Bool} (hlen : xs.length = ys.length)
    (hw : xs.length ≤ w) (hne : xs ≠ ys) (r : BitVec w) (before after : List Bool) :
    crc p r (before ++ xs ++ after) ≠ crc p r (before ++ ys ++ after) := by
  intro h
  rw [crc_append, crc_append, crc_append, crc_append] at h
  have hmid := crc_injective hp after h
  have hw' : ys.length ≤ w := hlen ▸ hw
  change crc p (crc p r before) xs = crc p (crc p r before) ys at hmid
  generalize crc p r before = r₁ at hmid
  rw [crc_eq_iterate hw, crc_eq_iterate hw', ← hlen] at hmid
  have hin := (lfsr_injective hp).iterate _ hmid
  exact hne (word_injective hlen hw ((BitVec.xor_right_inj _).mp hin))

/-- The same with the stretch given by the positions at which the messages differ. -/
theorem crc_ne_of_window (hp : p.msb = true) {xs ys : List Bool} (hlen : xs.length = ys.length)
    (hne : xs ≠ ys) {s : Nat} (hwin : ∀ i, xs[i]? ≠ ys[i]? → s ≤ i ∧ i < s + w)
    (r : BitVec w) : crc p r xs ≠ crc p r ys := by
  have hbefore : xs.take s = ys.take s := by
    apply List.ext_getElem?
    intro i
    by_contra hi
    rw [List.getElem?_take, List.getElem?_take] at hi
    by_cases hlt : i < s
    · rw [if_pos hlt, if_pos hlt] at hi
      have := (hwin i hi).1
      omega
    · rw [if_neg hlt, if_neg hlt] at hi
      exact hi rfl
  have hafter : xs.drop (s + w) = ys.drop (s + w) := by
    apply List.ext_getElem?
    intro i
    by_contra hi
    rw [List.getElem?_drop, List.getElem?_drop] at hi
    have := (hwin _ hi).2
    omega
  have hsplit : ∀ zs : List Bool, zs = zs.take s ++ (zs.drop s).take w ++ zs.drop (s + w) := by
    intro zs
    rw [List.append_assoc, ← List.drop_drop, List.take_append_drop, List.take_append_drop]
  have hmid : (xs.drop s).take w ≠ (ys.drop s).take w := by
    intro h
    apply hne
    rw [hsplit xs, hsplit ys, hbefore, h, hafter]
  have hmidlen : ((xs.drop s).take w).length = ((ys.drop s).take w).length := by
    simp [hlen]
  have hburst := crc_ne_of_burst hp hmidlen (List.length_take_le _ _) hmid r (xs.take s)
    (xs.drop (s + w))
  rwa [← hsplit xs, hbefore, hafter, ← hsplit ys] at hburst

end WifiExpander.Theory
