import Mathlib.Data.Fin.Basic
import Mathlib.Logic.Function.Basic

/-!
Ring buffers with a write index and a read index and no separate count.

Equal indices mean empty, so a buffer of `n` cells holds at most `n - 1` unread
elements; a write into a buffer that holds `n - 1` makes it look empty. The
indices are `Fin n`: an index outside the array cannot be built. `contents` is
the abstraction to a queue, and `push` and `advance` are related to it.
-/

namespace WifiExpander.Theory

/-- A ring buffer of `n` cells. -/
structure RingBuffer (α : Type) (n : Nat) where
  data : Fin n → α
  pIn : Fin n
  pOut : Fin n

namespace RingBuffer

variable {α : Type} {n : Nat}

/-- The index after `i`, which wraps to `0` at the end of the array. -/
def next (i : Fin n) : Fin n :=
  if h : i.val + 1 < n then ⟨i.val + 1, h⟩ else ⟨0, i.pos⟩

/-- `k` cells on from `i`. -/
def skip (i : Fin n) : Nat → Fin n
  | 0 => i
  | k + 1 => skip (next i) k

/-- The `k` cells from `i` on. -/
def window (data : Fin n → α) (i : Fin n) : Nat → List α
  | 0 => []
  | k + 1 => data i :: window data (next i) k

/-- The number of unread elements. -/
def count (r : RingBuffer α n) : Nat :=
  if r.pOut ≤ r.pIn then r.pIn - r.pOut else r.pIn + n - r.pOut

/-- The unread elements, oldest first. -/
def contents (r : RingBuffer α n) : List α :=
  window r.data r.pOut r.count

/-- Write one element, whatever the buffer holds. -/
def push (r : RingBuffer α n) (x : α) : RingBuffer α n :=
  { r with data := Function.update r.data r.pIn x, pIn := next r.pIn }

/-- Write a sequence of elements. -/
def pushAll (r : RingBuffer α n) (xs : List α) : RingBuffer α n :=
  xs.foldl push r

/-! ### Indices -/

theorem next_val (i : Fin n) : (next i).val = if i.val + 1 < n then i.val + 1 else 0 := by
  unfold next
  split <;> simp

theorem skip_val (i : Fin n) (k : Nat) : (skip i k).val = (i.val + k) % n := by
  induction k generalizing i with
  | zero => simp [skip, Nat.mod_eq_of_lt i.isLt]
  | succ k ih =>
      rw [skip, ih, next_val]
      split
      · congr 1; omega
      · have hi := i.isLt
        have : i.val + (k + 1) = k + n := by omega
        simp [this]

theorem skip_add (i : Fin n) (a b : Nat) : skip i (a + b) = skip (skip i a) b := by
  induction a generalizing i with
  | zero => simp [skip]
  | succ a ih => rw [Nat.succ_add]; exact ih (next i)

theorem skip_succ (i : Fin n) (k : Nat) : skip i (k + 1) = next (skip i k) := by
  rw [skip_add]; rfl

/-- Within one revolution, different offsets are different cells. -/
theorem skip_inj {i : Fin n} {a b : Nat} (ha : a < n) (hb : b < n) (h : skip i a = skip i b) :
    a = b := by
  have := congrArg Fin.val h
  rw [skip_val, skip_val] at this
  have hi := i.isLt
  rcases Nat.lt_or_ge (i.val + a) n with h1 | h1 <;> rcases Nat.lt_or_ge (i.val + b) n with h2 | h2
  · rw [Nat.mod_eq_of_lt h1, Nat.mod_eq_of_lt h2] at this; omega
  · rw [Nat.mod_eq_of_lt h1, Nat.mod_eq_sub_mod h2, Nat.mod_eq_of_lt (by omega)] at this; omega
  · rw [Nat.mod_eq_of_lt h2, Nat.mod_eq_sub_mod h1, Nat.mod_eq_of_lt (by omega)] at this; omega
  · rw [Nat.mod_eq_sub_mod h1, Nat.mod_eq_sub_mod h2, Nat.mod_eq_of_lt (by omega),
      Nat.mod_eq_of_lt (by omega)] at this
    omega

theorem count_lt (r : RingBuffer α n) : r.count < n := by
  unfold count
  have := r.pIn.isLt
  have := r.pOut.isLt
  split <;> simp only [Fin.le_def] at * <;> omega

/-- The write index is `count` cells on from the read index. -/
theorem skip_count (r : RingBuffer α n) : skip r.pOut r.count = r.pIn := by
  apply Fin.ext
  rw [skip_val]
  unfold count
  have hin := r.pIn.isLt
  have hout := r.pOut.isLt
  split
  · rename_i h
    rw [Fin.le_def] at h
    rw [Nat.add_sub_cancel' h, Nat.mod_eq_of_lt hin]
  · rename_i h
    rw [Fin.le_def] at h
    have : r.pOut.val + (r.pIn.val + n - r.pOut.val) = r.pIn.val + n := by omega
    rw [this, Nat.add_mod_right, Nat.mod_eq_of_lt hin]

theorem count_eq_of_skip {r : RingBuffer α n} {k : Nat} (hk : k < n) (h : skip r.pOut k = r.pIn) :
    r.count = k :=
  skip_inj r.count_lt hk (r.skip_count.trans h.symm)

theorem count_eq_zero_iff {r : RingBuffer α n} : r.count = 0 ↔ r.pOut = r.pIn := by
  constructor
  · intro h
    have := r.skip_count
    rwa [h] at this
  · intro h
    exact count_eq_of_skip r.pIn.pos h

/-! ### Windows -/

@[simp] theorem length_window (data : Fin n → α) (i : Fin n) (k : Nat) :
    (window data i k).length = k := by
  induction k generalizing i with
  | zero => rfl
  | succ k ih => simp [window, ih]

theorem window_add (data : Fin n → α) (i : Fin n) (a b : Nat) :
    window data i (a + b) = window data i a ++ window data (skip i a) b := by
  induction a generalizing i with
  | zero => simp [window, skip]
  | succ a ih => rw [Nat.succ_add]; simp [window, skip, ih]

theorem window_update {data : Fin n → α} {i j : Fin n} {x : α} {k : Nat}
    (outside : ∀ m < k, skip i m ≠ j) :
    window (Function.update data j x) i k = window data i k := by
  induction k generalizing i with
  | zero => rfl
  | succ k ih =>
      have h0 : i ≠ j := outside 0 (Nat.succ_pos k)
      simp only [window, Function.update_of_ne h0]
      rw [ih fun m hm => outside (m + 1) (Nat.succ_lt_succ hm)]

@[simp] theorem length_contents (r : RingBuffer α n) : r.contents.length = r.count :=
  length_window _ _ _

theorem contents_eq_nil_iff {r : RingBuffer α n} : r.contents = [] ↔ r.pOut = r.pIn := by
  rw [← List.length_eq_zero_iff, length_contents, count_eq_zero_iff]

/-! ### Operations as queue operations -/

theorem count_push {r : RingBuffer α n} {x : α} (room : r.count + 1 < n) :
    (r.push x).count = r.count + 1 := by
  apply count_eq_of_skip room
  change skip r.pOut (r.count + 1) = next r.pIn
  rw [skip_succ, r.skip_count]

/-- A write into a buffer with room appends to the queue. -/
theorem contents_push {r : RingBuffer α n} {x : α} (room : r.count + 1 < n) :
    (r.push x).contents = r.contents ++ [x] := by
  have hpIn : ∀ m < r.count, skip r.pOut m ≠ r.pIn := by
    intro m hm h
    have := count_eq_of_skip (hm.trans r.count_lt) h
    omega
  unfold contents
  rw [count_push room]
  change window (Function.update r.data r.pIn x) r.pOut (r.count + 1) = _
  rw [window_add, window_update hpIn, r.skip_count]
  simp [window]

theorem contents_pushAll {xs : List α} {r : RingBuffer α n} (room : r.count + xs.length < n) :
    (r.pushAll xs).contents = r.contents ++ xs := by
  induction xs generalizing r with
  | nil => simp [pushAll]
  | cons x xs ih =>
      simp only [List.length_cons] at room
      have h1 : r.count + 1 < n := by omega
      have h2 : (r.push x).count + xs.length < n := by rw [count_push h1]; omega
      calc ((r.push x).pushAll xs).contents
          = (r.push x).contents ++ xs := ih h2
        _ = r.contents ++ x :: xs := by rw [contents_push h1]; simp

theorem pushAll_pIn (r : RingBuffer α n) (xs : List α) :
    (r.pushAll xs).pIn = skip r.pIn xs.length := by
  induction xs generalizing r with
  | nil => rfl
  | cons x xs ih => exact ih (r.push x)

theorem pushAll_pOut (r : RingBuffer α n) (xs : List α) : (r.pushAll xs).pOut = r.pOut := by
  induction xs generalizing r with
  | nil => rfl
  | cons x xs ih => exact ih (r.push x)

/-- Without room, a whole revolution of unread elements is lost. -/
theorem count_pushAll (r : RingBuffer α n) (xs : List α) :
    (r.pushAll xs).count = (r.count + xs.length) % n := by
  apply count_eq_of_skip (Nat.mod_lt _ r.pIn.pos)
  rw [pushAll_pIn, pushAll_pOut, ← r.skip_count, ← skip_add]
  apply Fin.ext
  rw [skip_val, skip_val, Nat.add_mod_mod]

/-- Whatever the buffer held, nothing but old and new elements is ever unread. -/
theorem mem_contents_pushAll {r : RingBuffer α n} {xs : List α} {a : α}
    (h : a ∈ (r.pushAll xs).contents) : a ∈ r.contents ∨ a ∈ xs := by
  induction xs generalizing r with
  | nil => exact .inl h
  | cons x xs ih =>
      rcases ih h with hold | hnew
      · by_cases room : r.count + 1 < n
        · rw [contents_push room] at hold
          rcases List.mem_append.mp hold with hold | hx
          · exact .inl hold
          · exact .inr (List.mem_cons.mpr (.inl (List.mem_singleton.mp hx)))
        · have hfull : r.count + 1 = n := by
            have := r.count_lt
            omega
          have hcount : (r.push x).count = 0 := by
            have hpush := count_pushAll r [x]
            rw [List.length_singleton, hfull, Nat.mod_self] at hpush
            exact hpush
          have hnil : (r.push x).contents = [] := by
            rw [← List.length_eq_zero_iff, length_contents, hcount]
          rw [hnil] at hold
          cases hold
      · exact .inr (List.mem_cons_of_mem x hnew)

/-- Moving the read index over `k` unread elements drops them from the queue. -/
theorem contents_skip {r : RingBuffer α n} {k : Nat} (hk : k ≤ r.count) :
    ({ r with pOut := skip r.pOut k } : RingBuffer α n).contents = r.contents.drop k := by
  have hcount : ({ r with pOut := skip r.pOut k } : RingBuffer α n).count = r.count - k := by
    apply count_eq_of_skip (Nat.lt_of_le_of_lt (Nat.sub_le _ _) r.count_lt)
    change skip (skip r.pOut k) (r.count - k) = r.pIn
    rw [← skip_add, Nat.add_sub_cancel' hk, r.skip_count]
  have hsplit : r.contents =
      window r.data r.pOut k ++ window r.data (skip r.pOut k) (r.count - k) := by
    rw [← window_add, Nat.add_sub_cancel' hk]; rfl
  rw [hsplit, List.drop_left' (length_window _ _ _)]
  unfold contents
  rw [hcount]

/-- The `k` cells from the read index on are the oldest `k` unread elements. -/
theorem window_pOut {r : RingBuffer α n} {k : Nat} (hk : k ≤ r.count) :
    window r.data r.pOut k = r.contents.take k := by
  have hsplit : r.contents =
      window r.data r.pOut k ++ window r.data (skip r.pOut k) (r.count - k) := by
    rw [← window_add, Nat.add_sub_cancel' hk]; rfl
  rw [hsplit, List.take_left' (length_window _ _ _)]

/-- A non-empty buffer: the element at the read index, then the rest. -/
theorem contents_eq_cons {r : RingBuffer α n} (h : r.pOut ≠ r.pIn) :
    r.contents = r.data r.pOut :: ({ r with pOut := next r.pOut } : RingBuffer α n).contents := by
  have hpos : 1 ≤ r.count := Nat.one_le_iff_ne_zero.mpr fun h0 => h (count_eq_zero_iff.mp h0)
  have hdrop := contents_skip hpos
  have htake := window_pOut hpos
  have hone : r.contents = r.contents.take 1 ++ r.contents.drop 1 :=
    (List.take_append_drop 1 _).symm
  rw [← htake, ← hdrop] at hone
  exact hone

end RingBuffer

end WifiExpander.Theory
