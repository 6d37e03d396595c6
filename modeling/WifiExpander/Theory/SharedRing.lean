import WifiExpander.Theory.RingBuffer

/-!
A ring buffer shared by one writer and one reader, statement by statement.

Each side may be preempted after every statement. The indices are plain numbers:
between the statement that increments one and the statement that wraps it, it can
lie outside the array. An access outside the array is a step that cannot be taken.
`writerStep_spec` and `readerStep_spec` say which statements act on the ring buffer
as a whole: an element is unread from `p_in++` to `p_out++`.
-/

namespace WifiExpander.Theory

/-- The next statement of the writer's loop; `xs` is still to be written. -/
inductive WriterPc (α : Type) where
  /-- `data[p_in] = *p`, or the end of the loop -/
  | store (xs : List α)
  /-- `p_in++`, after `x` was stored -/
  | advance (x : α) (xs : List α)
  /-- `if(p_in >= n) p_in = 0` -/
  | wrap (xs : List α)
deriving DecidableEq

/-- The next statement of the reader's call. -/
inductive ReaderPc (α : Type) where
  /-- `if(p_out == p_in) return -1` -/
  | test
  /-- `*p = data[p_out]` -/
  | load
  /-- `p_out++`, with `x` in `*p` -/
  | advance (x : α)
  /-- `if(p_out >= n) p_out = 0; return 0` -/
  | wrap (x : α)

structure SharedRing (α : Type) (n : Nat) where
  data : Fin n → α
  pIn : Nat
  pOut : Nat
  writer : WriterPc α
  reader : ReaderPc α

/-- Two rings that differ in nothing that is unread. -/
structure RingBuffer.Alike {α : Type} {n : Nat} (r r' : RingBuffer α n) : Prop where
  pIn : r.pIn = r'.pIn
  pOut : r.pOut = r'.pOut
  contents : r.contents = r'.contents

namespace RingBuffer.Alike

variable {α : Type} {n : Nat} {r r' r'' : RingBuffer α n}

theorem refl (r : RingBuffer α n) : r.Alike r := ⟨rfl, rfl, rfl⟩

theorem symm (h : r.Alike r') : r'.Alike r := ⟨h.pIn.symm, h.pOut.symm, h.contents.symm⟩

theorem trans (h : r.Alike r') (h' : r'.Alike r'') : r.Alike r'' :=
  ⟨h.pIn.trans h'.pIn, h.pOut.trans h'.pOut, h.contents.trans h'.contents⟩

theorem count (h : r.Alike r') : r.count = r'.count := by
  rw [← r.length_contents, h.contents, r'.length_contents]

theorem push (h : r.Alike r') (x : α) (room : r.count + 1 < n) :
    (r.push x).Alike (r'.push x) := by
  refine ⟨congrArg RingBuffer.next h.pIn, h.pOut, ?_⟩
  rw [contents_push room, contents_push (h.count ▸ room), h.contents]

/-- They have the same element to read, and are alike after it. -/
theorem advance (h : r.Alike r') (hne : r.pOut ≠ r.pIn) :
    r.data r.pOut = r'.data r'.pOut ∧ RingBuffer.Alike { r with pOut := RingBuffer.next r.pOut }
      { r' with pOut := RingBuffer.next r'.pOut } := by
  have hne' : r'.pOut ≠ r'.pIn := by rwa [← h.pOut, ← h.pIn]
  have hcons := h.contents
  rw [contents_eq_cons hne, contents_eq_cons hne', List.cons.injEq] at hcons
  exact ⟨hcons.1, h.pIn, congrArg RingBuffer.next h.pOut, hcons.2⟩

end RingBuffer.Alike

namespace SharedRing

variable {α : Type} {n : Nat}

/-! ### Statements -/

/-- The writer is called to write `xs`. -/
def write (s : SharedRing α n) (xs : List α) : SharedRing α n := { s with writer := .store xs }

def writerStep (s : SharedRing α n) : Option (SharedRing α n) :=
  match s.writer with
  | .store [] => some s
  | .store (x :: xs) =>
      if h : s.pIn < n then
        some { s with data := Function.update s.data ⟨s.pIn, h⟩ x, writer := .advance x xs }
      else none
  | .advance _ xs => some { s with pIn := s.pIn + 1, writer := .wrap xs }
  | .wrap xs => some { s with pIn := if s.pIn ≥ n then 0 else s.pIn, writer := .store xs }

/-- The reader's next statement; the first component is what the call returns, if
it does. -/
def readerStep (s : SharedRing α n) : Option (Option (Option α) × SharedRing α n) :=
  match s.reader with
  | .test =>
      if s.pOut = s.pIn then some (some none, s) else some (none, { s with reader := .load })
  | .load =>
      if h : s.pOut < n then some (none, { s with reader := .advance (s.data ⟨s.pOut, h⟩) })
      else none
  | .advance x => some (none, { s with pOut := s.pOut + 1, reader := .wrap x })
  | .wrap x =>
      some (some (some x), { s with pOut := if s.pOut ≥ n then 0 else s.pOut, reader := .test })

/-! ### What is where -/

/-- What the writer still has to make visible. -/
def todo (s : SharedRing α n) : List α :=
  match s.writer with
  | .store xs | .wrap xs => xs
  | .advance x xs => x :: xs

/-- What the next statement of the writer makes visible. -/
def surfacing (s : SharedRing α n) : List α :=
  match s.writer with
  | .advance x _ => [x]
  | _ => []

/-- Where an index is heading. -/
def wrapped (hn : 0 < n) (p : Nat) : Fin n := ⟨p % n, Nat.mod_lt p hn⟩

/-- The ring buffer whose indices are wrapped at once. -/
def ring (hn : 0 < n) (s : SharedRing α n) : RingBuffer α n :=
  ⟨s.data, wrapped hn s.pIn, wrapped hn s.pOut⟩

/-- The reader's statement does not see an index that is about to be wrapped. -/
def Untorn (s : SharedRing α n) : Prop :=
  match s.reader with
  | .test => s.pIn < n
  | _ => True

instance (s : SharedRing α n) : Decidable s.Untorn := by
  unfold Untorn
  split <;> infer_instance

/-- What holds between any two statements. -/
structure Coherent (hn : 0 < n) (s : SharedRing α n) : Prop where
  writer : match s.writer with
    | .store _ => s.pIn < n
    | .advance x _ => s.pIn < n ∧ s.data (wrapped hn s.pIn) = x
    | .wrap _ => s.pIn ≤ n
  reader : match s.reader with
    | .test => s.pOut < n
    | .load => s.pOut < n ∧ (s.ring hn).contents ≠ []
    | .advance x => s.pOut < n ∧ (s.ring hn).contents.head? = some x
    | .wrap _ => s.pOut ≤ n
  room : (s.ring hn).count + s.todo.length < n

variable {hn : 0 < n} {s : SharedRing α n}

theorem wrapped_of_lt (hn : 0 < n) {p : Nat} (h : p < n) : wrapped hn p = ⟨p, h⟩ := by
  apply Fin.ext
  exact Nat.mod_eq_of_lt h

theorem wrapped_succ (hn : 0 < n) {p : Nat} (h : p < n) :
    wrapped hn (p + 1) = RingBuffer.next (wrapped hn p) := by
  apply Fin.ext
  rw [RingBuffer.next_val, wrapped_of_lt hn h]
  change (p + 1) % n = if p + 1 < n then p + 1 else 0
  split
  · rename_i hlt
    exact Nat.mod_eq_of_lt hlt
  · obtain rfl : p + 1 = n := by omega
    exact Nat.mod_self _

/-- The wrap changes nothing for the ring. -/
theorem wrapped_wrap (hn : 0 < n) {p : Nat} (h : p ≤ n) :
    wrapped hn (if p ≥ n then 0 else p) = wrapped hn p := by
  split
  · obtain rfl : p = n := by omega
    apply Fin.ext
    change 0 % p = p % p
    rw [Nat.mod_self, Nat.zero_mod]
  · rfl

/-! ### The writer -/

/-- What the reader has found out stays true while the writer appends. -/
theorem Coherent.reader_append (h : s.Coherent hn) {s' : SharedRing α n} (ys : List α)
    (hreader : s'.reader = s.reader) (hpOut : s'.pOut = s.pOut)
    (hcontents : (s'.ring hn).contents = (s.ring hn).contents ++ ys) :
    match s'.reader with
    | .test => s'.pOut < n
    | .load => s'.pOut < n ∧ (s'.ring hn).contents ≠ []
    | .advance x => s'.pOut < n ∧ (s'.ring hn).contents.head? = some x
    | .wrap _ => s'.pOut ≤ n := by
  have hold := h.reader
  rw [hreader, hpOut, hcontents]
  cases hr : s.reader with
  | test | wrap x => simpa only [hr] using hold
  | load =>
      simp only [hr] at hold
      exact ⟨hold.1, by simp [hold.2]⟩
  | advance x =>
      simp only [hr] at hold
      refine ⟨hold.1, ?_⟩
      rw [List.head?_append, hold.2]
      rfl

/-- A write to the cell at the write index is not seen yet. -/
theorem contents_store (hn : 0 < n) (h : s.pIn < n) (x : α) (w : WriterPc α) :
    (ring hn { s with data := Function.update s.data ⟨s.pIn, h⟩ x, writer := w }).contents =
      (s.ring hn).contents := by
  have houtside : ∀ m < (s.ring hn).count,
      RingBuffer.skip (wrapped hn s.pOut) m ≠ (⟨s.pIn, h⟩ : Fin n) := by
    intro m hm heq
    have hcount := RingBuffer.count_eq_of_skip (r := s.ring hn) (hm.trans (RingBuffer.count_lt _))
      (heq.trans (wrapped_of_lt hn h).symm)
    exact absurd hcount (Nat.ne_of_gt hm)
  exact RingBuffer.window_update houtside

/-- What a statement of the writer does. -/
inductive Writes (hn : 0 < n) (s : SharedRing α n) : SharedRing α n → Prop where
  | quiet {s' : SharedRing α n} : s.surfacing = [] → s'.todo = s.todo →
      (s'.ring hn).Alike (s.ring hn) → Writes hn s s'
  | makes {s' : SharedRing α n} {x : α} : s.surfacing = [x] → s.todo = x :: s'.todo →
      (s.ring hn).count + 1 < n → s'.ring hn = (s.ring hn).push x → Writes hn s s'

/-- **One statement of the writer** pushes an element, or changes nothing that is
unread. -/
theorem Coherent.writerStep_spec (h : s.Coherent hn) : ∃ s', s.writerStep = some s' ∧
    s'.Coherent hn ∧ s'.reader = s.reader ∧ s.Writes hn s' := by
  have hwriter := h.writer
  have hroom := h.room
  unfold writerStep
  unfold todo at hroom
  cases hw : s.writer with
  | store xs =>
      simp only [hw] at hwriter hroom
      cases xs with
      | nil => exact ⟨s, rfl, h, rfl, .quiet (by rw [surfacing, hw]) rfl (.refl _)⟩
      | cons x xs =>
          have hcontents := contents_store hn hwriter x (.advance x xs)
          refine ⟨_, dif_pos hwriter, ⟨⟨hwriter, ?_⟩, h.reader_append [] rfl rfl
            (hcontents.trans (List.append_nil _).symm), hroom⟩, rfl,
            .quiet (by rw [surfacing, hw]) ?_ ⟨rfl, rfl, hcontents⟩⟩
          · rw [wrapped_of_lt hn hwriter]
            exact Function.update_self _ _ _
          · rw [todo, todo, hw]
  | advance x xs =>
      simp only [hw, List.length_cons] at hwriter hroom
      have hpush : ring hn { s with pIn := s.pIn + 1, writer := .wrap xs } =
          (s.ring hn).push x := by
        have hdata : Function.update s.data (wrapped hn s.pIn) x = s.data := by
          rw [← hwriter.2, Function.update_eq_self]
        simp only [ring, RingBuffer.push, hdata, wrapped_succ hn hwriter.1]
      have hone : (s.ring hn).count + 1 < n := by omega
      refine ⟨_, rfl, ⟨hwriter.1, h.reader_append [x] rfl rfl ?_, ?_⟩, rfl,
        .makes (by rw [surfacing, hw]) ?_ hone hpush⟩
      · rw [hpush]
        exact RingBuffer.contents_push hone
      · rw [hpush, RingBuffer.count_push hone]
        change _ + 1 + xs.length < n
        omega
      · rw [todo, todo, hw]
  | wrap xs =>
      simp only [hw] at hwriter hroom
      have hring : ring hn { s with
          pIn := if s.pIn ≥ n then 0 else s.pIn, writer := .store xs } = s.ring hn := by
        simp only [ring, wrapped_wrap hn hwriter]
      refine ⟨_, rfl, ⟨?_, h.reader_append [] rfl rfl ?_, ?_⟩, rfl,
        .quiet (by rw [surfacing, hw]) ?_ ?_⟩
      · change (if s.pIn ≥ n then 0 else s.pIn) < n
        split <;> omega
      · rw [hring, List.append_nil]
      · rw [hring]
        exact hroom
      · rw [todo, todo, hw]
      · rw [hring]
        exact .refl _

/-- A call of the writer with as many elements as there is room for. -/
theorem Coherent.write (h : s.Coherent hn) {xs : List α} (hdone : s.writer = .store [])
    (hroom : (s.ring hn).count + xs.length < n) : (s.write xs).Coherent hn := by
  have hwriter := h.writer
  rw [hdone] at hwriter
  exact ⟨hwriter, h.reader, hroom⟩

/-! ### The reader -/

/-- What a statement of the reader does, and what the call returns, if it does. -/
inductive Reads (hn : 0 < n) (s : SharedRing α n) : Option (Option α) → SharedRing α n → Prop where
  | empty : s.reader = .test → (s.ring hn).contents = [] → Reads hn s (some none) s
  | quiet {s' : SharedRing α n} : (∀ x, s.reader ≠ .wrap x) → (∀ x, s'.reader ≠ .wrap x) →
      s'.ring hn = s.ring hn → Reads hn s none s'
  | takes {s' : SharedRing α n} {x : α} : s.reader = .advance x → s'.reader = .wrap x →
      (s.ring hn).contents = x :: (s'.ring hn).contents →
      s'.ring hn = { s.ring hn with pOut := RingBuffer.next (s.ring hn).pOut } → Reads hn s none s'
  | returns {s' : SharedRing α n} {x : α} : s.reader = .wrap x → s'.reader = .test →
      s'.ring hn = s.ring hn → Reads hn s (some (some x)) s'

/-- **One statement of the reader** takes the oldest unread element, returns what
was taken, or changes nothing; the call returns without an element only where none
is unread. -/
theorem Coherent.readerStep_spec (h : s.Coherent hn) (huntorn : s.Untorn) :
    ∃ res s', s.readerStep = some (res, s') ∧ s'.Coherent hn ∧ s'.writer = s.writer ∧
      s.Reads hn res s' := by
  have hreader := h.reader
  unfold readerStep
  unfold Untorn at huntorn
  cases hr : s.reader with
  | test =>
      simp only [hr] at hreader huntorn
      by_cases heq : s.pOut = s.pIn
      · have hnil : (s.ring hn).contents = [] :=
          RingBuffer.contents_eq_nil_iff.mpr (by simp only [ring, heq])
        exact ⟨some none, s, if_pos heq, h, rfl, .empty hr hnil⟩
      · refine ⟨none, _, if_neg heq, ⟨h.writer, ⟨hreader, ?_⟩, h.room⟩, rfl,
          .quiet (by simp [hr]) (by simp) rfl⟩
        intro hnil
        have hindex := RingBuffer.contents_eq_nil_iff.mp hnil
        change wrapped hn s.pOut = wrapped hn s.pIn at hindex
        rw [wrapped_of_lt hn hreader, wrapped_of_lt hn huntorn] at hindex
        exact heq (congrArg Fin.val hindex)
  | load =>
      simp only [hr] at hreader
      refine ⟨none, _, dif_pos hreader.1, ⟨h.writer, ⟨hreader.1, ?_⟩, h.room⟩, rfl,
        .quiet (by simp [hr]) (by simp) rfl⟩
      have hne : (s.ring hn).pOut ≠ (s.ring hn).pIn := fun heq =>
        hreader.2 (RingBuffer.contents_eq_nil_iff.mpr heq)
      have hcell : (s.ring hn).data (s.ring hn).pOut = s.data ⟨s.pOut, hreader.1⟩ :=
        congrArg s.data (wrapped_of_lt hn hreader.1)
      change (s.ring hn).contents.head? = _
      exact (congrArg List.head? (RingBuffer.contents_eq_cons hne)).trans (congrArg some hcell)
  | advance x =>
      simp only [hr] at hreader
      have hne : (s.ring hn).pOut ≠ (s.ring hn).pIn := by
        intro heq
        rw [RingBuffer.contents_eq_nil_iff.mpr heq] at hreader
        simp at hreader
      have hcons := RingBuffer.contents_eq_cons hne
      have hx : (s.ring hn).data (s.ring hn).pOut = x := by
        have hhead := hreader.2
        rw [hcons, List.head?_cons] at hhead
        exact Option.some.inj hhead
      have hring : ring hn { s with pOut := s.pOut + 1, reader := .wrap x } =
          { s.ring hn with pOut := RingBuffer.next (s.ring hn).pOut } := by
        simp only [ring, wrapped_succ hn hreader.1]
      rw [hx, ← hring] at hcons
      refine ⟨none, _, rfl, ⟨h.writer, hreader.1, ?_⟩, rfl, .takes hr rfl hcons hring⟩
      have hcount := congrArg List.length hcons
      have hroom := h.room
      simp only [List.length_cons, RingBuffer.length_contents] at hcount
      change (ring hn { s with pOut := s.pOut + 1, reader := .wrap x }).count + s.todo.length < n
      omega
  | wrap x =>
      simp only [hr] at hreader
      have hring : ring hn { s with
          pOut := if s.pOut ≥ n then 0 else s.pOut, reader := .test } = s.ring hn := by
        simp only [ring, wrapped_wrap hn hreader]
      refine ⟨some (some x), _, rfl, ⟨h.writer, ?_, ?_⟩, rfl, .returns hr rfl hring⟩
      · change (if s.pOut ≥ n then 0 else s.pOut) < n
        split <;> omega
      · rw [hring]
        exact h.room

end SharedRing

end WifiExpander.Theory
