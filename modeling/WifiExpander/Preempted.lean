import WifiExpander.Theory.SharedRing
import WifiExpander.Framing

/-!
Does it matter where the reader is interrupted?

`uart_recv` runs in the interrupt handler and `uart_get_data` in a task; neither
takes a lock. Here both advance by single statements, and so do the BLE twins. As
long as the reader does not look at `p_in` between its increment and its wrap, which
it cannot while an interrupt handler runs to its end, every interleaving does what
one of whole writes and whole reads does.
-/

namespace WifiExpander

open WifiExpander.Theory

/-- A byte ring between its two users, the parser's static variables and what has
passed through; the last three fields are history. -/
structure SharedStream where
  shared : SharedRing UInt8 ringSize
  buf : Mem
  proctolStart : Bool
  recvLen : Nat
  dataLen : UInt32
  /-- the arguments of `uart_recv` -/
  passed : List UInt8
  /-- what `p_in` has moved over -/
  arrived : List UInt8
  /-- the frames in the buffer at the calls that returned true -/
  returned : List (List UInt8)

inductive SharedEvent where
  /-- `uart_recv` is called -/
  | recv (bs : List UInt8)
  /-- its next statement -/
  | writer
  /-- the next statement of `app_uart_get`; with its last one the rest of the loop
  body of `uart_get_data`, which touches nothing that is shared -/
  | reader

namespace SharedStream

/-- The ring with its parser. -/
def receiver (s : SharedStream) : Receiver :=
  ⟨s.shared.ring ringSize_pos, s.buf, s.proctolStart, s.recvLen, s.dataLen⟩

def step (header : UInt8) (s : SharedStream) : SharedEvent → Option SharedStream
  | .recv bs => some { s with shared := s.shared.write bs, passed := s.passed ++ bs }
  | .writer => do
      let shared ← s.shared.writerStep
      some { s with shared, arrived := s.arrived ++ s.shared.surfacing }
  | .reader => do
      let (res, shared) ← s.shared.readerStep
      let s := { s with shared }
      match res with
      | some (some ch) =>
          let out := recvByte header s.receiver ch
          some { s with
            buf := out.2.buf
            proctolStart := out.2.proctolStart
            recvLen := out.2.recvLen
            dataLen := out.2.dataLen
            returned := s.returned ++ Stream.returnedBy out }
      | _ => some s

def machine (header : UInt8) : Machine SharedStream SharedEvent := ⟨step header⟩

def start (buf : Mem) : SharedStream :=
  ⟨⟨fun _ => 0, 0, 0, .store [], .test⟩, buf, false, 0, 0, [], [], []⟩

/-- `uart_recv` is called when the last call of it has returned, and with no more
bytes than there is room for. -/
def Allowed (s : SharedStream) : SharedEvent → Prop
  | .recv bs => s.shared.writer = .store [] ∧
      (s.shared.ring ringSize_pos).count + bs.length ≤ 1023
  | .writer => True
  | .reader => s.shared.Untorn

instance (s : SharedStream) : ∀ e, Decidable (s.Allowed e)
  | .recv _ => inferInstanceAs (Decidable (_ ∧ _))
  | .writer => isTrue trivial
  | .reader => inferInstanceAs (Decidable s.shared.Untorn)

/-! ### Whole reads and writes -/

/-- What the loop body still does with the byte that `app_uart_get` is about to return. -/
def outcome (header : UInt8) (s : SharedStream) : Option Bool × Receiver :=
  match s.shared.reader with
  | .wrap ch => recvByte header s.receiver ch
  | _ => (none, s.receiver)

/-- The stream `a` of whole reads and writes has come as far as `s`. -/
structure Follows (header : UInt8) (s : SharedStream) (a : Stream) : Prop where
  coherent : s.shared.Coherent ringSize_pos
  passed : s.passed = s.arrived ++ s.shared.todo
  ring : a.recv.ring.Alike (s.shared.ring ringSize_pos)
  parser : { a.recv with ring := s.shared.ring ringSize_pos } = (s.outcome header).2
  arrived : a.arrived = s.arrived
  returned : a.returned = s.returned ++ Stream.returnedBy (s.outcome header)

end SharedStream

/-! ### One statement -/

variable {h : UInt8}

/-- The parser does not look at the ring. -/
theorem recvByte_withRing (r : Receiver) (ring : ByteRing) (ch : UInt8) :
    recvByte h { r with ring } ch =
      ((recvByte h r ch).1, { (recvByte h r ch).2 with ring }) := by
  unfold recvByte
  dsimp only
  split_ifs <;> rfl

namespace SharedStream

variable {s : SharedStream} {a : Stream}

/-- A call of `uart_recv`. -/
theorem Follows.recv (hf : s.Follows h a) {bs : List UInt8} (hok : s.Allowed (.recv bs)) :
    ∃ s', s.step h (.recv bs) = some s' ∧ s'.Follows h a := by
  obtain ⟨hdone, hroom⟩ := hok
  have htodo : s.shared.todo = [] := by rw [SharedRing.todo, hdone]
  refine ⟨_, rfl, hf.coherent.write hdone (Nat.lt_succ_of_le hroom), ?_, hf.ring, hf.parser,
    hf.arrived, hf.returned⟩
  change s.passed ++ bs = s.arrived ++ bs
  rw [hf.passed, htodo, List.append_nil]

/-- Nothing but the ring changes, and the reader stays where it is. -/
theorem outcome_shared {shared : SharedRing UInt8 ringSize} {arrived : List UInt8}
    (hreader : shared.reader = s.shared.reader) :
    outcome h { s with shared, arrived } = ((s.outcome h).1,
      { (s.outcome h).2 with ring := shared.ring ringSize_pos }) := by
  unfold outcome
  simp only [hreader]
  split
  · exact recvByte_withRing s.receiver (shared.ring ringSize_pos) _
  · rfl

/-- The same for what `a` says of it. -/
theorem Follows.parser_shared (hf : s.Follows h a) (arrived : List UInt8)
    {shared : SharedRing UInt8 ringSize} (hreader : shared.reader = s.shared.reader) :
    { a.recv with ring := shared.ring ringSize_pos } =
        (outcome h { s with shared, arrived }).2 ∧
      a.returned = s.returned ++ Stream.returnedBy (outcome h { s with shared, arrived }) := by
  rw [outcome_shared hreader]
  refine ⟨?_, hf.returned⟩
  rw [← hf.parser]

/-- **A statement of the writer** is nothing, or the arrival of a byte. -/
theorem Follows.writer (hf : s.Follows h a) : ∃ s' a', s.step h .writer = some s' ∧
    Relation.ReflTransGen ((Stream.machine h).Steps fun a e => a.Room e) a a' ∧
      s'.Follows h a' := by
  obtain ⟨shared, hstep, hcoherent, hreader, hwrites⟩ := hf.coherent.writerStep_spec
  have hrun : s.step h .writer =
      some { s with shared, arrived := s.arrived ++ s.shared.surfacing } := by
    simp only [step, hstep, Option.bind_eq_bind, Option.bind_some]
  obtain ⟨hparser, hreturned⟩ :=
    hf.parser_shared (s.arrived ++ s.shared.surfacing) hreader
  cases hwrites with
  | quiet hnone htodo halike =>
      refine ⟨_, a, hrun, .refl, hcoherent, ?_, hf.ring.trans halike.symm, hparser, ?_, hreturned⟩
      · change s.passed = (s.arrived ++ s.shared.surfacing) ++ shared.todo
        rw [hnone, htodo, List.append_nil]
        exact hf.passed
      · change a.arrived = s.arrived ++ s.shared.surfacing
        rw [hnone, List.append_nil]
        exact hf.arrived
  | @makes x hone htodo hroom hpush =>
      have hcount := hf.ring.count
      have harrive : (Stream.machine h).Steps (fun a e => a.Room e) a
          { a with
            recv := { a.recv with ring := a.recv.ring.push x }
            arrived := a.arrived ++ [x] } :=
        ⟨.arrive [x], Nat.le_of_lt_succ (hcount ▸ hroom), rfl⟩
      refine ⟨_, _, hrun, .single harrive, hcoherent, ?_, ?_, hparser, ?_, hreturned⟩
      · change s.passed = (s.arrived ++ s.shared.surfacing) ++ shared.todo
        rw [hf.passed, hone, htodo, List.append_assoc]
        rfl
      · change (a.recv.ring.push x).Alike (shared.ring ringSize_pos)
        rw [hpush]
        exact hf.ring.push x (hcount ▸ hroom)
      · change a.arrived ++ [x] = s.arrived ++ s.shared.surfacing
        rw [hone, hf.arrived]

/-- **A statement of the reader** is nothing, or an iteration. -/
theorem Follows.reader (hf : s.Follows h a) (huntorn : s.shared.Untorn) :
    ∃ s' a', s.step h .reader = some s' ∧
      Relation.ReflTransGen ((Stream.machine h).Steps fun a e => a.Room e) a a' ∧
        s'.Follows h a' := by
  obtain ⟨res, shared, hstep, hcoherent, hwriter, hreads⟩ := hf.coherent.readerStep_spec huntorn
  have hpassed : s.passed = s.arrived ++ shared.todo := by
    rw [SharedRing.todo, hwriter]
    exact hf.passed
  have hparser := hf.parser
  have hreturned := hf.returned
  unfold outcome at hparser hreturned
  cases hreads with
  | empty hreader hempty =>
      refine ⟨s, a, ?_, .refl, hf⟩
      simp only [step, hstep, Option.bind_eq_bind, Option.bind_some]
  | quiet hbefore hafter hring =>
      have hsame : outcome h { s with shared } = (none, s.receiver) ∧
          s.outcome h = (none, s.receiver) := by
        unfold outcome receiver
        constructor
        · split
          · exact absurd ‹_› (hafter _)
          · simp only [hring]
        · split
          · exact absurd ‹_› (hbefore _)
          · rfl
      refine ⟨{ s with shared }, a, ?_, .refl, hcoherent, hpassed, hring ▸ hf.ring, ?_, hf.arrived,
        ?_⟩
      · simp only [step, hstep, Option.bind_eq_bind, Option.bind_some]
      · rw [hsame.1, ← hsame.2, ← hf.parser]
        change { a.recv with ring := shared.ring ringSize_pos } = _
        rw [hring]
      · rw [hsame.1, ← hsame.2]
        exact hf.returned
  | @takes _ x hbefore hafter hcons hring =>
      simp only [hbefore] at hparser hreturned
      have hne : (s.shared.ring ringSize_pos).pOut ≠ (s.shared.ring ringSize_pos).pIn := by
        intro heq
        rw [RingBuffer.contents_eq_nil_iff.mpr heq] at hcons
        cases hcons
      have hx : (s.shared.ring ringSize_pos).data (s.shared.ring ringSize_pos).pOut = x := by
        rw [RingBuffer.contents_eq_cons hne, List.cons.injEq] at hcons
        exact hcons.1
      obtain ⟨hdata, halike⟩ := hf.ring.symm.advance hne
      have hne' : a.recv.ring.pOut ≠ a.recv.ring.pIn := by
        rwa [hf.ring.pOut, hf.ring.pIn]
      set after : ByteRing := { a.recv.ring with pOut := RingBuffer.next a.recv.ring.pOut }
      have hget : appGet a.recv.ring = some (x, after) := by
        rw [appGet, if_neg hne', ← hdata, hx]
      have hiter : getIter h a.recv = recvByte h { s.receiver with ring := after } x := by
        rw [← hparser]
        simp only [getIter, hget]
      have hout : outcome h { s with shared } =
          recvByte h { s.receiver with ring := shared.ring ringSize_pos } x := by
        unfold outcome
        simp only [hafter]
        rfl
      rw [recvByte_withRing] at hiter hout
      refine ⟨{ s with shared }, ⟨(getIter h a.recv).2, a.arrived,
        a.returned ++ Stream.returnedBy (getIter h a.recv)⟩, ?_, .single ⟨.iter, trivial, rfl⟩,
        hcoherent, hpassed, ?_, ?_, hf.arrived, ?_⟩
      · simp only [step, hstep, Option.bind_eq_bind, Option.bind_some]
      · rw [hiter, hring]
        exact halike.symm
      · rw [hiter, hout]
      · rw [hiter, hout, hreturned]
        simp [Stream.returnedBy]
  | @returns _ x hbefore hafter hring =>
      simp only [hbefore] at hparser hreturned
      set out := recvByte h s.receiver x with hout
      have hkeep : out.2.ring = s.shared.ring ringSize_pos := recvByte_ring s.receiver x
      have hsame : recvByte h { s.receiver with ring := shared.ring ringSize_pos } x = out := by
        rw [recvByte_withRing, hring, ← hout, ← hkeep]
      refine ⟨{ s with
        shared
        buf := out.2.buf
        proctolStart := out.2.proctolStart
        recvLen := out.2.recvLen
        dataLen := out.2.dataLen
        returned := s.returned ++ Stream.returnedBy out }, a, ?_, .refl, hcoherent, hpassed,
        hring ▸ hf.ring, ?_, hf.arrived, ?_⟩
      · simp only [step, hstep, Option.bind_eq_bind, Option.bind_some, receiver]
        rw [show (⟨shared.ring ringSize_pos, s.buf, s.proctolStart, s.recvLen, s.dataLen⟩ :
          Receiver) = { s.receiver with ring := shared.ring ringSize_pos } from rfl, hsame]
      · simp only [outcome, hafter, receiver, hring]
        rw [hparser, ← hkeep]
      · simp only [outcome, hafter]
        rw [hreturned]
        simp [Stream.returnedBy]

theorem follows_start (buf : Mem) : (start buf).Follows h (Stream.start buf) :=
  ⟨⟨ringSize_pos, ringSize_pos, RingBuffer.count_lt ((start buf).shared.ring ringSize_pos)⟩, rfl,
    .refl _, rfl, rfl, rfl⟩

end SharedStream

theorem Stream.reads_start (buf : Mem) : (Stream.start buf).Reads h := by
  have hring : (Stream.start buf).recv.ring.contents = [] :=
    RingBuffer.contents_eq_nil_iff.mpr rfl
  refine ⟨[], by rw [hring]; rfl, by simp [Stream.start, frames], ?_⟩
  simpa [pending] using Tracks.idle rfl rfl

/-- **Preemption does not matter**: whatever the order of the statements, each can be
executed, and the frames returned are those of some order of whole reads and writes
of the same bytes, which follow the grammar. -/
theorem preempted_refines (header : UInt8) (buf : Mem) (es : List SharedEvent)
    (guarded : (SharedStream.machine header).Guarded (fun s e => s.Allowed e)
      (SharedStream.start buf) es) :
    ∃ s a es', (SharedStream.machine header).run (SharedStream.start buf) es = some s ∧
      (Stream.machine header).Guarded (fun a e => a.Room e) (Stream.start buf) es' ∧
      (Stream.machine header).run (Stream.start buf) es' = some a ∧ s.Follows header a ∧
      a.Framed header := by
  obtain ⟨s, a, es', hrun, hguarded, hrun', hf⟩ := Machine.run_simulates
    (M := SharedStream.machine header) (N := Stream.machine header)
    (fun a e => a.Room e) (SharedStream.Follows header) (by
      intro s e a hf hok
      cases e with
      | recv bs =>
          obtain ⟨s', hstep, hf'⟩ := hf.recv hok
          exact ⟨s', a, hstep, .refl, hf'⟩
      | writer => exact hf.writer
      | reader => exact hf.reader hok)
    (SharedStream.follows_start buf) guarded
  obtain ⟨a', hrun'', hreads⟩ := Machine.run_progress (M := Stream.machine header)
    (fun a => a.Reads header) (fun _ _ ha hroom => ha.step hroom) (Stream.reads_start buf) hguarded
  obtain rfl : a' = a := Option.some.inj (hrun''.symm.trans hrun')
  exact ⟨s, a', es', hrun, hguarded, hrun', hf, hreads.framed⟩

/-- The handler comes four times between two statements of the reader, which puts the
frame together meanwhile. -/
def interrupted : List SharedEvent :=
  [.reader, .recv [0xC0, 0], .writer, .writer, .writer, .reader, .writer, .writer, .writer, .reader,
    .recv [0, 9], .reader, .writer, .writer, .writer, .reader, .reader, .reader, .reader, .writer,
    .writer, .writer] ++ List.replicate 9 .reader

theorem preempted_refines_interrupted :
    ∃ s a es', (SharedStream.machine wifiampAppHeader).run (SharedStream.start fun _ => 0)
        interrupted = some s ∧ s.returned = [[0xC0, 0, 0, 9]] ∧
      (Stream.machine wifiampAppHeader).Guarded (fun a e => a.Room e) (Stream.start fun _ => 0)
        es' ∧
      (Stream.machine wifiampAppHeader).run (Stream.start fun _ => 0) es' = some a ∧
      s.Follows wifiampAppHeader a ∧ a.Framed wifiampAppHeader := by
  obtain ⟨s, a, es', hrun, hrest⟩ :=
    preempted_refines wifiampAppHeader (fun _ => 0) interrupted (by decide +kernel)
  have hframe : ((SharedStream.machine wifiampAppHeader).run (SharedStream.start fun _ => 0)
      interrupted).any (fun s => s.returned == [[0xC0, 0, 0, 9]]) = true := by decide +kernel
  rw [hrun] at hframe
  exact ⟨s, a, es', hrun, by simpa using hframe, hrest⟩

end WifiExpander
