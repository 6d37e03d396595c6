import WifiExpander.Theory.Machine
import WifiExpander.Receiver

/-!
Does the framing automaton accept its grammar?

`uart_get_data` and `ble_get_data` read their ring byte by byte, and bytes come in
while they do. `Stream.step` interleaves arrivals with iterations of the loop, so
a call may be overtaken after any byte. Whatever the order, the frames with which
calls return true are those that `scan` cuts from the bytes read so far, and the
parser's variables stay in bounds.
-/

namespace WifiExpander

open WifiExpander.Theory

/-! ### Iterations -/

/-- One iteration of the loop of `uart_get_data` and `ble_get_data`; `some b` is
`return b`, also at the end of the loop. -/
def getIter (header : UInt8) (r : Receiver) : Option Bool × Receiver :=
  match appGet r.ring with
  | none => (some false, r)
  | some (ch, ring) => recvByte header { r with ring } ch

/-- A byte ring, its parser and what has passed through; the last two fields are
history. -/
structure Stream where
  recv : Receiver
  arrived : List UInt8
  /-- the frames in the buffer at the calls that returned true -/
  returned : List (List UInt8)

inductive StreamEvent where
  /-- bytes are put into the ring -/
  | arrive (bs : List UInt8)
  /-- an iteration of the loop, at the start of a call or within it -/
  | iter

namespace Stream

/-- The history after an iteration. -/
def returnedBy (res : Option Bool × Receiver) : List (List UInt8) :=
  if res.1 = some true then [frameBytes res.2.buf] else []

def step (header : UInt8) (s : Stream) : StreamEvent → Option Stream
  | .arrive bs =>
      some { s with
        recv := { s.recv with ring := s.recv.ring.pushAll bs }
        arrived := s.arrived ++ bs }
  | .iter =>
      let res := getIter header s.recv
      some { s with recv := res.2, returned := s.returned ++ returnedBy res }

def machine (header : UInt8) : Machine Stream StreamEvent := ⟨step header⟩

/-- The parser before its first byte; the buffer holds anything. -/
def start (buf : Mem) : Stream :=
  ⟨⟨⟨fun _ => 0, ⟨0, ringSize_pos⟩, ⟨0, ringSize_pos⟩⟩, buf, false, 0, 0⟩, [], []⟩

/-- The ring takes no more than 1023 unread bytes. -/
def Room (s : Stream) : StreamEvent → Prop
  | .arrive bs => s.recv.ring.count + bs.length ≤ 1023
  | .iter => True

instance (s : Stream) : ∀ e, Decidable (s.Room e)
  | .arrive _ => inferInstanceAs (Decidable (_ ≤ _))
  | .iter => isTrue trivial

/-- The automaton follows the grammar, within its buffer. -/
structure Framed (header : UInt8) (s : Stream) : Prop where
  parsed : ∃ bs, s.arrived = bs ++ s.recv.ring.contents ∧ s.returned = frames header bs
  whole : s.recv.ring.contents = [] → s.returned = frames header s.arrived
  /-- also after `recv_len++` for the next byte -/
  bounded : s.recv.recvLen + 1 ≤ 403 ∧ 403 < sizeofUartCmdFormat
  idle : s.recv.proctolStart = false ↔ s.recv.recvLen = 0
  remaining : 3 ≤ s.recv.recvLen →
    s.recv.recvLen + s.recv.dataLen.toNat = hdrLength s.recv.buf + 4

end Stream

/-! ### An iteration -/

variable {h : UInt8} {r : Receiver} {p : List UInt8}

/-- The parser does not look at the ring. -/
theorem Tracks.withRing (hr : Tracks h r p) (ring : ByteRing) : Tracks h { r with ring } p :=
  ⟨hr.unfinished, hr.recvLen, hr.buf, hr.start, hr.dataLen⟩

/-- **One iteration**: it reads the bytes `c`, at most one, and the frame they
complete is the one it returns with. -/
theorem getIter_spec (hr : Tracks h r p) : ∃ c,
    r.ring.contents = c ++ (getIter h r).2.ring.contents ∧
      (scan h (p ++ c)).1 = Stream.returnedBy (getIter h r) ∧
      Tracks h (getIter h r).2 (scan h (p ++ c)).2 := by
  have hself : scan h p = ([], p) := hr.unfinished.scan
  unfold getIter
  cases hget : appGet r.ring with
  | none =>
      refine ⟨[], rfl, ?_, ?_⟩
      · rw [List.append_nil, hself]
        rfl
      · rw [List.append_nil, hself]
        exact hr
  | some res =>
      obtain ⟨ch, ring⟩ := res
      have hcontents := appGet_some hget
      have hbyte := recvByte_spec (hr.withRing ring) ch
      have hring := recvByte_ring (h := h) { r with ring } ch
      dsimp only
      generalize recvByte h { r with ring } ch = out at hbyte hring
      refine ⟨[ch], by rw [hring]; exact hcontents, ?_⟩
      cases hbyte with
      | more hnone htr => exact ⟨hnone, htr⟩
      | dropped hscan htr =>
          rw [hscan]
          exact ⟨rfl, htr⟩
      | frame hscan htr hbuf =>
          rw [hscan, Stream.returnedBy, if_pos rfl, hbuf]
          exact ⟨rfl, htr⟩

/-- An iteration that does not return has read a byte. -/
theorem ne_nil_of_getIter {c : List UInt8}
    (hread : r.ring.contents = c ++ (getIter h r).2.ring.contents)
    (hnone : (getIter h r).1 = none) : c ≠ [] := by
  rintro rfl
  rw [List.nil_append] at hread
  unfold getIter at hread hnone
  cases hget : appGet r.ring with
  | none => simp [hget] at hnone
  | some res =>
      obtain ⟨ch, ring⟩ := res
      have hcontents := appGet_some hget
      simp only [hget, recvByte_ring] at hread
      rw [hread] at hcontents
      simpa using congrArg List.length hcontents

/-- A call is its first iteration and, unless that returns, the rest of the loop. -/
theorem getDataLoop_succ (fuel : Nat) (r : Receiver) :
    getDataLoop h (fuel + 1) r =
      match getIter h r with
      | (none, r') => getDataLoop h fuel r'
      | (some b, r') => (b, r') := by
  rw [getDataLoop, getIter]
  cases appGet r.ring with
  | none => rfl
  | some res => rfl

namespace Stream

theorem getDataLoop_run {fuel : Nat} (s : Stream) (hr : Tracks h s.recv p)
    (hfuel : s.recv.ring.count < fuel) : ∃ n, (machine h).run s (List.replicate n .iter) =
      some ⟨(getDataLoop h fuel s.recv).2, s.arrived,
        s.returned ++ if (getDataLoop h fuel s.recv).1 then
          [frameBytes (getDataLoop h fuel s.recv).2.buf] else []⟩ := by
  induction fuel generalizing s p with
  | zero => exact absurd hfuel (Nat.not_lt_zero _)
  | succ fuel ih =>
      rw [getDataLoop_succ]
      obtain ⟨c, hread, -, htracks⟩ := getIter_spec hr
      have hpos := ne_nil_of_getIter hread
      have hstep : (machine h).step s .iter =
          some ⟨(getIter h s.recv).2, s.arrived, s.returned ++ returnedBy (getIter h s.recv)⟩ := rfl
      rcases hiter : getIter h s.recv with ⟨_ | b, r'⟩
      · simp only [hiter] at hread htracks hstep hpos ⊢
        have hcount : r'.ring.count < fuel := by
          have hlen := congrArg List.length hread
          simp only [List.length_append, RingBuffer.length_contents] at hlen
          have := List.length_pos_of_ne_nil (hpos trivial)
          omega
        obtain ⟨n, hrun⟩ := ih ⟨r', s.arrived, s.returned⟩ htracks hcount
        refine ⟨n + 1, ?_⟩
        rw [List.replicate_succ]
        refine Machine.run_cons.mpr ⟨_, hstep, ?_⟩
        simpa [returnedBy] using hrun
      · simp only [hiter] at hstep ⊢
        refine ⟨1, Machine.run_cons.mpr ⟨_, hstep, ?_⟩⟩
        cases b <;> simp [returnedBy]

/-- **A call is a run of iterations**, the last of which returns what the call does. -/
theorem getData_run (s : Stream) (hr : Tracks h s.recv p) :
    ∃ n, (machine h).run s (List.replicate n .iter) =
      some ⟨(getData h s.recv).2, s.arrived,
        s.returned ++ if (getData h s.recv).1 then [frameBytes (getData h s.recv).2.buf]
          else []⟩ :=
  getDataLoop_run s hr s.recv.ring.count_lt

/-! ### Runs -/

/-- The bytes read are parsed, and the parser is in the middle of what is left. -/
def Reads (header : UInt8) (s : Stream) : Prop :=
  ∃ bs, s.arrived = bs ++ s.recv.ring.contents ∧ s.returned = frames header bs ∧
    Tracks header s.recv (pending header bs)

theorem Reads.step {s : Stream} (hs : s.Reads h) {e : StreamEvent} (hroom : s.Room e) :
    ∃ s', s.step h e = some s' ∧ s'.Reads h := by
  obtain ⟨bs, harrived, hreturned, htracks⟩ := hs
  cases e with
  | arrive data =>
      refine ⟨_, rfl, bs, ?_, hreturned, htracks.withRing _⟩
      rw [RingBuffer.contents_pushAll (Nat.lt_succ_of_le hroom), harrived, List.append_assoc]
  | iter =>
      obtain ⟨c, hread, hscan, htracks'⟩ := getIter_spec htracks
      refine ⟨_, rfl, bs ++ c, ?_, ?_, ?_⟩
      · rw [harrived, hread, List.append_assoc]
      · rw [frames_append, hreturned, ← hscan]
        rfl
      · rw [pending_append]
        exact htracks'

/-- What an unfinished frame says of the variables of the parser. -/
theorem Reads.framed {s : Stream} (hs : s.Reads h) : s.Framed h := by
  obtain ⟨bs, harrived, hreturned, htracks⟩ := hs
  have hlen := htracks.recvLen
  refine ⟨⟨bs, harrived, hreturned⟩, ?_, ⟨?_, by decide⟩, ?_, ?_⟩
  · intro hempty
    rw [harrived, hempty, List.append_nil, hreturned]
  · by_cases h3 : 3 ≤ (pending h bs).length
    · have hroom := htracks.unfinished.room h3
      unfold uartProcotolMaxLen at hroom
      omega
    · omega
  · rw [htracks.start, hlen]
    simp
  · intro h3
    rw [hlen] at h3 ⊢
    rw [hdrLength_of_bytes htracks.buf h3, Nat.add_comm]
    exact htracks.dataLen h3

end Stream

/-- However bytes arrive between and within the calls, **the automaton accepts
exactly its grammar, within its buffer**. -/
theorem framing_exact (header : UInt8) (buf : Mem) (es : List StreamEvent)
    (guarded : (Stream.machine header).Guarded (fun s e => s.Room e) (Stream.start buf) es) :
    ∃ s, (Stream.machine header).run (Stream.start buf) es = some s ∧ s.Framed header := by
  have hstart : (Stream.start buf).Reads header := by
    have hring : (Stream.start buf).recv.ring.contents = [] :=
      RingBuffer.contents_eq_nil_iff.mpr rfl
    refine ⟨[], by rw [hring]; rfl, by simp [Stream.start, frames], ?_⟩
    simpa [pending] using Tracks.idle rfl rfl
  obtain ⟨s, hrun, hs⟩ := Machine.run_progress (M := Stream.machine header)
    (fun s => s.Reads header) (fun _ _ hs hroom => hs.step hroom) hstart guarded
  exact ⟨s, hrun, hs.framed⟩

/-- A stray byte and a frame whose last byte comes late. -/
def lateByte : List StreamEvent :=
  [.arrive [0x11, 0xC0, 0, 1, 7], .iter, .iter, .iter, .iter, .iter, .iter, .arrive [7], .iter]

theorem framing_exact_lateByte :
    ∃ s, (Stream.machine wifiampAppHeader).run (Stream.start fun _ => 0) lateByte = some s ∧
      s.Framed wifiampAppHeader :=
  framing_exact wifiampAppHeader (fun _ => 0) lateByte (by decide +kernel)

end WifiExpander
