import WifiExpander.Framing
import WifiExpander.Driver

/-!
Does every frame from BLE reach the host?

Writes to `gattdb_Recv` fill `ble_recv_array`, and `App_Ble_Parse_Task` cuts frames
from it, takes a buffer for each and links a copy. Writes may come between any two
bytes the task reads, and other tasks may do anything between its steps. The frames
of what the task has read are those for which it asked for a buffer, in order; what
it links is, in order, those for which it got one.
-/

namespace WifiExpander

open WifiExpander.Theory

/-! ### The task -/

/-- Where `App_Ble_Parse_Task` is in its loop. -/
inductive BlePhase where
  /-- in `ble_get_data`, or before it -/
  | reading
  /-- `ble_get_data` has returned true -/
  | framed
  /-- a buffer was obtained -/
  | sending

/-- `App_Ble_Parse_Task` and what it reads; the last three fields are history. -/
structure Uplink where
  ble : Receiver
  phase : BlePhase
  /-- the bytes written to `gattdb_Recv` -/
  written : List UInt8
  /-- the frames for which a buffer was asked, and whether there was one -/
  asked : List (List UInt8 × Bool)
  /-- the entries linked -/
  appended : List UartSendFormat

inductive UplinkEvent where
  /-- the write branch of `BluetoothEventHandler`, or a part of its loop -/
  | write (data : List UInt8)
  /-- an iteration of the loop of `ble_get_data` -/
  | iter

namespace Uplink

def step (s : Uplink) : UplinkEvent → Uplink
  | .write data =>
      { s with
        ble := { s.ble with ring := s.ble.ring.pushAll data }
        written := s.written ++ data }
  | .iter =>
      match s.phase with
      | .reading =>
          match getIter wifiampAppHeader s.ble with
          | (some true, ble) => { s with ble, phase := .framed }
          | (_, ble) => { s with ble }
      | _ => s

/-- `App_Ble_Parse_Task` -/
def appBleParseTask : Driver Uplink UplinkEvent where
  task := .bleParse
  own s _ e := s.step e
  call s :=
    match s.phase with
    | .framed => some (.forward s.ble.buf)
    | _ => none
  took s obtained :=
    { s with
      asked := s.asked ++ [(frameBytes s.ble.buf, obtained)]
      phase := if obtained then .sending else .reading }
  linked s f := { s with appended := s.appended ++ [f], phase := .reading }

/-- The task before its first byte; `ble_recv_buf` holds anything. -/
def start (buf : Mem) : Uplink := ⟨(Stream.start buf).recv, .reading, [], [], []⟩

/-- `ble_recv_array` takes no more than 1023 unread bytes. -/
def Room (s : Uplink) : UplinkEvent → Prop
  | .write data => s.ble.ring.count + data.length ≤ 1023
  | .iter => True

instance (s : Uplink) : ∀ e, Decidable (s.Room e)
  | .write _ => inferInstanceAs (Decidable (_ ≤ _))
  | .iter => isTrue trivial

/-- The frame that has been cut and for which no buffer has been asked yet. -/
def waiting (s : Uplink) : List (List UInt8) :=
  match s.phase with
  | .framed => [frameBytes s.ble.buf]
  | _ => []

/-- The frame a call of the task is sending. -/
def sending : Pc → List (List UInt8)
  | .taken (.forward c) _ | .filled (.forward c) _ _ => [frameBytes c]
  | _ => []

/-- A copy of a frame, ready to be posted. -/
structure Copies (f : UartSendFormat) : Prop where
  type : f.poll.type = 0
  cmdLen : f.cmdLen = hdrLength f.cmd + 4
  fits : f.cmdLen ≤ 403

/-- The frames of the bytes read are those for which a buffer was asked, and the
entries linked are copies of those for which there was one. -/
structure Forwards (s : Uplink) (pc : Pc) : Prop where
  read : ∃ bs, s.written = bs ++ s.ble.ring.contents ∧
    frames wifiampAppHeader bs = s.asked.map Prod.fst ++ s.waiting
  linked : s.appended.map UartSendFormat.frame ++ sending pc =
    (s.asked.filter fun a => a.2).map Prod.fst
  copies : ∀ f ∈ s.appended, Copies f

/-! ### The invariant -/

/-- The task is in a call exactly while it is sending, with the frame in
`ble_recv_buf`. -/
def At (s : Uplink) : Pc → Prop
  | .idle => s.phase ≠ .sending
  | .taken c _ | .filled c _ _ =>
      s.phase = .sending ∧ ∃ buf, c = .forward buf ∧ hdrLength buf < uartProcotolMaxLen

/-- What each step preserves. -/
structure Inv (s : Uplink) (pc : Pc) : Prop where
  read : ∃ bs, s.written = bs ++ s.ble.ring.contents ∧
    frames wifiampAppHeader bs = s.asked.map Prod.fst ++ s.waiting ∧
    Tracks wifiampAppHeader s.ble (pending wifiampAppHeader bs)
  linked : s.appended.map UartSendFormat.frame ++ sending pc =
    (s.asked.filter fun a => a.2).map Prod.fst
  copies : ∀ f ∈ s.appended, Copies f
  pc : s.At pc

variable {s : Uplink} {pc : Pc}

/-- The bytes read are parsed, and the parser is in the middle of what is left. -/
def Reads (s : Uplink) : Prop :=
  ∃ bs, s.written = bs ++ s.ble.ring.contents ∧
    frames wifiampAppHeader bs = s.asked.map Prod.fst ++ s.waiting ∧
    Tracks wifiampAppHeader s.ble (pending wifiampAppHeader bs)

theorem Reads.write (h : s.Reads) {data : List UInt8} (hroom : s.Room (.write data)) :
    (s.step (.write data)).Reads := by
  obtain ⟨bs, hwritten, hframes, htracks⟩ := h
  refine ⟨bs, ?_, hframes, htracks.withRing _⟩
  simp only [step]
  rw [RingBuffer.contents_pushAll (Nat.lt_succ_of_le hroom), hwritten, List.append_assoc]

theorem Reads.iter (h : s.Reads) : (s.step .iter).Reads := by
  simp only [step]
  cases hphase : s.phase with
  | framed | sending => exact h
  | reading =>
      obtain ⟨bs, hwritten, hframes, htracks⟩ := h
      obtain ⟨c, hread, hscan, htracks'⟩ := getIter_spec htracks
      have hnew : s.written = (bs ++ c) ++ (getIter wifiampAppHeader s.ble).2.ring.contents := by
        rw [hwritten, hread, List.append_assoc]
      have hcut : frames wifiampAppHeader (bs ++ c) =
          s.asked.map Prod.fst ++ Stream.returnedBy (getIter wifiampAppHeader s.ble) := by
        rw [frames_append, hframes, ← hscan]
        simp [waiting, hphase, frames]
      rw [← pending, ← pending_append] at htracks'
      rcases hiter : getIter wifiampAppHeader s.ble with ⟨_ | _ | _, ble⟩
      all_goals
        rw [hiter] at hnew hcut htracks'
        refine ⟨bs ++ c, hnew, ?_, htracks'⟩
      · simpa [waiting, hphase, Stream.returnedBy] using hcut
      · simpa [waiting, hphase, Stream.returnedBy] using hcut
      · simpa [waiting, Stream.returnedBy] using hcut

theorem Reads.start (buf : Mem) : (start buf).Reads := by
  have hring : (Uplink.start buf).ble.ring.contents = [] :=
    RingBuffer.contents_eq_nil_iff.mpr rfl
  refine ⟨[], by rw [hring]; rfl, by simp [Uplink.start, frames, waiting], ?_⟩
  simpa [pending] using Tracks.idle rfl rfl

/-- A frame that was cut fits the buffer. -/
theorem Inv.hdrLength_lt (h : s.Inv pc) (hphase : s.phase = .framed) :
    hdrLength s.ble.buf < uartProcotolMaxLen := by
  obtain ⟨bs, -, hframes, -⟩ := h.read
  have hmem : frameBytes s.ble.buf ∈ frames wifiampAppHeader bs := by
    rw [hframes]
    simp [waiting, hphase]
  have hlen := length_of_mem_frames bs _ hmem
  simpa [frameBytes] using hlen

theorem Inv.write (h : s.Inv pc) {data : List UInt8} (hroom : s.Room (.write data)) :
    (s.step (.write data)).Inv pc :=
  ⟨Reads.write h.read hroom, h.linked, h.copies, h.pc⟩

theorem Inv.iter (h : s.Inv pc) : (s.step .iter).Inv pc := by
  have hread := Reads.iter h.read
  have hpc := h.pc
  simp only [step] at hread ⊢
  cases hphase : s.phase with
  | framed | sending => exact h
  | reading =>
      rw [hphase] at hread
      rcases hiter : getIter wifiampAppHeader s.ble with ⟨_ | _ | _, ble⟩
      all_goals
        rw [hiter] at hread
        refine ⟨hread, h.linked, h.copies, ?_⟩
        cases pc <;> simp_all [At]

/-- The task calls only with a frame in hand, to send it. -/
theorem framed_of_call {c : Call} (hcall : appBleParseTask.call s = some c) :
    s.phase = .framed ∧ c = .forward s.ble.buf := by
  cases hphase : s.phase with
  | framed =>
      simp only [appBleParseTask, hphase, Option.some.injEq] at hcall
      exact ⟨rfl, hcall.symm⟩
  | reading | sending => simp [appBleParseTask, hphase] at hcall

/-- An entry that holds the frame in `buf` is a copy of it. -/
theorem Copies.of_frame {f : UartSendFormat} {buf : Mem} (htype : f.poll.type = 0)
    (hframe : f.frame = frameBytes buf) (hlen : hdrLength buf < uartProcotolMaxLen) :
    Copies f := by
  have hcmdLen : f.cmdLen = hdrLength buf + 4 := by
    rw [← f.length_frame, hframe]
    simp [frameBytes]
  have hsame : ∀ i < hdrLength buf + 4, f.cmd i = buf i := by
    intro i hi
    have hread : f.frame[i]? = some (f.cmd i) := UartSendFormat.getElem?_frame (hcmdLen ▸ hi)
    simpa [hframe, frameBytes, Mem.bytes, hi] using hread.symm
  have hhdr : hdrLength f.cmd = hdrLength buf := by
    rw [hdrLength_eq, hdrLength_eq, hsame 1 (by omega), hsame 2 (by omega)]
  refine ⟨htype, by rw [hhdr, hcmdLen], ?_⟩
  unfold uartProcotolMaxLen at hlen
  omega

theorem keeps : appBleParseTask.Keeps Room (fun _ => True) Inv where
  own {s pc e} h hroom _ := by
    cases e with
    | write data => exact h.write hroom
    | iter => exact h.iter
  makes {s c} h hcall := by
    obtain ⟨hphase, rfl⟩ := framed_of_call hcall
    simpa [appBleParseTask, Task.makes] using h.hdrLength_lt hphase
  refused {s c} h hcall _ := by
    obtain ⟨hphase, -⟩ := framed_of_call hcall
    obtain ⟨bs, hwritten, hframes, htracks⟩ := h.read
    refine ⟨⟨bs, hwritten, ?_, htracks⟩, ?_, h.copies, ?_⟩
    · simpa [appBleParseTask, waiting, hphase] using hframes
    · simpa [appBleParseTask, List.filter_append] using h.linked
    · simp [appBleParseTask, At]
  took {s c} h hcall b := by
    obtain ⟨hphase, rfl⟩ := framed_of_call hcall
    obtain ⟨bs, hwritten, hframes, htracks⟩ := h.read
    refine ⟨⟨bs, hwritten, ?_, htracks⟩, ?_, h.copies, ?_⟩
    · simpa [appBleParseTask, waiting, hphase] using hframes
    · have hlinked := h.linked
      simp only [sending, List.append_nil] at hlinked
      simp [appBleParseTask, sending, List.filter_append, hlinked]
    · exact ⟨rfl, _, rfl, h.hdrLength_lt hphase⟩
  filled {s c b} h sn := by
    obtain ⟨hphase, buf, rfl, hlen⟩ := h.pc
    exact ⟨h.read, h.linked, h.copies, hphase, buf, rfl, hlen⟩
  linked {s c b sn f} h hframe htype := by
    obtain ⟨hphase, buf, rfl, hlen⟩ := h.pc
    obtain ⟨bs, hwritten, hframes, htracks⟩ := h.read
    refine ⟨⟨bs, hwritten, ?_, htracks⟩, ?_, ?_, ?_⟩
    · simpa [appBleParseTask, waiting, hphase] using hframes
    · have hlinked := h.linked
      simp only [sending] at hlinked
      simpa [appBleParseTask, sending, hframe, Call.bytes] using hlinked
    · intro g hg
      rcases List.mem_append.mp hg with hg | hg
      · exact h.copies g hg
      · obtain rfl := List.mem_singleton.mp hg
        exact .of_frame htype hframe hlen
    · simp [appBleParseTask, At]

theorem Inv.start (buf : Mem) : (start buf).Inv .idle :=
  ⟨Reads.start buf, rfl, by simp [Uplink.start], by simp [Uplink.start, At]⟩

end Uplink

/-- Where the buffers stay apart, **every frame from BLE is linked, verbatim and in
order, for which there was a buffer**. -/
theorem uplink_forwards (buf : Mem) (heap : Heap) (mem : BufId → UartSendFormat)
    (msgPoolSize : Nat) (es : List (DriverEvent UplinkEvent))
    (guarded : Uplink.appBleParseTask.GuardedFrom
      (Uplink.appBleParseTask.Clean Uplink.Room fun _ => True) (Uplink.start buf) heap mem
      msgPoolSize es) :
    ∃ s, Uplink.appBleParseTask.runFrom (Uplink.start buf) heap mem msgPoolSize es = some s ∧
      s.loc.Forwards (s.sys.pc .bleParse) := by
  obtain ⟨s, hrun, hinv⟩ := Driver.run_keeps Uplink.keeps (Uplink.Inv.start buf) guarded
  obtain ⟨bs, hwritten, hframes, -⟩ := hinv.read
  exact ⟨s, hrun, ⟨bs, hwritten, hframes⟩, hinv.linked, hinv.copies⟩

/-- A stray byte and two frames in three writes, and their way to the list. -/
def Uplink.twoFrames : List (DriverEvent UplinkEvent) :=
  [.own (.write [0x55, 0xC0, 0, 1]), .own .iter, .own .iter, .own .iter, .other .pend,
    .own (.write [7, 7, 0xC0, 0]), .own .iter, .own .iter, .own .iter, .take, .fill, .other .tick,
    .link, .own .iter, .own .iter, .own (.write [0, 9]), .own .iter, .own .iter, .take, .fill,
    .link]

theorem uplink_forwards_twoFrames :
    ∃ s, Uplink.appBleParseTask.runFrom (Uplink.start fun _ => 0) Sys.blankHeap Sys.blankMem 0
        Uplink.twoFrames = some s ∧
      s.loc.appended.map UartSendFormat.frame = [[0xC0, 0, 1, 7, 7], [0xC0, 0, 0, 9]] ∧
      s.loc.Forwards (s.sys.pc .bleParse) := by
  obtain ⟨s, hrun, hforwards⟩ := uplink_forwards (fun _ => 0) Sys.blankHeap Sys.blankMem 0
    Uplink.twoFrames (by decide +kernel)
  have hframes : (Uplink.appBleParseTask.runFrom (Uplink.start fun _ => 0) Sys.blankHeap
      Sys.blankMem 0 Uplink.twoFrames).any (fun s => s.loc.appended.map UartSendFormat.frame ==
        [[0xC0, 0, 1, 7, 7], [0xC0, 0, 0, 9]]) = true := by decide +kernel
  rw [hrun] at hframes
  exact ⟨s, hrun, by simpa using hframes, hforwards⟩

end WifiExpander
