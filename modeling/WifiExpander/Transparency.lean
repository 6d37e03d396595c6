import WifiExpander.Theory.History
import WifiExpander.Bridge

/-!
Does the bridge carry every byte?

Over a period with a connection, the frames that are not for the module itself
reach BLE byte by byte: what was sent and what `notify_array` still holds are,
in order, the relayed frames of the bytes that `uart_get_data` has read. The
invariant `Bridge.Carried` says so of every state, wherever the rings wrap and
however frames, chunks and failures fall.
-/

namespace WifiExpander

open WifiExpander.Theory

variable {σ τ : Type}

/-! ### Relayed frames -/

/-- The frame passes `procotol_check` and is not for the module itself. -/
def relays (frame : List UInt8) : Bool :=
  procotolCheck (Mem.ofList frame) && !ownCommand (Mem.ofList frame)

/-- The bytes of the frames of a stream that are relayed. -/
def relayed (bs : List UInt8) : List UInt8 :=
  ((frames wifiampDevHeader bs).filter relays).flatten

/-- The unfinished frame at the end of a stream. -/
abbrev unfinished (bs : List UInt8) : List UInt8 := pending wifiampDevHeader bs

theorem relayed_append (xs ys : List UInt8) :
    relayed (xs ++ ys) = relayed xs ++ relayed (unfinished xs ++ ys) := by
  rw [relayed, frames_append, List.filter_append, List.flatten_append]
  rfl

/-- Memory that begins with the same frame. -/
theorem relays_frameBytes (c : Mem) :
    relays (frameBytes c) = (procotolCheck c && !ownCommand c) := by
  have hread : ∀ i < hdrLength c + 4, Mem.ofList (frameBytes c) i = c i := by
    intro i hi
    have hlen : i < (frameBytes c).length := by simpa [frameBytes] using hi
    simp only [Mem.ofList, List.getD_eq_getElem?_getD, List.getElem?_eq_getElem hlen,
      Option.getD_some]
    simp [frameBytes, Mem.getElem_bytes]
  have hlen : hdrLength (Mem.ofList (frameBytes c)) = hdrLength c := by
    rw [hdrLength_eq, hdrLength_eq, hread 1 (by omega), hread 2 (by omega)]
  have hcheck : procotolCheck (Mem.ofList (frameBytes c)) = procotolCheck c :=
    procotolCheck_congr hlen (hlen ▸ hread)
  cases h : procotolCheck c with
  | false => simp [relays, hcheck, h]
  | true =>
      have h4 := four_le_hdrLength h
      have htype : hdrPdtType (Mem.ofList (frameBytes c)) = hdrPdtType c := hread 5 (by omega)
      have hcmd : hdrCmdId (Mem.ofList (frameBytes c)) = hdrCmdId c := hread 6 (by omega)
      have hown : ownCommand (Mem.ofList (frameBytes c)) = ownCommand c := by
        unfold ownCommand toModule
        rw [htype, hcmd]
      rw [relays, hcheck, hown, h]

/-- What is behind the buffer does not matter for a frame that fits. -/
theorem frameBytes_upTo {c : Mem} (h : (frameBytes c).length ≤ sizeofUartCmdFormat) (ram : Mem) :
    frameBytes (c.upTo sizeofUartCmdFormat ram) = frameBytes c := by
  have hsame : ∀ i < hdrLength c + 4, (c.upTo sizeofUartCmdFormat ram) i = c i := by
    intro i hi
    have : i < sizeofUartCmdFormat := by
      simp only [frameBytes, Mem.length_bytes] at h
      omega
    simp [Mem.upTo, this]
  have hlen : hdrLength (c.upTo sizeofUartCmdFormat ram) = hdrLength c := by
    rw [hdrLength_eq, hdrLength_eq, hsame 1 (by omega), hsame 2 (by omega)]
  unfold frameBytes
  rw [hlen]
  exact Mem.bytes_congr fun i hi => by rw [Nat.zero_add]; exact hsame i hi

/-! ### Parsing over BLE -/

namespace Device

/-- **Only a relayed frame reaches `notify_array`**, while there is a connection. -/
theorem Parsed.notifyArray {P : Platform σ} {c : Mem} {a a' : Device Pool σ} (h : Parsed P c a a')
    (hconn : a.bleConnState = 1) : a'.bleConnState = 1 ∧
      a'.notifyArray = if relays (frameBytes c) then a.notifyArray.pushAll (frameBytes c)
        else a.notifyArray := by
  rw [relays_frameBytes]
  cases h with
  | rejected hcheck => simp [hcheck, hconn]
  | relayed hcheck hown => simp [hcheck, hown, hconn]
  | dropped _ _ hnot => exact absurd hconn hnot
  | silent hown | answered hown => simp [hown, hconn]
  | refused hreq | accepted hreq => simp [ownCommand_of_accepts hreq (.inl rfl), hconn]
  | requested hdata | failed hdata | installed hdata =>
      simp [ownCommand_of_accepts hdata (.inr rfl), hconn]

theorem Sound.withNotify {d : Device Tx σ} (h : d.Sound fun _ => True) (ring : ByteRing) :
    Sound (fun _ => True) { d with notifyArray := ring } := by
  obtain ⟨a, ⟨tx, htx, rfl⟩, hsep, -⟩ := h
  exact ⟨{ a with notifyArray := ring }, ⟨tx, htx, rfl⟩, hsep, trivial⟩

/-- The code parses a frame, and relays it or leaves `notify_array` alone. -/
theorem Sound.parse {P : Platform σ} {d : Device Tx σ} (h : d.Sound fun _ => True)
    (hreb : d.rebooted = false) (hconn : d.bleConnState = 1) (c : Mem) :
    ∃ d', uartProtocolParse P c d = some d' ∧ (d'.Sound fun _ => True) ∧ d'.bleConnState = 1 ∧
      d'.notifyArray = if relays (frameBytes c) then d.notifyArray.pushAll (frameBytes c)
        else d.notifyArray := by
  obtain ⟨a, hrep, hsep, -⟩ := h
  obtain ⟨tx, htx, rfl⟩ := hrep
  obtain ⟨a', hparse, hparsed⟩ := uartProtocolParse_spec (P := P) (c := c) hsep hreb
  obtain ⟨d', hparse', hrep'⟩ := follows_uartProtocolParse _ _ _ ⟨tx, htx, rfl⟩ hparse
  have hnotify := hparsed.notifyArray hconn
  obtain ⟨tx', htx', rfl⟩ := hrep'
  exact ⟨_, hparse', ⟨a', ⟨tx', htx', rfl⟩, hparsed.separate hsep, trivial⟩, hnotify⟩

end Device

/-! ### Notifications -/

theorem notifyLen_toNat {bleMtu : UInt16} (hmtu : bleMtu ≤ 255) (lenRemain : Nat) :
    (notifyLen bleMtu lenRemain).toNat = min bleMtu.toNat lenRemain := by
  have hle : bleMtu.toNat ≤ 255 := UInt16.le_iff_toNat_le.mp hmtu
  unfold notifyLen
  rw [UInt8.toNat_ofNat']
  split
  · rw [Nat.mod_eq_of_lt (by omega)]
    omega
  · rw [Nat.mod_eq_of_lt (by omega)]
    omega

/-- What a round of the task does while there is a connection. -/
inductive Notifies (bleMtu : UInt16) (ok : Bool) (r : ByteRing) :
    Option (List UInt8) × ByteRing → Prop where
  | idle : r.contents = [] → Notifies bleMtu ok r (none, r)
  | taken {r' : ByteRing} : ok = true → r.contents ≠ [] →
      r'.contents = r.contents.drop bleMtu.toNat →
      Notifies bleMtu ok r (some (r.contents.take bleMtu.toNat), r')
  | refused : ok = false → r.contents ≠ [] →
      Notifies bleMtu ok r (some (r.contents.take bleMtu.toNat), r)

theorem bleNotify_spec {bleConnState : UInt8} {bleMtu : UInt16} (hconn : bleConnState ≠ 0)
    (hmtu : bleMtu ≤ 255) (ok : Bool) (r : ByteRing) :
    Notifies bleMtu ok r (bleNotify bleConnState bleMtu ok r) := by
  unfold bleNotify
  rw [if_neg hconn]
  by_cases hempty : r.pOut = r.pIn
  · rw [if_pos hempty]
    exact .idle (RingBuffer.contents_eq_nil_iff.mpr hempty)
  · rw [if_neg hempty]
    have hlen := notifyLen_toNat hmtu r.count
    have hle : (notifyLen bleMtu r.count).toNat ≤ r.count := by omega
    have hne : r.contents ≠ [] := fun h => hempty (RingBuffer.contents_eq_nil_iff.mp h)
    have htake : r.contents.take (notifyLen bleMtu r.count).toNat =
        r.contents.take bleMtu.toNat := by
      rw [hlen, ← r.length_contents]
      exact List.take_eq_take_min.symm
    dsimp only
    rw [RingBuffer.window_pOut hle, htake]
    cases ok with
    | false => exact .refused rfl hne
    | true =>
        refine .taken rfl hne ?_
        rw [if_pos rfl, RingBuffer.contents_skip hle, hlen, ← r.length_contents]
        exact List.drop_eq_drop_min.symm

/-! ### The state of the bridge -/

/-- After a failed notification the next one begins with the same bytes, as far as
`ble_mtu` allows. -/
def Retries (pre : List Attempt) (a : Attempt) : Prop :=
  ∀ b ∈ pre.getLast?, b.ok = false → b.payload.take a.bleMtu.toNat <+: a.payload

namespace Bridge

/-- A period begins: there is a connection, the send path is in order, and the
parser has read the unfinished frame `p`. -/
structure Ready (s : Bridge Tx σ) (p : List UInt8) : Prop where
  sound : s.dev.Sound fun _ => True
  conn : s.dev.bleConnState = 1
  mtu : 20 ≤ s.bleMtu ∧ s.bleMtu ≤ 255
  tracks : Tracks wifiampDevHeader s.uart p
  arrived : s.arrived = []
  attempts : s.attempts = []

/-- Neither ring takes more than 1023 unread bytes, and `ble_mtu` stays between 20
and 255. -/
def Room (s : Bridge Tx σ) : BridgeEvent → Prop
  | .recv data => s.uart.ring.count + data.length ≤ 1023
  | .parse _ =>
      let (got, uart) := uartGetData s.uart
      got = true → relays (frameBytes uart.buf) = true →
        s.dev.notifyArray.count + (frameBytes uart.buf).length ≤ 1023
  | .notify _ => True
  | .mtu bleMtu => 20 ≤ bleMtu ∧ bleMtu ≤ 255

instance (s : Bridge Tx σ) : ∀ e, Decidable (s.Room e)
  | .recv _ => inferInstanceAs (Decidable (_ ≤ _))
  | .parse _ => inferInstanceAs (Decidable (_ → _ → _))
  | .notify _ => isTrue trivial
  | .mtu _ => inferInstanceAs (Decidable (_ ∧ _))

/-- Everything that was relayed since `start` was sent or is still in
`notify_array`, in order; `bs` is what the parser has read. -/
structure Transparent (s start : Bridge Tx σ) (p : List UInt8) : Prop where
  carried : ∃ bs, start.uart.ring.contents ++ s.arrived = bs ++ s.uart.ring.contents ∧
    s.sent ++ s.dev.notifyArray.contents =
      start.dev.notifyArray.contents ++ relayed (p ++ bs)
  sized : ∀ a ∈ s.attempts, 1 ≤ a.payload.length ∧ a.payload.length ≤ a.bleMtu.toNat
  retried : Past Retries s.attempts

/-- The same, with what carries it from step to step. -/
structure Carried (s start : Bridge Tx σ) (p : List UInt8) : Prop where
  sound : s.dev.Sound fun _ => True
  conn : s.dev.bleConnState = 1
  mtu : 20 ≤ s.bleMtu ∧ s.bleMtu ≤ 255
  stream : ∃ bs, start.uart.ring.contents ++ s.arrived = bs ++ s.uart.ring.contents ∧
    Tracks wifiampDevHeader s.uart (unfinished (p ++ bs)) ∧
    s.sent ++ s.dev.notifyArray.contents =
      start.dev.notifyArray.contents ++ relayed (p ++ bs)
  sized : ∀ a ∈ s.attempts, 1 ≤ a.payload.length ∧ a.payload.length ≤ a.bleMtu.toNat
  retried : Past Retries s.attempts
  failed : ∀ a ∈ s.attempts.getLast?, a.ok = false → a.payload <+: s.dev.notifyArray.contents

variable {P : Platform σ} {start s : Bridge Tx σ} {p : List UInt8}

theorem Ready.carried (h : start.Ready p) : start.Carried start p where
  sound := h.sound
  conn := h.conn
  mtu := h.mtu
  stream := by
    have hp : scan wifiampDevHeader p = ([], p) := h.tracks.unfinished.scan
    refine ⟨[], by simp [h.arrived], ?_, ?_⟩
    · simpa [pending, hp] using h.tracks
    · simp [sent, h.attempts, relayed, frames, hp]
  sized := by simp [h.attempts]
  retried := by rw [h.attempts]; exact past_nil
  failed := by simp [h.attempts]

namespace Carried

theorem transparent (h : s.Carried start p) : s.Transparent start p := by
  obtain ⟨bs, harrived, -, hsent⟩ := h.stream
  exact ⟨⟨bs, harrived, hsent⟩, h.sized, h.retried⟩

theorem recv (h : s.Carried start p) {data : List UInt8}
    (hroom : s.uart.ring.count + data.length ≤ 1023) :
    Carried { s with
      uart := { s.uart with ring := uartRecv s.uart.ring data }
      arrived := s.arrived ++ data } start p := by
  obtain ⟨bs, harrived, htracks, hsent⟩ := h.stream
  have hcontents : (uartRecv s.uart.ring data).contents = s.uart.ring.contents ++ data :=
    RingBuffer.contents_pushAll (Nat.lt_succ_of_le hroom)
  refine ⟨h.sound, h.conn, h.mtu, ⟨bs, ?_, ?_, hsent⟩, h.sized, h.retried, h.failed⟩
  · rw [hcontents, ← List.append_assoc, harrived, List.append_assoc]
  · exact ⟨htracks.unfinished, htracks.recvLen, htracks.buf, htracks.start, htracks.dataLen⟩

/-- A notification that goes through takes the first unread bytes with it. -/
theorem attempt (h : s.Carried start p) {ring : ByteRing} {ok : Bool}
    (hne : s.dev.notifyArray.contents ≠ [])
    (hring : ring.contents = if ok then s.dev.notifyArray.contents.drop s.bleMtu.toNat
      else s.dev.notifyArray.contents) :
    Carried { s with
      dev := { s.dev with notifyArray := ring }
      attempts := s.attempts ++
        [⟨s.dev.notifyArray.contents.take s.bleMtu.toNat, s.bleMtu, ok⟩] } start p := by
  obtain ⟨bs, harrived, htracks, hsent⟩ := h.stream
  have hmtu : 20 ≤ s.bleMtu.toNat := UInt16.le_iff_toNat_le.mp h.mtu.1
  have hpos : 0 < s.dev.notifyArray.contents.length := List.length_pos_of_ne_nil hne
  refine ⟨h.sound.withNotify ring, h.conn, h.mtu, ⟨bs, harrived, htracks, ?_⟩, ?_, ?_, ?_⟩
  · rw [← hsent]
    cases ok <;> simp [sent, hring]
  · intro a ha
    rcases List.mem_append.mp ha with ha | ha
    · exact h.sized a ha
    · obtain rfl := List.mem_singleton.mp ha
      simp only [List.length_take]
      omega
  · exact h.retried.concat fun b hb hfail => (h.failed b hb hfail).take _
  · intro a ha hfail
    obtain rfl : _ = a := by simpa using ha
    obtain rfl : ok = false := hfail
    simpa [hring] using List.take_prefix _ _

/-- One more notification, with the first unread bytes. -/
theorem notify (h : s.Carried start p) (ok : Bool) : (s.bleNotifyTask ok).Carried start p := by
  have hconn : s.dev.bleConnState ≠ 0 := by
    rw [h.conn]
    decide
  have hspec := bleNotify_spec hconn h.mtu.2 ok s.dev.notifyArray
  unfold bleNotifyTask
  generalize bleNotify s.dev.bleConnState s.bleMtu ok s.dev.notifyArray = res at hspec
  cases hspec with
  | idle => exact h
  | taken hok hne hring => exact h.attempt hne (by rw [hring, hok, if_pos rfl])
  | refused hok hne => exact h.attempt hne (by simp [hok])

theorem parse (h : s.Carried start p) {ram : Mem} (hreb : s.dev.rebooted = false)
    (hroom : s.Room (.parse ram)) :
    ∃ s', s.appUartParse P ram = some s' ∧ s'.Carried start p := by
  obtain ⟨bs, harrived, htracks, hsent⟩ := h.stream
  have hresult := getData_spec htracks
  unfold appUartParse
  unfold Room at hroom
  rw [← uartGetData] at hresult
  generalize uartGetData s.uart = res at hresult hroom
  have hstream : ∀ c r, s.uart.ring.contents = c ++ r →
      start.uart.ring.contents ++ s.arrived = bs ++ c ++ r := by
    intro c r hread
    rw [harrived, hread, List.append_assoc]
  have hpending : ∀ c, unfinished (p ++ (bs ++ c)) = unfinished (unfinished (p ++ bs) ++ c) :=
    fun c => by rw [← List.append_assoc, unfinished, pending_append]
  have hrelayed : ∀ c, relayed (p ++ (bs ++ c)) =
      relayed (p ++ bs) ++ relayed (unfinished (p ++ bs) ++ c) :=
    fun c => by rw [← List.append_assoc, relayed_append]
  cases hresult with
  | @none c r hread hscan htracks' =>
      have hnone : relayed (unfinished (p ++ bs) ++ c) = [] := by
        simp [relayed, frames, hscan]
      refine ⟨_, rfl, h.sound, h.conn, h.mtu, ⟨bs ++ c, hstream c _ hread, ?_, ?_⟩, h.sized,
        h.retried, h.failed⟩
      · rw [hpending]
        exact htracks'
      · rw [hrelayed, hnone, List.append_nil]
        exact hsent
  | @frame c r hread hscan htracks' =>
      have hmem : frameBytes r.buf ∈ frames wifiampDevHeader (unfinished (p ++ bs) ++ c) := by
        simp [frames, hscan]
      have hframe : frameBytes (r.buf.upTo sizeofUartCmdFormat ram) = frameBytes r.buf := by
        have hlt := length_of_mem_frames _ _ hmem
        have hsize : uartProcotolMaxLen + 4 ≤ sizeofUartCmdFormat := by decide
        exact frameBytes_upTo (hlt.le.trans hsize) ram
      obtain ⟨d', hparse, hsound, hconn, hring⟩ := h.sound.parse (P := P) hreb h.conn
        (r.buf.upTo sizeofUartCmdFormat ram)
      rw [hframe] at hring
      have hcontents : d'.notifyArray.contents = s.dev.notifyArray.contents ++
          relayed (unfinished (p ++ bs) ++ c) := by
        rw [hring, show relayed (unfinished (p ++ bs) ++ c) =
          if relays (frameBytes r.buf) then frameBytes r.buf else [] by
            cases h : relays (frameBytes r.buf) <;> simp [relayed, frames, hscan, h]]
        split
        · exact RingBuffer.contents_pushAll (Nat.lt_succ_of_le (hroom rfl ‹_›))
        · simp
      refine ⟨{ s with uart := r, dev := d' }, ?_, hsound, hconn, h.mtu,
        ⟨bs ++ c, hstream c _ hread, ?_, ?_⟩, h.sized, h.retried, ?_⟩
      · simp only [hparse, Option.bind_eq_bind, Option.bind_some]
      · rw [hpending, unfinished, pending, hscan]
        exact htracks'
      · change s.sent ++ d'.notifyArray.contents = _
        rw [hcontents, hrelayed, ← List.append_assoc, hsent, List.append_assoc]
      · intro a ha hfail
        change a.payload <+: d'.notifyArray.contents
        rw [hcontents]
        exact (h.failed a ha hfail).trans (List.prefix_append _ _)

theorem step (h : s.Carried start p) {e : BridgeEvent} (hroom : s.Room e) :
    ∃ s', s.step P e = some s' ∧ s'.Carried start p := by
  unfold Bridge.step
  by_cases hreb : s.dev.rebooted = true
  · exact ⟨s, if_pos hreb, h⟩
  rw [if_neg hreb]
  cases e with
  | recv data => exact ⟨_, rfl, h.recv hroom⟩
  | parse ram => exact h.parse (by simpa using hreb) hroom
  | notify ok => exact ⟨_, rfl, h.notify ok⟩
  | mtu bleMtu =>
      exact ⟨_, rfl, h.sound, h.conn, hroom, h.stream, h.sized, h.retried, h.failed⟩

end Carried

end Bridge

/-- Over every period with a connection in which the rings have room, **the bridge
is transparent**. -/
theorem bridge_transparent (P : Platform σ) (start : Bridge Tx σ) (p : List UInt8)
    (ready : start.Ready p) (es : List BridgeEvent)
    (guarded : (Bridge.machine Tx P).Guarded (fun s e => s.Room e) start es) :
    ∃ s, (Bridge.machine Tx P).run start es = some s ∧ s.Transparent start p := by
  obtain ⟨s, hrun, hs⟩ := Machine.run_progress (M := Bridge.machine Tx P)
    (fun s => s.Carried start p) (fun _ _ h hroom => h.step hroom) ready.carried guarded
  exact ⟨s, hrun, hs.transparent⟩

/-- A frame of 24 bytes comes in two pieces, and its first notification fails. -/
def frameInPieces : List BridgeEvent :=
  let frame := wireFrame wifiampDevHeader 0 0 0x20 (List.replicate 16 0xA5)
  [.recv (0 :: frame.take 10), .parse fun _ => 0, .recv (frame.drop 10), .parse fun _ => 0,
    .notify false, .notify true]

theorem bridge_transparent_frameInPieces :
    ∃ tx, Tx.uartContextInit Sys.blankHeap Sys.blankMem 0 = some tx ∧
      ∃ s, (Bridge.machine Tx compliantPlatform).run (Bridge.connected tx ()) frameInPieces =
          some s ∧ s.sent.length = 20 ∧ s.Transparent (Bridge.connected tx ()) [] := by
  obtain ⟨tx, htx, a, ⟨v, hv, hrep⟩, hsep, -⟩ := Device.sound_boot (fun _ => True) Sys.blankHeap
    Sys.blankMem 0 () trivial
  have hready : (Bridge.connected tx ()).Ready [] := by
    have hmtu : (20 : UInt16) ≤ 20 ∧ (20 : UInt16) ≤ 255 := by decide
    refine ⟨⟨{ a with bleConnState := 1 }, ⟨v, hv, ?_⟩, hsep, trivial⟩, rfl, hmtu, .idle rfl rfl,
      rfl, rfl⟩
    rw [Bridge.connected, hrep]
    rfl
  have heval : (Tx.uartContextInit Sys.blankHeap Sys.blankMem 0).all (fun tx =>
      decide ((Bridge.machine Tx compliantPlatform).Guarded (fun s e => s.Room e)
        (Bridge.connected tx ()) frameInPieces) &&
      ((Bridge.machine Tx compliantPlatform).run (Bridge.connected tx ()) frameInPieces).all
        fun s => s.sent.length = 20) = true := by
    decide +kernel
  rw [htx, Option.all_some, Bool.and_eq_true] at heval
  obtain ⟨s, hrun, hs⟩ := bridge_transparent compliantPlatform _ _ hready frameInPieces
    (of_decide_eq_true heval.1)
  have hlen := heval.2
  rw [hrun, Option.all_some] at hlen
  exact ⟨tx, htx, s, hrun, of_decide_eq_true hlen, hs⟩

end WifiExpander
