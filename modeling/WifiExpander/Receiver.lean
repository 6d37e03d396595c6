import WifiExpander.Theory.RingBuffer
import WifiExpander.Frame

/-!
The byte rings and the framing automaton.

`uart_recv` and `app_uart_get` (`app/uart_communicate.c`, `app/uart_ptl.c`) and
their BLE twins work on a ring of 1024 bytes; `uart_get_data` and `ble_get_data`
are the same automaton over such a ring with different header bytes.

`scan` is the reference parse of a byte stream: skip to the header, read the
length, drop an oversize header, otherwise cut the frame. It is defined on whole
streams and knows no state. `Partial` relates the automaton's static variables
to the unfinished frame at the end of the stream read so far, and
`getData_spec` says that a call reads a prefix of the ring and returns with the
frame that `scan` cuts there.
-/

namespace WifiExpander

open WifiExpander.Theory

/-- `UART_RECV_BUFF_SIZE`, `BLE_RECV_BUFF_SIZE` and `NOTIFY_ARRAY_SIZE` -/
abbrev ringSize : Nat := 1024

theorem ringSize_pos : 0 < ringSize := by decide

/-- `uart_recv_buf_t`, `ble_recv_array_t` and `m_notify_array_t` without their
semaphores -/
abbrev ByteRing := RingBuffer UInt8 ringSize

/-- `uart_recv` -/
def uartRecv (r : ByteRing) (data : List UInt8) : ByteRing := r.pushAll data

/-- `app_uart_get` and `app_ble_get`; `none` is the return value `-1`. -/
def appGet (r : ByteRing) : Option (UInt8 × ByteRing) :=
  if r.pOut = r.pIn then none
  else some (r.data r.pOut, { r with pOut := RingBuffer.next r.pOut })

/-- A ring, its parser's static variables and the buffer the parser fills. -/
structure Receiver where
  ring : ByteRing
  /-- The memory from `recv_data_p` on -/
  buf : Mem
  proctolStart : Bool
  recvLen : Nat
  dataLen : UInt32

/-- The body of the loop of `uart_get_data` and `ble_get_data` for one byte;
`some b` is `return b`. -/
def recvByte (header : UInt8) (r : Receiver) (ch : UInt8) : Option Bool × Receiver :=
  let r := if ch = header ∧ r.proctolStart = false then { r with proctolStart := true } else r
  if r.proctolStart then
    let r := { r with buf := r.buf.set r.recvLen ch, recvLen := r.recvLen + 1 }
    if r.recvLen = 3 then
      let r := { r with dataLen := UInt32.ofNat (hdrLength r.buf + 1) }
      if r.dataLen = 0 then
        (some true, { r with recvLen := 0, dataLen := 0, proctolStart := false })
      else if r.dataLen > UInt32.ofNat uartProcotolMaxLen then
        (some false, { r with recvLen := 0, dataLen := 0, proctolStart := false })
      else (none, r)
    else if r.recvLen > 3 then
      let r := { r with dataLen := r.dataLen - 1 }
      if r.dataLen = 0 then
        (some true, { r with recvLen := 0, proctolStart := false })
      else (none, r)
    else (none, r)
  else (none, r)

/-- The loop `while(!app_uart_get(&ch))`, at most `fuel` times. -/
def getDataLoop (header : UInt8) : Nat → Receiver → Bool × Receiver
  | 0, r => (false, r)
  | fuel + 1, r =>
      match appGet r.ring with
      | none => (false, r)
      | some (ch, ring) =>
          match recvByte header { r with ring } ch with
          | (none, r) => getDataLoop header fuel r
          | (some b, r) => (b, r)

/-- A ring holds fewer than `ringSize` bytes, so the loop never runs out
(`getDataLoop_spec`). -/
def getData (header : UInt8) (r : Receiver) : Bool × Receiver := getDataLoop header ringSize r

def uartGetData : Receiver → Bool × Receiver := getData wifiampDevHeader

def bleGetData : Receiver → Bool × Receiver := getData wifiampAppHeader

/-! ### The reference parse -/

/-- The frames of a byte stream and the unfinished frame at its end. -/
def scan (header : UInt8) : List UInt8 → List (List UInt8) × List UInt8
  | [] => ([], [])
  | b :: bs =>
      if b = header then
        match bs with
        | m :: l :: rest =>
            let len := m.toNat * 256 + l.toNat
            if uartProcotolMaxLen ≤ len then scan header rest
            else if len + 1 ≤ rest.length then
              ((b :: m :: l :: rest.take (len + 1)) :: (scan header (rest.drop (len + 1))).1,
                (scan header (rest.drop (len + 1))).2)
            else ([], b :: m :: l :: rest)
        | _ => ([], b :: bs)
      else scan header bs
termination_by bs => bs.length
decreasing_by
  all_goals simp only [List.length_cons, List.length_drop]
  all_goals omega

/-- The frames of a stream. -/
def frames (header : UInt8) (bs : List UInt8) : List (List UInt8) := (scan header bs).1

/-- The unfinished frame at the end of a stream. -/
def pending (header : UInt8) (bs : List UInt8) : List UInt8 := (scan header bs).2

variable {h : UInt8}

/-- The length field of a frame given as a list. -/
def lengthOf : List UInt8 → Nat
  | _ :: m :: l :: _ => m.toNat * 256 + l.toNat
  | _ => 0

@[simp] theorem scan_nil : scan h [] = ([], []) := by rw [scan]

theorem scan_skip {b : UInt8} {bs : List UInt8} (hne : b ≠ h) : scan h (b :: bs) = scan h bs := by
  rw [scan.eq_def]
  simp only [if_neg hne]

theorem scan_oversize {m l : UInt8} {rest : List UInt8}
    (hlen : uartProcotolMaxLen ≤ m.toNat * 256 + l.toNat) :
    scan h (h :: m :: l :: rest) = scan h rest := by
  rw [scan.eq_def]
  simp only [if_true, if_pos hlen]

theorem scan_frame {m l : UInt8} {rest : List UInt8}
    (hlen : ¬ uartProcotolMaxLen ≤ m.toNat * 256 + l.toNat)
    (hrest : m.toNat * 256 + l.toNat + 1 ≤ rest.length) :
    scan h (h :: m :: l :: rest) =
      ((h :: m :: l :: rest.take (m.toNat * 256 + l.toNat + 1)) ::
        (scan h (rest.drop (m.toNat * 256 + l.toNat + 1))).1,
        (scan h (rest.drop (m.toNat * 256 + l.toNat + 1))).2) := by
  rw [scan.eq_def]
  simp only [if_true, if_neg hlen, if_pos hrest]

/-- A stream that is one unfinished frame: it begins with the header and, once
its length field is there, it is neither oversize nor complete. -/
structure Unfinished (h : UInt8) (p : List UInt8) : Prop where
  head : ∀ b ∈ p.head?, b = h
  room : 3 ≤ p.length → lengthOf p < uartProcotolMaxLen ∧ p.length < lengthOf p + 4

theorem Unfinished.nil : Unfinished h [] := ⟨by simp, by simp⟩

/-- The reference parse waits for the rest of an unfinished frame. -/
theorem Unfinished.scan {p : List UInt8} (hp : Unfinished h p) : scan h p = ([], p) := by
  match p, hp with
  | [], _ => simp
  | b :: bs, hp =>
      obtain rfl : b = h := hp.head b (by simp)
      match bs with
      | [] => rw [WifiExpander.scan.eq_def]; simp
      | [m] => rw [WifiExpander.scan.eq_def]; simp
      | m :: l :: rest =>
          obtain ⟨hlen, hlt⟩ := hp.room (by simp)
          simp only [lengthOf, List.length_cons] at hlen hlt
          have hl : ¬ uartProcotolMaxLen ≤ m.toNat * 256 + l.toNat := by omega
          have hr : ¬ m.toNat * 256 + l.toNat + 1 ≤ rest.length := by omega
          rw [WifiExpander.scan.eq_def]
          simp only [if_true, if_neg hl, if_neg hr]

theorem Unfinished.of_incomplete {m l : UInt8} {rest : List UInt8}
    (hlen : ¬ uartProcotolMaxLen ≤ m.toNat * 256 + l.toNat)
    (hrest : ¬ m.toNat * 256 + l.toNat + 1 ≤ rest.length) :
    Unfinished h (h :: m :: l :: rest) := by
  refine ⟨by simp, ?_⟩
  intro _
  simp only [lengthOf, List.length_cons]
  omega

theorem Unfinished.of_short {bs : List UInt8} (hshort : ∀ m l rest, bs = m :: l :: rest → False) :
    Unfinished h (h :: bs) := by
  refine ⟨by simp, ?_⟩
  intro hlen
  match bs, hlen with
  | m :: l :: rest, _ => exact absurd rfl (hshort m l rest)

/-- **Chunking does not matter**: a stream can be cut anywhere, as long as the
unfinished frame of the first part is carried over. -/
theorem scan_append (xs ys : List UInt8) :
    scan h (xs ++ ys) =
      ((scan h xs).1 ++ (scan h ((scan h xs).2 ++ ys)).1, (scan h ((scan h xs).2 ++ ys)).2) := by
  induction xs using scan.induct h with
  | case1 => simp
  | case2 m l rest len hlen ih =>
      simp only [List.cons_append, scan_oversize hlen]
      exact ih
  | case3 m l rest len hlen hrest ih =>
      have hr : m.toNat * 256 + l.toNat + 1 ≤ rest.length := hrest
      have hr' : m.toNat * 256 + l.toNat + 1 ≤ (rest ++ ys).length := by simp; omega
      simp only [List.cons_append, scan_frame hlen hr, scan_frame hlen hr',
        List.take_append_of_le_length hr, List.drop_append_of_le_length hr]
      rw [show scan h (rest.drop (m.toNat * 256 + l.toNat + 1) ++ ys) = _ from ih]
  | case4 m l rest len hlen hrest =>
      have hu : Unfinished h (h :: m :: l :: rest) := .of_incomplete hlen hrest
      simp [hu.scan]
  | case5 bs hshort =>
      have hu : Unfinished h (h :: bs) := .of_short hshort
      simp [hu.scan]
  | case6 b bs hne ih =>
      rw [List.cons_append, scan_skip hne, scan_skip hne]
      exact ih

theorem frames_append (xs ys : List UInt8) :
    frames h (xs ++ ys) = frames h xs ++ frames h (pending h xs ++ ys) := by
  simp only [frames, pending, scan_append xs ys]

theorem pending_append (xs ys : List UInt8) :
    pending h (xs ++ ys) = pending h (pending h xs ++ ys) := by
  simp only [pending, scan_append xs ys]

/-- A frame of a stream is shorter than the buffer. -/
theorem length_of_mem_frames (bs : List UInt8) :
    ∀ f ∈ frames h bs, f.length < uartProcotolMaxLen + 4 := by
  unfold frames
  induction bs using scan.induct h with
  | case1 => simp
  | case2 m l rest len hlen ih => rw [scan_oversize hlen]; exact ih
  | case3 m l rest len hlen hrest ih =>
      have hlen' : ¬ uartProcotolMaxLen ≤ m.toNat * 256 + l.toNat := hlen
      rw [scan_frame hlen hrest]
      intro f hf
      rcases List.mem_cons.mp hf with rfl | hf
      · simp only [List.length_cons, List.length_take]
        omega
      · exact ih f hf
  | case4 m l rest len hlen hrest =>
      have hu : Unfinished h (h :: m :: l :: rest) := .of_incomplete hlen hrest
      simp [hu.scan]
  | case5 bs hshort =>
      have hu : Unfinished h (h :: bs) := .of_short hshort
      simp [hu.scan]
  | case6 b bs hne ih => rw [scan_skip hne]; exact ih

/-! ### The automaton follows the reference parse -/

/-- The parser has read the unfinished frame `p` since it was last idle. -/
structure Tracks (h : UInt8) (r : Receiver) (p : List UInt8) : Prop where
  unfinished : Unfinished h p
  recvLen : r.recvLen = p.length
  buf : r.buf.bytes 0 p.length = p
  start : r.proctolStart = !p.isEmpty
  dataLen : 3 ≤ p.length → r.dataLen.toNat + p.length = lengthOf p + 4

theorem Mem.bytes_set_append {m : Mem} {p : List UInt8} {v : UInt8}
    (hp : m.bytes 0 p.length = p) : (m.set p.length v).bytes 0 (p ++ [v]).length = p ++ [v] := by
  have hsame : (m.set p.length v).bytes 0 p.length = m.bytes 0 p.length :=
    Mem.bytes_congr fun i hi => Mem.set_of_ne (by omega)
  rw [List.length_append, List.length_singleton, Mem.bytes_succ, hsame, hp]
  simp

/-- A buffer that begins with a frame has the frame's length field. -/
theorem hdrLength_of_bytes {c : Mem} {p : List UInt8} (hp : c.bytes 0 p.length = p)
    (hlen : 3 ≤ p.length) : hdrLength c = lengthOf p := by
  match p, hlen with
  | b :: m :: l :: rest, _ =>
      have h1 : c 1 = m := by
        have := congrArg (fun q => q[1]?) hp
        simpa [Mem.bytes] using this
      have h2 : c 2 = l := by
        have := congrArg (fun q => q[2]?) hp
        simpa [Mem.bytes] using this
      rw [hdrLength_eq, h1, h2]
      rfl

theorem lengthOf_append {p q : List UInt8} (hlen : 3 ≤ p.length) :
    lengthOf (p ++ q) = lengthOf p := by
  match p, hlen with
  | _ :: _ :: _ :: _, _ => rfl

theorem lengthOf_lt (p : List UInt8) : lengthOf p < 65536 := by
  match p with
  | [] | [_] | [_, _] => simp [lengthOf]
  | _ :: m :: l :: _ =>
      have := m.toNat_lt
      have := l.toNat_lt
      simp only [lengthOf]
      omega

/-- The remaining count after the length field, as a 32-bit value. -/
private theorem toNat_dataLen {n : Nat} (hn : n < 65536) :
    (UInt32.ofNat (n + 1)).toNat = n + 1 := by
  rw [UInt32.toNat_ofNat']
  exact Nat.mod_eq_of_lt (by omega)

theorem Tracks.idle {r : Receiver} (hlen : r.recvLen = 0) (hstart : r.proctolStart = false) :
    Tracks h r [] :=
  ⟨.nil, hlen, rfl, by simp [hstart], by simp⟩

/-- What one byte does: nothing more to read, an oversize header dropped, or the
last byte of a frame. -/
inductive ByteResult (h : UInt8) (p : List UInt8) (ch : UInt8) : Option Bool × Receiver → Prop
  | more {r : Receiver} : (scan h (p ++ [ch])).1 = [] → Tracks h r (scan h (p ++ [ch])).2 →
      ByteResult h p ch (none, r)
  | dropped {r : Receiver} : scan h (p ++ [ch]) = ([], []) → Tracks h r [] →
      ByteResult h p ch (some false, r)
  | frame {r : Receiver} : scan h (p ++ [ch]) = ([p ++ [ch]], []) → Tracks h r [] →
      frameBytes r.buf = p ++ [ch] → ByteResult h p ch (some true, r)

/-- Storing a byte of a frame: the unfinished frame grows by it. -/
theorem ByteResult.of_unfinished {r : Receiver} {p : List UInt8} {ch : UInt8}
    (hu : Unfinished h (p ++ [ch])) (hlen : r.recvLen = (p ++ [ch]).length)
    (hbuf : r.buf.bytes 0 (p ++ [ch]).length = p ++ [ch]) (hstart : r.proctolStart = true)
    (hdata : 3 ≤ (p ++ [ch]).length →
      r.dataLen.toNat + (p ++ [ch]).length = lengthOf (p ++ [ch]) + 4) :
    ByteResult h p ch (none, r) := by
  refine .more (by rw [hu.scan]) ?_
  rw [hu.scan]
  exact ⟨hu, hlen, hbuf, by simp [hstart], hdata⟩

/-- The last byte of a frame. -/
theorem scan_complete {p : List UInt8} {ch : UInt8} (hu : Unfinished h p) (hlen : 3 ≤ p.length)
    (hdone : p.length + 1 = lengthOf p + 4) : scan h (p ++ [ch]) = ([p ++ [ch]], []) := by
  match p, hu, hlen with
  | b :: m :: l :: rest, hu, _ =>
      obtain rfl : b = h := hu.head b (by simp)
      have hl := (hu.room (by simp)).1
      simp only [lengthOf, List.length_cons] at hl hdone
      have hr : (rest ++ [ch]).length = m.toNat * 256 + l.toNat + 1 := by simp; omega
      rw [List.cons_append, List.cons_append, List.cons_append, scan_frame (by omega) (by omega),
        ← hr, List.take_length, List.drop_length, scan_nil]

/-- Outside a frame: the header starts one, any other byte is skipped. -/
theorem recvByte_idle {r : Receiver} (hr : Tracks h r []) (ch : UInt8) :
    ByteResult h [] ch (recvByte h r ch) := by
  have hstart : r.proctolStart = false := by simpa using hr.start
  have hlen : r.recvLen = 0 := hr.recvLen
  by_cases hch : ch = h
  · subst hch
    have hu : Unfinished ch [ch] := ⟨by simp, by simp⟩
    simp only [recvByte, hstart, and_self, if_true, hlen, Nat.zero_add]
    refine .more (by rw [List.nil_append, hu.scan]) ?_
    rw [List.nil_append, hu.scan]
    exact ⟨hu, rfl, by simp [Mem.bytes, List.range_succ], rfl, by simp⟩
  · have hs : scan h ([] ++ [ch]) = ([], []) := by
      rw [List.nil_append, scan_skip hch, scan_nil]
    simp only [recvByte, hch, hstart, false_and, if_false]
    exact .more (by rw [hs]) (by rw [hs]; exact .idle hlen hstart)

/-- The byte after the header is stored. -/
theorem recvByte_second {r : Receiver} {b : UInt8} (hr : Tracks h r [b]) (ch : UInt8) :
    ByteResult h [b] ch (recvByte h r ch) := by
  obtain rfl : b = h := hr.unfinished.head b (by simp)
  have hstart : r.proctolStart = true := by simpa using hr.start
  have hlen : r.recvLen = 1 := hr.recvLen
  have hbuf := Mem.bytes_set_append (v := ch) hr.buf
  simp only [recvByte, hstart, hlen, Bool.true_eq_false, and_false, if_false, if_true]
  exact .of_unfinished ⟨by simp, by simp⟩ rfl hbuf rfl (by simp)

/-- The third byte completes the length field: an oversize frame is dropped, and
the count of the remaining bytes starts otherwise. -/
theorem recvByte_length {r : Receiver} {b m : UInt8} (hr : Tracks h r [b, m]) (ch : UInt8) :
    ByteResult h [b, m] ch (recvByte h r ch) := by
  obtain rfl : b = h := hr.unfinished.head b (by simp)
  have hstart : r.proctolStart = true := by simpa using hr.start
  have hlen : r.recvLen = 2 := hr.recvLen
  have hbuf := Mem.bytes_set_append (v := ch) hr.buf
  have hhdr : hdrLength (r.buf.set 2 ch) = m.toNat * 256 + ch.toNat :=
    hdrLength_of_bytes (p := [b, m] ++ [ch]) hbuf (by simp)
  have hlt : m.toNat * 256 + ch.toNat < 65536 := lengthOf_lt [b, m, ch]
  have hnat := toNat_dataLen hlt
  have hne : UInt32.ofNat (m.toNat * 256 + ch.toNat + 1) ≠ 0 := by
    intro h0
    rw [h0] at hnat
    simp at hnat
  have hgt : UInt32.ofNat (m.toNat * 256 + ch.toNat + 1) > UInt32.ofNat uartProcotolMaxLen ↔
      uartProcotolMaxLen ≤ m.toNat * 256 + ch.toNat := by
    rw [gt_iff_lt, UInt32.lt_iff_toNat_lt, hnat]
    change 400 < _ ↔ 400 ≤ _
    omega
  simp only [recvByte, hstart, hlen, Bool.true_eq_false, and_false, if_false, if_true, hhdr,
    if_neg hne]
  by_cases hbig : uartProcotolMaxLen ≤ m.toNat * 256 + ch.toNat
  · rw [if_pos (hgt.mpr hbig)]
    have hs : scan b ([b, m] ++ [ch]) = ([], []) := by
      rw [List.cons_append, List.cons_append, List.nil_append, scan_oversize hbig, scan_nil]
    exact .dropped hs (.idle rfl rfl)
  · rw [if_neg fun hh => hbig (hgt.mp hh)]
    refine .of_unfinished (.of_incomplete hbig (by simp)) rfl hbuf rfl ?_
    intro _
    change (UInt32.ofNat (m.toNat * 256 + ch.toNat + 1)).toNat + 3 =
      m.toNat * 256 + ch.toNat + 4
    rw [hnat]

/-- After the length field the remaining count goes down with every byte, and the
frame ends where it reaches zero. -/
theorem recvByte_rest {r : Receiver} {p : List UInt8} (hr : Tracks h r p) (hge : 3 ≤ p.length)
    (ch : UInt8) : ByteResult h p ch (recvByte h r ch) := by
  have hne : p ≠ [] := by
    rintro rfl
    simp at hge
  have hstart : r.proctolStart = true := by
    rw [hr.start]
    simp [hne]
  have hlen : r.recvLen = p.length := hr.recvLen
  have hbuf := Mem.bytes_set_append (v := ch) hr.buf
  obtain ⟨hroom, hshort⟩ := hr.unfinished.room hge
  have hdata := hr.dataLen hge
  have hpos : (1 : UInt32) ≤ r.dataLen := by
    rw [UInt32.le_iff_toNat_le]
    change 1 ≤ _
    omega
  have hsub : (r.dataLen - 1).toNat = r.dataLen.toNat - 1 := UInt32.toNat_sub_of_le _ _ hpos
  have hzero : r.dataLen - 1 = 0 ↔ r.dataLen.toNat = 1 := by
    rw [← UInt32.toNat_inj, hsub]
    change _ = 0 ↔ _
    omega
  have hlenOf := lengthOf_append (q := [ch]) hge
  have hlength : (p ++ [ch]).length = p.length + 1 := List.length_append
  have hthird : ¬ p.length + 1 = 3 := by omega
  have hlater : p.length + 1 > 3 := by omega
  simp only [recvByte, hstart, hlen, Bool.true_eq_false, and_false, if_false, if_true,
    if_neg hthird, if_pos hlater]
  by_cases hdone : r.dataLen - 1 = 0
  · rw [if_pos hdone]
    have h1 := hzero.mp hdone
    refine .frame (scan_complete hr.unfinished hge (by omega)) (.idle rfl rfl) ?_
    have hhdr := hdrLength_of_bytes hbuf (by omega)
    change (r.buf.set p.length ch).bytes 0 (hdrLength (r.buf.set p.length ch) + 4) = _
    rw [hhdr, hlenOf, show lengthOf p + 4 = (p ++ [ch]).length by omega]
    exact hbuf
  · rw [if_neg hdone]
    have h1 : r.dataLen.toNat ≠ 1 := fun hh => hdone (hzero.mpr hh)
    have hgrown : Unfinished h (p ++ [ch]) := by
      constructor
      · intro b hb
        rw [List.head?_append_of_ne_nil _ hne] at hb
        exact hr.unfinished.head b hb
      · intro _
        rw [hlenOf, hlength]
        omega
    refine .of_unfinished hgrown (by simp [hlength]) hbuf rfl ?_
    intro _
    rw [hlenOf, hlength]
    change (r.dataLen - 1).toNat + _ = _
    rw [hsub]
    omega

theorem recvByte_spec {r : Receiver} {p : List UInt8} (hr : Tracks h r p) (ch : UInt8) :
    ByteResult h p ch (recvByte h r ch) := by
  rcases p with _ | ⟨b, _ | ⟨m, _ | ⟨l, p⟩⟩⟩
  · exact recvByte_idle hr ch
  · exact recvByte_second hr ch
  · exact recvByte_length hr ch
  · exact recvByte_rest hr (by simp) ch

theorem recvByte_ring (r : Receiver) (ch : UInt8) : (recvByte h r ch).2.ring = r.ring := by
  unfold recvByte
  dsimp only
  split_ifs <;> rfl

theorem appGet_none {r : ByteRing} (hr : appGet r = none) : r.contents = [] := by
  unfold appGet at hr
  split at hr
  · rename_i heq
    exact RingBuffer.contents_eq_nil_iff.mpr heq
  · exact absurd hr (by simp)

theorem appGet_some {r ring : ByteRing} {ch : UInt8} (hr : appGet r = some (ch, ring)) :
    r.contents = ch :: ring.contents := by
  unfold appGet at hr
  split at hr
  · exact absurd hr (by simp)
  · rename_i hne
    simp only [Option.some.injEq, Prod.mk.injEq] at hr
    obtain ⟨rfl, rfl⟩ := hr
    exact RingBuffer.contents_eq_cons hne

/-- What one call of `uart_get_data` or `ble_get_data` does: it reads some bytes
of the ring, in order, and returns true exactly with the frame they complete. -/
inductive CallResult (h : UInt8) (p : List UInt8) (r : Receiver) : Bool × Receiver → Prop
  | frame {c : List UInt8} {r' : Receiver} : r.ring.contents = c ++ r'.ring.contents →
      scan h (p ++ c) = ([frameBytes r'.buf], []) → Tracks h r' [] → CallResult h p r (true, r')
  | none {c : List UInt8} {r' : Receiver} : r.ring.contents = c ++ r'.ring.contents →
      (scan h (p ++ c)).1 = [] → Tracks h r' (scan h (p ++ c)).2 → CallResult h p r (false, r')

/-- Reading one byte first and then the rest. -/
theorem CallResult.cons {r r₁ : Receiver} {p : List UInt8} {ch : UInt8} {res : Bool × Receiver}
    (hcontents : r.ring.contents = ch :: r₁.ring.contents) (hnone : (scan h (p ++ [ch])).1 = [])
    (hres : CallResult h (scan h (p ++ [ch])).2 r₁ res) : CallResult h p r res := by
  have hsplit : ∀ read, scan h (p ++ ch :: read) = scan h ((scan h (p ++ [ch])).2 ++ read) := by
    intro read
    rw [← List.singleton_append, ← List.append_assoc, scan_append (p ++ [ch]) read, hnone,
      List.nil_append]
  cases hres with
  | @frame read r' hread hscan htracks =>
      exact .frame (c := ch :: read) (by rw [hcontents, hread]; rfl)
        (by rw [hsplit]; exact hscan) htracks
  | @none read r' hread hscan htracks =>
      exact .none (c := ch :: read) (by rw [hcontents, hread]; rfl)
        (by rw [hsplit]; exact hscan) (by rw [hsplit]; exact htracks)

theorem getDataLoop_spec {fuel : Nat} {r : Receiver} {p : List UInt8} (hfuel : r.ring.count < fuel)
    (hr : Tracks h r p) : CallResult h p r (getDataLoop h fuel r) := by
  induction fuel generalizing r p with
  | zero => exact absurd hfuel (Nat.not_lt_zero _)
  | succ fuel ih =>
      have hself : scan h p = ([], p) := hr.unfinished.scan
      unfold getDataLoop
      cases hget : appGet r.ring with
      | none =>
          exact .none (c := []) rfl (by rw [List.append_nil, hself])
            (by rw [List.append_nil, hself]; exact hr)
      | some res =>
          obtain ⟨ch, ring⟩ := res
          have hcontents := appGet_some hget
          have htracks : Tracks h { r with ring } p :=
            ⟨hr.unfinished, hr.recvLen, hr.buf, hr.start, hr.dataLen⟩
          have hbyte := recvByte_spec htracks ch
          have hring := recvByte_ring (h := h) { r with ring } ch
          simp only
          generalize recvByte h { r with ring } ch = out at hbyte hring
          cases hbyte with
          | @more r₁ hnone htr =>
              simp only at hring ⊢
              have hcount : r₁.ring.count < fuel := by
                have hc := congrArg List.length hcontents
                simp only [List.length_cons, RingBuffer.length_contents] at hc
                rw [hring]
                omega
              exact .cons (by rw [hring]; exact hcontents) hnone (ih hcount htr)
          | @dropped r₁ hscan htr =>
              simp only at hring ⊢
              exact .none (c := [ch]) (by rw [hring]; exact hcontents) (by rw [hscan])
                (by rw [hscan]; exact htr)
          | @frame r₁ hscan htr hbuf =>
              simp only at hring ⊢
              exact .frame (c := [ch]) (by rw [hring]; exact hcontents)
                (by rw [hscan, hbuf]) htr

/-- **One call of the framing automaton**, from any state it can be in. -/
theorem getData_spec {r : Receiver} {p : List UInt8} (hr : Tracks h r p) :
    CallResult h p r (getData h r) :=
  getDataLoop_spec r.ring.count_lt hr

end WifiExpander
