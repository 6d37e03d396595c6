import WifiExpander.Uplink

/-!
Does a client get its frames whatever the client before it has written?

`ble_recv_array` and the variables of `ble_get_data` outlive a connection: where
`Ble_Notify_Task` flushes `notify_array`, nothing resets them when a connection is
closed. Runs over two connections are compared with runs over each of them alone.

A GATT write needs a connection, and there is one at a time. `wrote` is not part of
the program.
-/

namespace WifiExpander

open WifiExpander.Theory

/-! ### What a cut frame does to the next bytes -/

variable {h : UInt8}

/-- What a stream leaves is one unfinished frame. -/
theorem unfinished_pending (bs : List UInt8) : Unfinished h (pending h bs) := by
  unfold pending
  induction bs using scan.induct h with
  | case1 =>
      rw [scan_nil]
      exact .nil
  | case2 m l rest len hlen ih =>
      rw [scan_oversize hlen]
      exact ih
  | case3 m l rest len hlen hrest ih =>
      rw [scan_frame hlen hrest]
      exact ih
  | case4 m l rest len hlen hrest =>
      have hu : Unfinished h (h :: m :: l :: rest) := .of_incomplete hlen hrest
      rw [hu.scan]
      exact hu
  | case5 bs hshort =>
      have hu : Unfinished h (h :: bs) := .of_short hshort
      rw [hu.scan]
      exact hu
  | case6 b bs hne ih =>
      rw [scan_skip hne]
      exact ih

theorem frames_zeros (hzero : h ≠ 0) (k : Nat) : frames h (List.replicate k 0) = [] := by
  unfold frames
  induction k with
  | zero => rw [List.replicate_zero, scan_nil]
  | succ k ih => rw [List.replicate_succ, scan_skip hzero.symm, ih]

theorem frames_ne_nil {m l : UInt8} {rest : List UInt8}
    (hlen : m.toNat * 256 + l.toNat < uartProcotolMaxLen)
    (hrest : m.toNat * 256 + l.toNat + 1 ≤ rest.length) : frames h (h :: m :: l :: rest) ≠ [] := by
  rw [frames, scan_frame (Nat.not_le_of_lt hlen) hrest]
  exact List.cons_ne_nil _ _

/-- **A cut frame is never harmless**: some bytes complete it, or lose a frame to it. -/
theorem Unfinished.exists_spoiled {p : List UInt8} (hp : Unfinished h p) (hne : p ≠ [])
    (hzero : h ≠ 0) : ∃ ys, frames h (p ++ ys) ≠ frames h ys := by
  match p, hp, hne with
  | [b], hp, _ =>
      obtain rfl : b = h := hp.head b (by simp)
      refine ⟨List.replicate 3 0, ?_⟩
      rw [frames_zeros hzero]
      exact frames_ne_nil (by decide) (by decide)
  | [b, m], hp, _ =>
      obtain rfl : b = h := hp.head b (by simp)
      by_cases hlen : m.toNat * 256 + (0 : UInt8).toNat < uartProcotolMaxLen
      · refine ⟨List.replicate (m.toNat * 256 + 2) 0, ?_⟩
        rw [frames_zeros hzero]
        exact frames_ne_nil hlen (by simp)
      · -- with any third byte the two are an oversize header
        refine ⟨[b, 0, 0, 0], ?_⟩
        have hbig : uartProcotolMaxLen ≤ m.toNat * 256 + b.toNat := by
          have : (0 : UInt8).toNat = 0 := rfl
          omega
        have hdropped : frames b ([b, m] ++ [b, 0, 0, 0]) = [] := by
          have := frames_zeros hzero 3
          rw [frames] at this ⊢
          rw [List.cons_append, List.cons_append, List.nil_append, scan_oversize hbig]
          exact this
        rw [hdropped]
        exact (frames_ne_nil (by decide) (by decide)).symm
  | b :: m :: l :: rest, hp, _ =>
      obtain rfl : b = h := hp.head b (by simp)
      have hlen := (hp.room (by simp)).1
      refine ⟨List.replicate (m.toNat * 256 + l.toNat + 1) 0, ?_⟩
      rw [frames_zeros hzero, List.cons_append, List.cons_append, List.cons_append]
      refine frames_ne_nil hlen ?_
      rw [List.length_append, List.length_replicate]
      omega

/-! ### Connections -/

/-- The rest of the loop of `App_Ble_Parse_Task`, once `ble_get_data` has returned
true: the entry it links, if there is a buffer. -/
def Uplink.forward (s : Uplink) (entry : Option UartSendFormat) : Uplink :=
  match s.phase with
  | .framed =>
      match entry with
      | some f => appBleParseTask.linked (appBleParseTask.took s true) f
      | none => appBleParseTask.took s false
  | _ => s

/-- Nothing is left to be read or forwarded. -/
structure Uplink.Consumed (u : Uplink) : Prop where
  ring : u.ble.ring.contents = []
  phase : u.phase = .reading

structure Clients where
  uplink : Uplink
  bleConnState : UInt8
  /-- the bytes written over each connection, the last one first -/
  wrote : List (List UInt8)

inductive ClientEvent where
  | opened
  | closed
  /-- the write branch of `BluetoothEventHandler`, or a part of its loop -/
  | write (data : List UInt8)
  /-- an iteration of the loop of `ble_get_data` -/
  | iter
  | forward (entry : Option UartSendFormat)

/-- `data` belongs to the last connection. -/
def wroteMore (data : List UInt8) : List (List UInt8) → List (List UInt8)
  | [] => [data]
  | bytes :: rest => (bytes ++ data) :: rest

namespace Clients

def step (s : Clients) : ClientEvent → Option Clients
  | .opened =>
      if s.bleConnState = 1 then none
      else some { s with bleConnState := 1, wrote := [] :: s.wrote }
  | .closed => if s.bleConnState = 1 then some { s with bleConnState := 0 } else none
  | .write data =>
      if s.bleConnState = 1 then
        some { s with uplink := s.uplink.step (.write data), wrote := wroteMore data s.wrote }
      else none
  | .iter => some { s with uplink := s.uplink.step .iter }
  | .forward entry => some { s with uplink := s.uplink.forward entry }

def machine : Machine Clients ClientEvent := ⟨step⟩

/-- Before the first connection; `ble_recv_buf` holds anything. -/
def start (buf : Mem) : Clients := ⟨Uplink.start buf, 0, []⟩

/-- `ble_recv_array` takes no more than 1023 unread bytes. -/
def Room (s : Clients) : ClientEvent → Prop
  | .write data => s.uplink.Room (.write data)
  | .opened | .closed | .iter | .forward _ => True

instance (s : Clients) : ∀ e, Decidable (s.Room e)
  | .write data => inferInstanceAs (Decidable (s.uplink.Room (.write data)))
  | .opened | .closed | .iter | .forward _ => isTrue trivial

/-- The frames that `App_Ble_Parse_Task` has taken from `ble_get_data` to forward. -/
def forwarded (s : Clients) : List (List UInt8) := s.uplink.asked.map Prod.fst

/-- A run over these clients' connections, one after the other, can end in `s` with
all their bytes consumed. -/
def Serves (clients : List (List UInt8)) (s : Clients) : Prop :=
  s.uplink.Consumed ∧ s.wrote = clients.reverse ∧
    ∃ buf es, machine.Guarded Room (start buf) es ∧ machine.run (start buf) es = some s

/-- The second client's frames are those it would have alone. -/
def Separate (first second : List UInt8) : Prop :=
  ∀ both alone next, Serves [first, second] both → Serves [first] alone → Serves [second] next →
    both.forwarded = alone.forwarded ++ next.forwarded

/-! ### Every run -/

variable {s s' : Clients} {b : UInt8}

/-- What is written is parsed, over all connections. -/
structure Inv (s : Clients) : Prop where
  reads : s.uplink.Reads
  written : s.uplink.written = s.wrote.reverse.flatten

theorem wroteMore_flatten (data : List UInt8) (wrote : List (List UInt8)) :
    (wroteMore data wrote).reverse.flatten = wrote.reverse.flatten ++ data := by
  cases wrote with
  | nil => simp [wroteMore]
  | cons bytes rest => simp [wroteMore]

theorem forward_reads {u : Uplink} (h : u.Reads) (entry : Option UartSendFormat) :
    (u.forward entry).Reads := by
  unfold Uplink.forward
  cases hphase : u.phase with
  | framed =>
      obtain ⟨bs, hwritten, hframes, htracks⟩ := h
      cases entry with
      | some f =>
          refine ⟨bs, hwritten, ?_, htracks⟩
          simpa [Uplink.appBleParseTask, Uplink.waiting, hphase] using hframes
      | none =>
          refine ⟨bs, hwritten, ?_, htracks⟩
          simpa [Uplink.appBleParseTask, Uplink.waiting, hphase] using hframes
  | reading | sending => exact h

theorem written_forward (u : Uplink) (entry : Option UartSendFormat) :
    (u.forward entry).written = u.written := by
  unfold Uplink.forward
  cases u.phase with
  | framed => cases entry <;> rfl
  | reading | sending => rfl

theorem written_iter (u : Uplink) : (u.step .iter).written = u.written := by
  simp only [Uplink.step]
  cases u.phase with
  | reading => rcases getIter wifiampAppHeader u.ble with ⟨_ | _ | _, ble⟩ <;> rfl
  | framed | sending => rfl

theorem Inv.step (h : s.Inv) {e : ClientEvent} (hroom : s.Room e) (hstep : s.step e = some s') :
    s'.Inv := by
  unfold Clients.step at hstep
  cases e with
  | opened =>
      dsimp only at hstep
      split at hstep
      · cases hstep
      · cases hstep
        refine ⟨h.reads, ?_⟩
        simpa using h.written
  | closed =>
      dsimp only at hstep
      split at hstep
      · cases hstep
        exact ⟨h.reads, h.written⟩
      · cases hstep
  | write data =>
      dsimp only at hstep
      split at hstep
      · cases hstep
        refine ⟨h.reads.write hroom, ?_⟩
        rw [wroteMore_flatten, ← h.written]
        rfl
      · cases hstep
  | iter =>
      cases hstep
      exact ⟨h.reads.iter, (written_iter _).trans h.written⟩
  | forward entry =>
      cases hstep
      exact ⟨forward_reads h.reads entry, (written_forward _ _).trans h.written⟩

/-- Once all is consumed, the frames are those of all bytes, whosever they are. -/
theorem forwarded_of_serves {clients : List (List UInt8)} (h : Serves clients s) :
    s.forwarded = frames wifiampAppHeader clients.flatten := by
  obtain ⟨consumed, hwrote, buf, es, guarded, hrun⟩ := h
  have hstep : ∀ s e s', Inv s → Room s e → machine.step s e = some s' → Inv s' := by
    intro s e s' hs hroom hstep
    exact hs.step hroom hstep
  have hinv : s.Inv := Machine.run_invariant hstep ⟨Uplink.Reads.start buf, rfl⟩ guarded hrun
  obtain ⟨bs, hwritten, hframes, -⟩ := hinv.reads
  have hbs : bs = clients.flatten := by
    have := hinv.written
    rw [hwritten, consumed.ring, hwrote, List.append_nil, List.reverse_reverse] at this
    exact this
  have hwaiting : s.uplink.waiting = [] := by
    rw [Uplink.waiting, consumed.phase]
  rw [hwaiting, List.append_nil, hbs] at hframes
  exact hframes.symm

/-! ### Bytes that are consumed one by one -/

/-- A connection over which everything written has been consumed. -/
structure Served (s : Clients) : Prop where
  consumed : s.uplink.Consumed
  opened : s.bleConnState = 1

theorem contents_getIter {r : Receiver} {bs : List UInt8} (hr : r.ring.contents = b :: bs) :
    (getIter h r).2.ring.contents = bs := by
  unfold getIter
  cases hget : appGet r.ring with
  | none =>
      rw [appGet_none hget] at hr
      cases hr
  | some res =>
      obtain ⟨ch, ring⟩ := res
      rw [appGet_some hget] at hr
      rw [recvByte_ring]
      exact (List.cons.inj hr).2

/-- Reading the last byte and forwarding what it completes. -/
theorem consumed_of_singleton {u : Uplink} (hcontents : u.ble.ring.contents = [b])
    (hphase : u.phase = .reading) : ((u.step .iter).forward none).Consumed := by
  have hread := contents_getIter (h := wifiampAppHeader) hcontents
  simp only [Uplink.step, hphase]
  rcases hiter : getIter wifiampAppHeader u.ble with ⟨_ | _ | _, ble⟩
  all_goals rw [hiter] at hread
  · exact ⟨by simpa [Uplink.forward] using hread, by simp [Uplink.forward]⟩
  · exact ⟨by simpa [Uplink.forward] using hread, by simp [Uplink.forward]⟩
  · exact ⟨by simpa [Uplink.forward, Uplink.appBleParseTask] using hread,
      by simp [Uplink.forward, Uplink.appBleParseTask]⟩

theorem steps_byte (hs : s.Served) (b : UInt8) :
    ∃ s', Relation.ReflTransGen (machine.Steps Room) s s' ∧ s'.Served ∧
      s'.wrote = wroteMore [b] s.wrote := by
  have hroom : s.Room (.write [b]) := by
    change s.uplink.ble.ring.count + 1 ≤ 1023
    rw [RingBuffer.count_eq_zero_iff.mpr (RingBuffer.contents_eq_nil_iff.mp hs.consumed.ring)]
    decide
  have hwrite : s.step (.write [b]) = some
      { s with uplink := s.uplink.step (.write [b]), wrote := wroteMore [b] s.wrote } :=
    if_pos hs.opened
  have hcontents : (s.uplink.step (.write [b])).ble.ring.contents = [b] := by
    simp only [Uplink.step]
    rw [RingBuffer.contents_pushAll (Nat.lt_succ_of_le hroom), hs.consumed.ring, List.nil_append]
  refine ⟨{ s with
    uplink := ((s.uplink.step (.write [b])).step .iter).forward none
    wrote := wroteMore [b] s.wrote }, ?_, ?_, rfl⟩
  · refine .head ⟨.write [b], hroom, hwrite⟩ ?_
    refine .head ⟨.iter, trivial, rfl⟩ ?_
    exact .single ⟨.forward none, trivial, rfl⟩
  · constructor
    · exact consumed_of_singleton hcontents hs.consumed.phase
    · exact hs.opened

theorem steps_bytes (bs : List UInt8) {bytes : List UInt8} {rest : List (List UInt8)}
    (hs : s.Served) (hwrote : s.wrote = bytes :: rest) :
    ∃ s', Relation.ReflTransGen (machine.Steps Room) s s' ∧ s'.Served ∧
      s'.wrote = (bytes ++ bs) :: rest := by
  induction bs generalizing s bytes with
  | nil => exact ⟨s, .refl, hs, by rw [hwrote, List.append_nil]⟩
  | cons b bs ih =>
      obtain ⟨m, hsteps, hm, hmwrote⟩ := steps_byte hs b
      rw [hwrote] at hmwrote
      obtain ⟨s', hsteps', hs', hwrote'⟩ := ih hm hmwrote
      refine ⟨s', hsteps.trans hsteps', hs', ?_⟩
      rw [hwrote', List.append_assoc]
      rfl

/-- A whole connection. -/
theorem steps_client (client : List UInt8) (hs : s.uplink.Consumed) (hclosed : s.bleConnState = 0) :
    ∃ s', Relation.ReflTransGen (machine.Steps Room) s s' ∧ s'.uplink.Consumed ∧
      s'.bleConnState = 0 ∧ s'.wrote = client :: s.wrote := by
  have hopen : s.step .opened = some { s with bleConnState := 1, wrote := [] :: s.wrote } := by
    rw [step, hclosed]
    rfl
  obtain ⟨m, hsteps, hm, hmwrote⟩ := steps_bytes client
    (s := { s with bleConnState := 1, wrote := [] :: s.wrote }) ⟨hs, rfl⟩ rfl
  have hclose : m.step .closed = some { m with bleConnState := 0 } := if_pos hm.opened
  refine ⟨{ m with bleConnState := 0 }, ?_, hm.consumed, rfl, hmwrote⟩
  refine .head ⟨.opened, trivial, hopen⟩ (hsteps.trans ?_)
  exact .single ⟨.closed, trivial, hclose⟩

theorem exists_serves (clients : List (List UInt8)) : ∃ s, Serves clients s := by
  have hsteps : ∀ cs : List (List UInt8), ∃ s,
      Relation.ReflTransGen (machine.Steps Room) (start fun _ => 0) s ∧ s.uplink.Consumed ∧
        s.bleConnState = 0 ∧ s.wrote = cs := by
    intro cs
    induction cs with
    | nil => exact ⟨_, .refl, ⟨RingBuffer.contents_eq_nil_iff.mpr rfl, rfl⟩, rfl, rfl⟩
    | cons c cs ih =>
        obtain ⟨m, hm, hconsumed, hclosed, hwrote⟩ := ih
        obtain ⟨s, hs, hconsumed', hclosed', hwrote'⟩ := steps_client c hconsumed hclosed
        exact ⟨s, hm.trans hs, hconsumed', hclosed', by rw [hwrote', hwrote]⟩
  obtain ⟨s, hs, hconsumed, -, hwrote⟩ := hsteps clients.reverse
  obtain ⟨es, guarded, hrun⟩ := Machine.exists_guarded_run hs
  exact ⟨s, hconsumed, hwrote, fun _ => 0, es, guarded, hrun⟩

/-! ### Two connections -/

theorem separate_iff_frames {first second : List UInt8} : Separate first second ↔
    frames wifiampAppHeader (pending wifiampAppHeader first ++ second) =
      frames wifiampAppHeader second := by
  have hboth : frames wifiampAppHeader [first, second].flatten = frames wifiampAppHeader first ++
      frames wifiampAppHeader (pending wifiampAppHeader first ++ second) := by
    rw [← frames_append]
    simp
  constructor
  · intro hseparate
    obtain ⟨both, serves⟩ := exists_serves [first, second]
    obtain ⟨alone, serves₁⟩ := exists_serves [first]
    obtain ⟨next, serves₂⟩ := exists_serves [second]
    have heq := hseparate both alone next serves serves₁ serves₂
    rw [forwarded_of_serves serves, forwarded_of_serves serves₁, forwarded_of_serves serves₂, hboth,
      List.flatten_singleton, List.flatten_singleton] at heq
    exact List.append_cancel_left heq
  · intro heq both alone next serves serves₁ serves₂
    rw [forwarded_of_serves serves, forwarded_of_serves serves₁, forwarded_of_serves serves₂, hboth,
      List.flatten_singleton, List.flatten_singleton, heq]

/-- Whatever the next client writes. -/
theorem separate_iff (first : List UInt8) :
    (∀ second, Separate first second) ↔ pending wifiampAppHeader first = [] := by
  constructor
  · intro hseparate
    by_contra hcut
    obtain ⟨second, hspoiled⟩ := (unfinished_pending first).exists_spoiled hcut (by decide)
    exact hspoiled (separate_iff_frames.mp (hseparate second))
  · intro hwhole second
    rw [separate_iff_frames, hwhole]
    rfl

/-- A frame cut before its last byte is completed with the header of the next. -/
theorem cut_frame_completed : ¬ Separate [0xC0, 0, 1, 7] [0xC0, 0, 0, 0] := by
  intro hseparate
  have heq := separate_iff_frames.mp hseparate
  have hcut : Unfinished wifiampAppHeader [0xC0, 0, 1, 7] :=
    .of_incomplete (by decide) (by decide)
  rw [pending, hcut.scan] at heq
  simp [frames, scan, wifiampAppHeader, uartProcotolMaxLen] at heq

end Clients

end WifiExpander
