import WifiExpander.Bridge

/-!
Are unread bytes overwritten?

The three rings (`UartRecvBuf`, `ble_recv_array`, `notify_array`) have no count, and
their writers never look at the read index. Each ring carries the requests made of
it and the bytes taken from it. As long as every request fits, what was taken and
what is unread are whole requests, in order. A request that does not fit makes the
ring look emptier than it is and splices its bytes with older ones.
-/

namespace WifiExpander

open WifiExpander.Theory

/-- A ring, the write requests made of it, the bytes taken from it, and whether a
write has ever made it look empty while it was not. -/
structure TracedRing where
  ring : ByteRing
  requests : List (List UInt8)
  taken : List UInt8
  blanked : Bool

namespace TracedRing

def empty : TracedRing := ⟨Device.emptyRing, [], [], false⟩

/-- The loops of `uart_recv`, of the write branch of `BluetoothEventHandler` and of
`uart_protocol_parse` -/
def write (data : List UInt8) (t : TracedRing) : TracedRing :=
  let ring := t.ring.pushAll data
  ⟨ring, t.requests ++ [data], t.taken,
    t.blanked || (decide (t.ring.pOut ≠ t.ring.pIn) && decide (ring.pOut = ring.pIn))⟩

/-- `app_uart_get` and `app_ble_get` -/
def get (t : TracedRing) : TracedRing :=
  match appGet t.ring with
  | none => t
  | some (ch, ring) => { t with ring, taken := t.taken ++ [ch] }

/-- A round of `Ble_Notify_Task`. Without a connection everything unread is
discarded; a payload that the stack refuses stays. -/
def notify (bleConnState : UInt8) (bleMtu : UInt16) (ok : Bool) (t : TracedRing) : TracedRing :=
  let (payload, ring) := bleNotify bleConnState bleMtu ok t.ring
  let out :=
    if bleConnState = 0 then t.ring.contents
    else if ok then payload.getD [] else []
  { t with ring, taken := t.taken ++ out }

/-- What was taken and what is unread are whole requests in their order, and no
write has hidden unread bytes. -/
structure Intact (t : TracedRing) : Prop where
  whole : ∃ kept : List (List UInt8), kept.Sublist t.requests ∧
    t.taken ++ t.ring.contents = kept.flatten
  unhidden : t.blanked = false

variable {t : TracedRing}

theorem empty_intact : empty.Intact := by
  constructor
  · exact ⟨[], List.nil_sublist _, rfl⟩
  · rfl

/-- Taking the first unread bytes. -/
theorem Intact.take (h : t.Intact) {out : List UInt8} {ring : ByteRing}
    (hsplit : t.ring.contents = out ++ ring.contents) :
    Intact { t with ring, taken := t.taken ++ out } := by
  obtain ⟨kept, hsub, hall⟩ := h.whole
  refine ⟨⟨kept, hsub, ?_⟩, h.unhidden⟩
  rw [← hall, hsplit]
  exact List.append_assoc _ _ _

theorem Intact.write (h : t.Intact) {data : List UInt8}
    (hfits : t.ring.count + data.length < ringSize) : (t.write data).Intact := by
  have hcontents := RingBuffer.contents_pushAll hfits
  obtain ⟨kept, hsub, hall⟩ := h.whole
  constructor
  · refine ⟨kept ++ [data], hsub.append (List.Sublist.refl _), ?_⟩
    change t.taken ++ (t.ring.pushAll data).contents = _
    rw [hcontents, ← List.append_assoc, hall, List.flatten_concat]
  · have hseen : t.ring.pOut ≠ t.ring.pIn →
        (t.ring.pushAll data).pOut ≠ (t.ring.pushAll data).pIn := by
      intro hne heq
      have hnil := RingBuffer.contents_eq_nil_iff.mpr heq
      rw [hcontents] at hnil
      exact hne (RingBuffer.contents_eq_nil_iff.mp (List.append_eq_nil_iff.mp hnil).1)
    unfold TracedRing.write
    simp only [h.unhidden, Bool.false_or, Bool.and_eq_false_imp, decide_eq_true_eq,
      decide_eq_false_iff_not]
    exact hseen

theorem Intact.get (h : t.Intact) : t.get.Intact := by
  unfold TracedRing.get
  by_cases hempty : t.ring.pOut = t.ring.pIn
  · rw [appGet, if_pos hempty]
    exact h
  · rw [appGet, if_neg hempty]
    exact h.take (RingBuffer.contents_eq_cons hempty)

theorem notifyLen_le (bleMtu : UInt16) (lenRemain : Nat) :
    (notifyLen bleMtu lenRemain).toNat ≤ lenRemain := by
  rw [notifyLen, UInt8.toNat_ofNat']
  refine (Nat.mod_le _ _).trans ?_
  split <;> omega

theorem Intact.notify (h : t.Intact) (bleConnState : UInt8) (bleMtu : UInt16) (ok : Bool) :
    (t.notify bleConnState bleMtu ok).Intact := by
  unfold TracedRing.notify bleNotify
  by_cases hclosed : bleConnState = 0
  · simp only [hclosed, if_true]
    apply h.take
    have hnil : ({ t.ring with pOut := t.ring.pIn } : ByteRing).contents = [] :=
      RingBuffer.contents_eq_nil_iff.mpr rfl
    rw [hnil, List.append_nil]
  · simp only [hclosed, if_false]
    by_cases hempty : t.ring.pOut = t.ring.pIn
    · simp only [hempty, if_true, Option.getD_none, ite_self]
      exact h.take rfl
    · simp only [hempty, if_false, Option.getD_some]
      cases ok with
      | false => exact h.take rfl
      | true =>
          have hlen := notifyLen_le bleMtu t.ring.count
          apply h.take
          rw [if_pos rfl, if_pos rfl, RingBuffer.window_pOut hlen, RingBuffer.contents_skip hlen,
            List.take_append_drop]

end TracedRing

/-! ### The three rings -/

structure Rings where
  uartRecvBuf : TracedRing
  bleRecvArray : TracedRing
  notifyArray : TracedRing

inductive RingEvent where
  /-- `uart_recv` -/
  | uartRecv (data : List UInt8)
  /-- `app_uart_get` -/
  | uartGet
  /-- a write request to `gattdb_Recv` -/
  | gattWrite (data : List UInt8)
  /-- `app_ble_get` -/
  | bleGet
  /-- `uart_protocol_parse` forwards the frame at `dataP` -/
  | forward (dataP : Mem)
  /-- a round of `Ble_Notify_Task` -/
  | notify (bleConnState : UInt8) (bleMtu : UInt16) (ok : Bool)

namespace Rings

def step (s : Rings) : RingEvent → Rings
  | .uartRecv data => { s with uartRecvBuf := s.uartRecvBuf.write data }
  | .uartGet => { s with uartRecvBuf := s.uartRecvBuf.get }
  | .gattWrite data => { s with bleRecvArray := s.bleRecvArray.write data }
  | .bleGet => { s with bleRecvArray := s.bleRecvArray.get }
  | .forward dataP => { s with notifyArray := s.notifyArray.write (frameBytes dataP) }
  | .notify bleConnState bleMtu ok =>
      { s with notifyArray := s.notifyArray.notify bleConnState bleMtu ok }

def machine : Machine Rings RingEvent := ⟨fun s e => some (s.step e)⟩

def start : Rings := ⟨.empty, .empty, .empty⟩

/-- A request leaves its ring with at most 1023 unread bytes. -/
def Fits (s : Rings) : RingEvent → Prop
  | .uartRecv data => s.uartRecvBuf.ring.count + data.length ≤ 1023
  | .gattWrite data => s.bleRecvArray.ring.count + data.length ≤ 1023
  | .forward dataP => s.notifyArray.ring.count + (frameBytes dataP).length ≤ 1023
  | .uartGet | .bleGet | .notify _ _ _ => True

instance (s : Rings) : ∀ e, Decidable (s.Fits e)
  | .uartRecv _ | .gattWrite _ | .forward _ => inferInstanceAs (Decidable (_ ≤ _))
  | .uartGet | .bleGet | .notify _ _ _ => isTrue trivial

/-- No unread byte has been overwritten. -/
structure Intact (s : Rings) : Prop where
  uartRecvBuf : s.uartRecvBuf.Intact
  bleRecvArray : s.bleRecvArray.Intact
  notifyArray : s.notifyArray.Intact

theorem Intact.step {s : Rings} (h : s.Intact) {e : RingEvent} (hfits : s.Fits e) :
    (s.step e).Intact := by
  cases e with
  | uartRecv data => exact ⟨h.uartRecvBuf.write (Nat.lt_succ_of_le hfits), h.2, h.3⟩
  | uartGet => exact ⟨h.uartRecvBuf.get, h.2, h.3⟩
  | gattWrite data => exact ⟨h.1, h.bleRecvArray.write (Nat.lt_succ_of_le hfits), h.3⟩
  | bleGet => exact ⟨h.1, h.bleRecvArray.get, h.3⟩
  | forward dataP => exact ⟨h.1, h.2, h.notifyArray.write (Nat.lt_succ_of_le hfits)⟩
  | notify bleConnState bleMtu ok => exact ⟨h.1, h.2, h.notifyArray.notify bleConnState bleMtu ok⟩

/-- Over every run in which each request fits. -/
theorem unread_kept {es : List RingEvent} (guarded : machine.Guarded Fits start es) :
    ∃ s, machine.run start es = some s ∧ s.Intact := by
  apply Machine.run_progress Intact
  · intro s e h hfits
    exact ⟨s.step e, rfl, h.step hfits⟩
  · exact ⟨TracedRing.empty_intact, TracedRing.empty_intact, TracedRing.empty_intact⟩
  · exact guarded

/-- A frame of 400 bytes. -/
def longFrame : Mem := Mem.ofList [0xD0, 1, 140]

/-- With its third frame `notify_array` is full to its end and goes on at its beginning. -/
def wrapping : List RingEvent :=
  [.uartRecv [1, 2], .uartGet, .gattWrite [3], .bleGet, .forward longFrame, .forward longFrame,
    .notify 1 200 true, .notify 1 200 true, .notify 1 200 true, .forward longFrame, .uartRecv [4]]

theorem unread_kept_wrap :
    ∃ s, machine.run start wrapping = some s ∧ s.notifyArray.ring.pOut = 600 ∧
      s.notifyArray.ring.pIn = 176 ∧ s.Intact := by
  have guarded : machine.Guarded Fits start wrapping := by decide +kernel
  obtain ⟨s, hrun, hintact⟩ := unread_kept guarded
  have hwraps : (machine.run start wrapping).any (fun s =>
      s.notifyArray.ring.pOut == 600 && s.notifyArray.ring.pIn == 176) = true := by decide +kernel
  rw [hrun] at hwraps
  simp only [Option.any_some, Bool.and_eq_true, beq_iff_eq] at hwraps
  exact ⟨s, hrun, hwraps.1, hwraps.2, hintact⟩

/-- Two unread bytes and a burst of 1023: one byte is unread after it, and no
request has one byte. -/
theorem not_intact_of_burst {burst : List UInt8} (hlong : burst.length = 1023) :
    ¬ ((start.step (.uartRecv [1, 2])).step (.uartRecv burst)).Intact := by
  intro h
  obtain ⟨kept, hsub, hall⟩ := h.uartRecvBuf.whole
  have hcount : ((Device.emptyRing.pushAll [1, 2]).pushAll burst).count = 1 := by
    rw [RingBuffer.count_pushAll, RingBuffer.count_pushAll, hlong]
    decide
  have hone : kept.flatten.length = 1 := by
    rw [← hall, ← hcount, ← RingBuffer.length_contents]
    rfl
  cases kept with
  | nil => cases hone
  | cons a kept =>
      have hmem : a ∈ [[1, 2], burst] := hsub.subset List.mem_cons_self
      have htwo : 2 ≤ a.length := by
        rcases List.mem_cons.mp hmem with rfl | hmem
        · decide
        · rw [List.mem_singleton.mp hmem, hlong]
          decide
      rw [List.flatten_cons, List.length_append] at hone
      omega

theorem long_burst_overwrites :
    ∃ s, machine.run start [.uartRecv [1, 2], .uartRecv (List.replicate 1023 0)] = some s ∧
      ¬ s.Intact :=
  ⟨_, rfl, not_intact_of_burst List.length_replicate⟩

end Rings

end WifiExpander
