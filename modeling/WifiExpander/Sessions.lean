import WifiExpander.Overwrite

/-!
Notifications across connections.

`BluetoothEventHandler` writes `ble_conn_state` and `ble_mtu`, `uart_protocol_parse`
tests the state before it takes the mutex of `notify_array`, and `Ble_Notify_Task`
reads both variables while it holds the mutex: each of these is a step of its own
here, and the steps interleave. Two questions are asked of every notification: does
it fit the MTU of the connection it goes to, and were its bytes routed during that
connection? Both `ble_mtu` and `notify_array` outlive a connection.

The number of the connection, its ATT MTU, the tags of the bytes and `attempts` are
not part of the program.
-/

namespace WifiExpander

open WifiExpander.Theory

/-- A byte of `notify_array`, and during which connection its frame was routed: the
first connection is number 1, and 0 marks a cell that was never written. -/
abbrev TaggedByte := UInt8 × Nat

/-- Where `Ble_Notify_Task` is in its loop. -/
inductive NotifyPhase where
  /-- before `OSMutexPend` -/
  | ready
  | locked
  /-- it has seen `ble_conn_state` 0 -/
  | flushing
  /-- it has seen a connection -/
  | looking
  | found (lenRemain : Nat)
  /-- `len_remain > ble_mtu` has been evaluated -/
  | compared (lenRemain : Nat) (more : Bool)
  /-- `NotifyBuf` is filled -/
  | filled (notifyBuf : List TaggedByte)
deriving DecidableEq

/-- How many bytes the task has already settled on. -/
def NotifyPhase.held : NotifyPhase → Nat
  | .compared lenRemain false => (UInt8.ofNat lenRemain).toNat
  | .filled notifyBuf => notifyBuf.length
  | _ => 0

/-- The task takes no size above 20 from `ble_mtu` in its next step. -/
def NotifyPhase.TakesInitial (bleMtu : UInt16) : NotifyPhase → Prop
  | .found lenRemain => lenRemain ≤ bleMtu.toNat → lenRemain ≤ 20
  | .compared _ true => bleMtu.toNat ≤ 20
  | _ => True

instance (bleMtu : UInt16) : ∀ phase : NotifyPhase, Decidable (phase.TakesInitial bleMtu)
  | .found lenRemain => inferInstanceAs (Decidable (lenRemain ≤ bleMtu.toNat → lenRemain ≤ 20))
  | .compared _ true => inferInstanceAs (Decidable (bleMtu.toNat ≤ 20))
  | .compared _ false | .ready | .locked | .flushing | .looking | .filled _ => isTrue trivial

/-- What the task has settled on is unread. -/
def NotifyPhase.Within (bleMtu : UInt16) (r : RingBuffer TaggedByte ringSize) : NotifyPhase → Prop
  | .found lenRemain => lenRemain ≤ r.count
  | .compared lenRemain more => lenRemain ≤ r.count ∧ (more = true → bleMtu.toNat ≤ lenRemain)
  | .filled notifyBuf =>
      notifyBuf.length ≤ r.count ∧ notifyBuf = r.contents.take notifyBuf.length
  | .ready | .locked | .flushing | .looking => True

/-- A call of `gecko_cmd_gatt_server_send_characteristic_notification`, and the
connection at that moment. -/
structure LinkAttempt where
  payload : List TaggedByte
  ok : Bool
  connected : Bool
  session : Nat
  attMtu : UInt16
deriving DecidableEq

structure Link where
  bleConnState : UInt8
  bleMtu : UInt16
  notifyArray : RingBuffer TaggedByte ringSize
  phase : NotifyPhase
  /-- a frame for which `uart_protocol_parse` has seen `ble_conn_state` 1 and which it
  has not written yet -/
  routed : Option (List TaggedByte)
  /-- how many connections have been opened -/
  session : Nat
  attMtu : UInt16
  /-- an exchange has been reported for the last connection -/
  exchanged : Bool
  attempts : List LinkAttempt

/-- An ATT MTU that an exchange can report. -/
structure AttMtu where
  val : UInt16
  least : 23 ≤ val.toNat

theorem AttMtu.toNat_sub (mtu : AttMtu) : (mtu.val - 3).toNat + 3 = mtu.val.toNat := by
  have hleast := mtu.least
  have hle : (3 : UInt16) ≤ mtu.val := by
    rw [UInt16.le_iff_toNat_le]
    exact Nat.le_trans (by decide) hleast
  rw [UInt16.toNat_sub_of_le _ _ hle]
  have : (3 : UInt16).toNat = 3 := rfl
  omega

/-- A new `ble_mtu` does not exceed a count that was found larger than the old one. -/
def NotifyPhase.Admits (mtu : AttMtu) : NotifyPhase → Prop
  | .compared lenRemain true => mtu.val.toNat ≤ lenRemain + 3
  | _ => True

instance (mtu : AttMtu) : ∀ phase : NotifyPhase, Decidable (phase.Admits mtu)
  | .compared lenRemain true => inferInstanceAs (Decidable (mtu.val.toNat ≤ lenRemain + 3))
  | .compared _ false | .ready | .locked | .flushing | .looking | .found _ | .filled _ =>
      isTrue trivial

theorem NotifyPhase.Within.admit {bleMtu : UInt16} {r : RingBuffer TaggedByte ringSize}
    {phase : NotifyPhase} {mtu : AttMtu} (h : phase.Within bleMtu r) (hok : phase.Admits mtu) :
    phase.Within (mtu.val - 3) r := by
  cases phase with
  | compared lenRemain more =>
      refine ⟨h.1, ?_⟩
      rintro rfl
      have hle : mtu.val.toNat ≤ lenRemain + 3 := hok
      have := mtu.toNat_sub
      omega
  | ready | locked | flushing | looking => exact trivial
  | found _ | filled _ => exact h

inductive LinkEvent where
  | opened
  | closed
  | mtuExchanged (mtu : AttMtu)
  /-- `uart_protocol_parse` tests `ble_conn_state` for a frame to be forwarded -/
  | route (frame : List UInt8)
  /-- and writes it, once the mutex is free -/
  | push
  /-- `Ble_Notify_Task` goes on; `ok` is whether the stack takes the notification -/
  | notify (ok : Bool)

namespace Link

/-- The next step of `Ble_Notify_Task` -/
def notifyStep (ok : Bool) (s : Link) : Link :=
  match s.phase with
  | .ready => { s with phase := .locked }
  | .locked => { s with phase := if s.bleConnState = 0 then .flushing else .looking }
  | .flushing =>
      { s with
        notifyArray := { s.notifyArray with pOut := s.notifyArray.pIn }
        phase := .ready }
  | .looking =>
      { s with
        phase := if s.notifyArray.pOut = s.notifyArray.pIn then .ready
          else .found s.notifyArray.count }
  | .found lenRemain => { s with phase := .compared lenRemain (lenRemain > s.bleMtu.toNat) }
  | .compared lenRemain more =>
      -- `ble_mtu` is read a second time
      let notifyLen := UInt8.ofNat (if more then s.bleMtu.toNat else lenRemain)
      { s with
        phase := .filled (RingBuffer.window s.notifyArray.data s.notifyArray.pOut notifyLen.toNat) }
  | .filled notifyBuf =>
      { s with
        attempts := s.attempts ++
          [⟨notifyBuf, ok, s.bleConnState = 1, s.session, s.attMtu⟩]
        notifyArray :=
          if ok then
            { s.notifyArray with pOut := RingBuffer.skip s.notifyArray.pOut notifyBuf.length }
          else s.notifyArray
        phase := .ready }

def step (s : Link) : LinkEvent → Link
  | .opened =>
      { s with bleConnState := 1, session := s.session + 1, attMtu := 23, exchanged := false }
  | .closed => { s with bleConnState := 0 }
  | .mtuExchanged mtu =>
      { s with bleMtu := mtu.val - 3, attMtu := mtu.val, exchanged := true }
  | .route frame =>
      if s.bleConnState = 1 ∧ s.routed = none then
        { s with routed := some (frame.map fun b => (b, s.session)) }
      else s
  | .push =>
      match s.routed with
      | some frame =>
          if s.phase = .ready then
            { s with notifyArray := s.notifyArray.pushAll frame, routed := none }
          else s
      | none => s
  | .notify ok => s.notifyStep ok

def machine : Machine Link LinkEvent := ⟨fun s e => some (s.step e)⟩

/-- Before the first connection. -/
def start : Link :=
  ⟨0, 20, ⟨fun _ => (0, 0), ⟨0, ringSize_pos⟩, ⟨0, ringSize_pos⟩⟩, .ready, none, 0, 23, false, []⟩

/-! ### A round of the task -/

/-- `notify_array` as the program has it. -/
def untag (r : RingBuffer TaggedByte ringSize) : ByteRing := ⟨fun i => (r.data i).1, r.pIn, r.pOut⟩

theorem window_untag (r : RingBuffer TaggedByte ringSize) (i : Fin ringSize) (k : Nat) :
    RingBuffer.window (untag r).data i k = (RingBuffer.window r.data i k).map Prod.fst := by
  induction k generalizing i with
  | zero => rfl
  | succ k ih =>
      rw [RingBuffer.window, RingBuffer.window, ih, List.map_cons]
      rfl

/-- The payloads of the calls added since `s`. -/
def sentSince (s s' : Link) : List (List UInt8) :=
  (s'.attempts.drop s.attempts.length).map fun a => a.payload.map Prod.fst

/-- Steps of the task with nothing in between are a round of `bleNotify`. -/
theorem round_eq {s : Link} (hready : s.phase = .ready) (ok : Bool) :
    ∃ k, ((notifyStep ok)^[k] s).phase = .ready ∧
      (sentSince s ((notifyStep ok)^[k] s), untag ((notifyStep ok)^[k] s).notifyArray) =
        ((bleNotify s.bleConnState s.bleMtu ok (untag s.notifyArray)).1.toList,
          (bleNotify s.bleConnState s.bleMtu ok (untag s.notifyArray)).2) := by
  by_cases hclosed : s.bleConnState = 0
  · refine ⟨3, ?_, ?_⟩
    · simp [notifyStep, hready, hclosed]
    · simp [notifyStep, hready, hclosed, bleNotify, sentSince, untag]
  by_cases hempty : s.notifyArray.pOut = s.notifyArray.pIn
  · refine ⟨3, ?_, ?_⟩
    · simp [notifyStep, hready, hclosed, hempty]
    · simp [notifyStep, hready, hclosed, hempty, bleNotify, sentSince, untag]
  · have hcount : (untag s.notifyArray).count = s.notifyArray.count := rfl
    have hlen : UInt8.ofNat (if s.notifyArray.count > s.bleMtu.toNat then s.bleMtu.toNat
        else s.notifyArray.count) = notifyLen s.bleMtu s.notifyArray.count := rfl
    refine ⟨6, ?_, ?_⟩
    · simp [notifyStep, hready, hclosed, hempty]
    · have hnot : ¬ (untag s.notifyArray).pOut = (untag s.notifyArray).pIn := hempty
      rw [bleNotify, if_neg hclosed, if_neg hnot]
      simp [notifyStep, hready, hclosed, hempty, sentSince, hlen, hcount, window_untag]
      constructor
      · rfl
      · cases ok <;> rfl

/-! ### The size of a notification -/

variable {s : Link}

/-- Every notification attempted over a connection fits its ATT MTU. -/
def FitsMtu (s : Link) : Prop :=
  ∀ a ∈ s.attempts, a.connected = true → a.payload.length + 3 ≤ a.attMtu.toNat

/-- The connection and its MTU do not change under bytes the task has settled on, and
`ble_mtu` is not used while it is left over from another connection. -/
def MtuCurrent (s : Link) : LinkEvent → Prop
  | .opened => s.phase.held ≤ 20
  | .mtuExchanged mtu => s.phase.held + 3 ≤ mtu.val.toNat
  | .notify _ => s.bleConnState = 1 → s.exchanged = false → s.phase.TakesInitial s.bleMtu
  | .closed | .route _ | .push => True

instance (s : Link) : ∀ e, Decidable (s.MtuCurrent e)
  | .opened => inferInstanceAs (Decidable (s.phase.held ≤ 20))
  | .mtuExchanged mtu => inferInstanceAs (Decidable (s.phase.held + 3 ≤ mtu.val.toNat))
  | .notify _ =>
      inferInstanceAs (Decidable
        (s.bleConnState = 1 → s.exchanged = false → s.phase.TakesInitial s.bleMtu))
  | .closed | .route _ | .push => isTrue trivial

/-- What holds while a connection is there. -/
structure MtuInv (s : Link) : Prop where
  exchanged : s.bleConnState = 1 → s.exchanged = true → s.bleMtu.toNat + 3 = s.attMtu.toNat
  initial : s.bleConnState = 1 → s.exchanged = false → s.attMtu = 23
  held : s.bleConnState = 1 → s.phase.held + 3 ≤ s.attMtu.toNat
  fits : s.FitsMtu

theorem toNat_ofNat_le (n : Nat) : (UInt8.ofNat n).toNat ≤ n := by
  rw [UInt8.toNat_ofNat']
  exact Nat.mod_le _ _

theorem MtuInv.three_le (h : s.MtuInv) (hopen : s.bleConnState = 1) : 3 ≤ s.attMtu.toNat := by
  have := h.held hopen
  omega

theorem MtuInv.of_closed (hclosed : s.bleConnState = 0) (hfits : s.FitsMtu) : s.MtuInv := by
  have hnot : s.bleConnState ≠ 1 := by
    rw [hclosed]
    decide
  constructor
  · intro hopen
    exact absurd hopen hnot
  · intro hopen
    exact absurd hopen hnot
  · intro hopen
    exact absurd hopen hnot
  · exact hfits

/-- What `ble_mtu` allows over a connection, if it is current. -/
theorem MtuInv.bleMtu_le (h : s.MtuInv) (hopen : s.bleConnState = 1) {n : Nat}
    (hle : n ≤ s.bleMtu.toNat) (hcurrent : s.exchanged = false → n ≤ 20) :
    n + 3 ≤ s.attMtu.toNat := by
  cases hex : s.exchanged with
  | true =>
      have := h.exchanged hopen hex
      omega
  | false =>
      have hn := hcurrent hex
      rw [h.initial hopen hex]
      change n + 3 ≤ 23
      omega

/-- The size settled on in the next step of the task. -/
theorem MtuInv.held_notifyStep {ok : Bool} (h : s.MtuInv) (hok : s.MtuCurrent (.notify ok))
    (hopen : s.bleConnState = 1) : (s.notifyStep ok).phase.held + 3 ≤ s.attMtu.toNat := by
  have hthree := h.three_le hopen
  have hcurrent := hok hopen
  have hheld := h.held hopen
  unfold notifyStep
  cases hphase : s.phase with
  | ready => exact hthree
  | locked =>
      simp only []
      split <;> exact hthree
  | flushing => exact hthree
  | looking =>
      simp only []
      split <;> exact hthree
  | found lenRemain =>
      simp only [hphase, NotifyPhase.TakesInitial] at hcurrent ⊢
      by_cases hmore : lenRemain > s.bleMtu.toNat
      · rw [decide_eq_true hmore]
        exact hthree
      · rw [decide_eq_false hmore]
        have hle := Nat.le_of_not_lt hmore
        have hn := h.bleMtu_le hopen hle fun hex => hcurrent hex hle
        have := toNat_ofNat_le lenRemain
        simp only [NotifyPhase.held]
        omega
  | compared lenRemain more =>
      simp only [hphase, NotifyPhase.held, RingBuffer.length_window] at hheld ⊢
      cases more with
      | false => exact hheld
      | true =>
          rw [hphase] at hcurrent
          have hn := h.bleMtu_le hopen (Nat.le_refl _) hcurrent
          have := toNat_ofNat_le s.bleMtu.toNat
          simp only [if_true]
          omega
  | filled notifyBuf => exact hthree

theorem notifyStep_globals (ok : Bool) (s : Link) :
    (s.notifyStep ok).bleConnState = s.bleConnState ∧ (s.notifyStep ok).bleMtu = s.bleMtu ∧
      (s.notifyStep ok).attMtu = s.attMtu ∧ (s.notifyStep ok).exchanged = s.exchanged ∧
      (s.notifyStep ok).session = s.session ∧ (s.notifyStep ok).routed = s.routed := by
  unfold notifyStep
  cases s.phase <;> exact ⟨rfl, rfl, rfl, rfl, rfl, rfl⟩

/-- A step of the task attempts nothing new, or what it has filled. -/
theorem mem_notifyStep_attempts {ok : Bool} {a : LinkAttempt}
    (ha : a ∈ (s.notifyStep ok).attempts) :
    a ∈ s.attempts ∨ ∃ notifyBuf, s.phase = .filled notifyBuf ∧
      a = ⟨notifyBuf, ok, s.bleConnState = 1, s.session, s.attMtu⟩ := by
  unfold notifyStep at ha
  cases hphase : s.phase with
  | filled notifyBuf =>
      rw [hphase] at ha
      rcases List.mem_append.mp ha with ha | ha
      · exact .inl ha
      · exact .inr ⟨notifyBuf, rfl, List.mem_singleton.mp ha⟩
  | ready | locked | flushing | looking | found _ | compared _ _ =>
      rw [hphase] at ha
      exact .inl ha

theorem MtuInv.step (h : s.MtuInv) {e : LinkEvent} (hok : s.MtuCurrent e) : (s.step e).MtuInv := by
  cases e with
  | opened =>
      constructor
      · intro _ hex
        cases hex
      · intro _ _
        rfl
      · intro _
        change s.phase.held + 3 ≤ 23
        have : s.phase.held ≤ 20 := hok
        omega
      · exact h.fits
  | closed => exact .of_closed rfl h.fits
  | mtuExchanged mtu =>
      constructor
      · intro _ _
        exact mtu.toNat_sub
      · intro _ hex
        cases hex
      · intro _
        exact hok
      · exact h.fits
  | route frame =>
      unfold Link.step
      dsimp only
      split
      · exact ⟨h.exchanged, h.initial, h.held, h.fits⟩
      · exact h
  | push =>
      unfold Link.step
      dsimp only
      cases s.routed with
      | none => exact h
      | some frame =>
          dsimp only
          split
          · exact ⟨h.exchanged, h.initial, h.held, h.fits⟩
          · exact h
  | notify ok =>
      obtain ⟨hopen, hmtu, hatt, hex, -, -⟩ := notifyStep_globals ok s
      constructor
      · intro h1 h2
        exact hmtu ▸ hatt ▸ h.exchanged (hopen ▸ h1) (hex ▸ h2)
      · intro h1 h2
        exact hatt ▸ h.initial (hopen ▸ h1) (hex ▸ h2)
      · intro h1
        exact hatt ▸ h.held_notifyStep hok (hopen ▸ h1)
      · intro a ha hconn
        rcases mem_notifyStep_attempts ha with ha | ⟨notifyBuf, hphase, rfl⟩
        · exact h.fits a ha hconn
        · have hheld := h.held (of_decide_eq_true hconn)
          rw [hphase] at hheld
          exact hheld

/-- Over every run in which `ble_mtu` is current when it is used and what has been
settled on is sent before the connection or its MTU changes. -/
theorem notifications_fit {es : List LinkEvent} (guarded : machine.Guarded MtuCurrent start es) :
    ∃ s, machine.run start es = some s ∧ s.FitsMtu := by
  have hstep : ∀ s e, MtuInv s → MtuCurrent s e → ∃ s', machine.step s e = some s' ∧ MtuInv s' := by
    intro s e h hok
    exact ⟨s.step e, rfl, h.step hok⟩
  have hstart : start.MtuInv := by
    refine .of_closed rfl ?_
    intro a ha
    cases ha
  obtain ⟨s, hrun, hinv⟩ := Machine.run_progress _ hstep hstart guarded
  exact ⟨s, hrun, hinv.fits⟩

/-- A frame for the phone with `n` bytes of payload. -/
def phoneFrame (n : Nat) : List UInt8 := wireFrame wifiampDevHeader 0 0 0x20 (List.replicate n 0)

example : procotolCheck (Mem.ofList (phoneFrame 0)) = true := by decide

/-- Two connections with different MTUs. -/
theorem notifications_fit_two :
    ∃ s, machine.run start
      ([.opened, .mtuExchanged ⟨50, by decide⟩, .route (phoneFrame 22), .push] ++
        List.replicate 6 (.notify true) ++
        [.closed, .opened, .mtuExchanged ⟨23, by decide⟩, .route (phoneFrame 0), .push] ++
        List.replicate 6 (.notify true)) = some s ∧ s.FitsMtu :=
  notifications_fit (by decide +kernel)

instance (s : Link) : Decidable s.FitsMtu :=
  inferInstanceAs (Decidable (∀ a ∈ s.attempts, a.connected = true → _ ≤ _))

/-- The second connection is sent 30 bytes at its initial MTU of 23. -/
theorem mtu_outlives_connection :
    ∃ s, machine.run start
      ([.opened, .mtuExchanged ⟨247, by decide⟩, .closed, .opened,
        .route (phoneFrame 22), .push] ++ List.replicate 6 (.notify true)) = some s ∧
      ¬ s.FitsMtu :=
  ⟨_, rfl, by decide +kernel⟩

/-! ### The connection of a notification's bytes -/

/-- No byte routed during one connection is sent during a later one. -/
def SentInTime (s : Link) : Prop :=
  ∀ a ∈ s.attempts, a.ok = true → a.connected = true →
    ∀ x ∈ a.payload, ¬ (0 < x.2 ∧ x.2 < a.session)

/-- A connection is opened when nothing is left of the one before. -/
def Separated (s : Link) : LinkEvent → Prop
  | .opened =>
      (s.notifyArray.pOut = s.notifyArray.pIn ∨ s.phase = .flushing) ∧ s.routed = none
  | .mtuExchanged mtu => s.phase.Admits mtu
  | .closed | .route _ | .push | .notify _ => True

instance (s : Link) : ∀ e, Decidable (s.Separated e)
  | .opened =>
      inferInstanceAs (Decidable
        ((s.notifyArray.pOut = s.notifyArray.pIn ∨ s.phase = .flushing) ∧ s.routed = none))
  | .mtuExchanged mtu => inferInstanceAs (Decidable (s.phase.Admits mtu))
  | .closed | .route _ | .push | .notify _ => isTrue trivial

/-- What holds while a connection is there, and of what the task has settled on. -/
structure TagInv (s : Link) : Prop where
  unread : s.bleConnState = 1 → s.phase ≠ .flushing →
    ∀ x ∈ s.notifyArray.contents, x.2 = s.session
  routed : s.bleConnState = 1 → ∀ frame, s.routed = some frame → ∀ x ∈ frame, x.2 = s.session
  within : s.phase.Within s.bleMtu s.notifyArray
  inTime : s.SentInTime

theorem TagInv.within_notifyStep {ok : Bool} (h : s.TagInv) :
    (s.notifyStep ok).phase.Within (s.notifyStep ok).bleMtu (s.notifyStep ok).notifyArray := by
  have hwithin := h.within
  unfold notifyStep
  cases hphase : s.phase with
  | ready => exact trivial
  | locked =>
      simp only []
      split <;> exact trivial
  | flushing => exact trivial
  | looking =>
      simp only []
      split
      · exact trivial
      · exact Nat.le_refl _
  | found lenRemain =>
      rw [hphase] at hwithin
      constructor
      · exact hwithin
      · intro hmore
        exact Nat.le_of_lt (of_decide_eq_true hmore)
  | compared lenRemain more =>
      rw [hphase] at hwithin
      obtain ⟨hcount, hmtu⟩ := hwithin
      have hlen : (UInt8.ofNat (if more then s.bleMtu.toNat else lenRemain)).toNat ≤
          s.notifyArray.count := by
        refine (toNat_ofNat_le _).trans ?_
        cases more with
        | false => exact hcount
        | true => exact (hmtu rfl).trans hcount
      constructor
      · rw [RingBuffer.length_window]
        exact hlen
      · rw [RingBuffer.length_window]
        exact RingBuffer.window_pOut hlen
  | filled notifyBuf => exact trivial

/-- The task adds nothing to `notify_array`, and leaves nothing in it when it flushes. -/
theorem TagInv.mem_contents_notifyStep {ok : Bool} (h : s.TagInv) {x : TaggedByte}
    (hx : x ∈ (s.notifyStep ok).notifyArray.contents) :
    s.phase ≠ .flushing ∧ x ∈ s.notifyArray.contents := by
  have hwithin := h.within
  unfold notifyStep at hx
  cases hphase : s.phase with
  | flushing =>
      rw [hphase] at hx
      rw [RingBuffer.contents_eq_nil_iff.mpr rfl] at hx
      cases hx
  | filled notifyBuf =>
      rw [hphase] at hx hwithin
      constructor
      · intro hcontra
        cases hcontra
      · cases ok with
        | false => exact hx
        | true =>
            have hskip := RingBuffer.contents_skip hwithin.1
            simp only [if_true] at hx
            rw [hskip] at hx
            exact List.mem_of_mem_drop hx
  | ready | locked | looking | found _ | compared _ _ =>
      rw [hphase] at hx
      constructor
      · intro hcontra
        cases hcontra
      · exact hx

theorem TagInv.of_closed (hclosed : s.bleConnState = 0)
    (hwithin : s.phase.Within s.bleMtu s.notifyArray) (hinTime : s.SentInTime) : s.TagInv := by
  have hnot : s.bleConnState ≠ 1 := by
    rw [hclosed]
    decide
  constructor
  · intro hopen
    exact absurd hopen hnot
  · intro hopen
    exact absurd hopen hnot
  · exact hwithin
  · exact hinTime

theorem TagInv.opened (h : s.TagInv) (hok : s.Separated .opened) : (s.step .opened).TagInv := by
  obtain ⟨hempty, hnone⟩ := hok
  constructor
  · intro _ hphase x hx
    rcases hempty with hempty | hflush
    · have hx : x ∈ s.notifyArray.contents := hx
      rw [RingBuffer.contents_eq_nil_iff.mpr hempty] at hx
      cases hx
    · exact absurd hflush hphase
  · intro _ frame hframe
    have hframe : s.routed = some frame := hframe
    rw [hnone] at hframe
    cases hframe
  · exact h.within
  · exact h.inTime

/-- What is put into `notify_array` has been routed during the same connection. -/
theorem TagInv.push (h : s.TagInv) : (s.step .push).TagInv := by
  unfold Link.step
  dsimp only
  cases hrouted : s.routed with
  | none => exact h
  | some frame =>
      dsimp only
      split
      · rename_i hready
        constructor
        · intro hopen hphase x hx
          rcases RingBuffer.mem_contents_pushAll hx with hold | hnew
          · exact h.unread hopen hphase x hold
          · exact h.routed hopen frame hrouted x hnew
        · intro _ frame' hframe'
          cases hframe'
        · simp only [hready]
          exact trivial
        · exact h.inTime
      · exact h

/-- What is sent over a connection is of that connection. -/
theorem TagInv.notify (h : s.TagInv) (ok : Bool) : (s.step (.notify ok)).TagInv := by
  obtain ⟨hopen, -, -, -, hsession, hrouted⟩ := notifyStep_globals ok s
  constructor
  · intro h1 _ x hx
    obtain ⟨hphase, hold⟩ := h.mem_contents_notifyStep hx
    exact hsession ▸ h.unread (hopen ▸ h1) hphase x hold
  · intro h1 frame hframe x hx
    exact hsession ▸ h.routed (hopen ▸ h1) frame (hrouted ▸ hframe) x hx
  · exact h.within_notifyStep
  · intro a ha hsent hconn x hx
    rcases mem_notifyStep_attempts ha with ha | ⟨notifyBuf, hphase, rfl⟩
    · exact h.inTime a ha hsent hconn x hx
    · have hwithin := h.within
      rw [hphase] at hwithin
      have hmem : x ∈ s.notifyArray.contents := by
        have hx : x ∈ notifyBuf := hx
        rw [hwithin.2] at hx
        exact List.mem_of_mem_take hx
      have hphase' : s.phase ≠ .flushing := by
        rw [hphase]
        intro hcontra
        cases hcontra
      have htag := h.unread (of_decide_eq_true hconn) hphase' x hmem
      rintro ⟨-, hlt⟩
      exact Nat.lt_irrefl _ (htag ▸ hlt)

theorem TagInv.step (h : s.TagInv) {e : LinkEvent} (hok : s.Separated e) : (s.step e).TagInv := by
  cases e with
  | opened => exact h.opened hok
  | closed => exact .of_closed rfl h.within h.inTime
  | mtuExchanged mtu => exact ⟨h.unread, h.routed, h.within.admit hok, h.inTime⟩
  | route frame =>
      unfold Link.step
      dsimp only
      split
      · refine ⟨h.unread, ?_, h.within, h.inTime⟩
        intro _ tagged htagged x hx
        cases htagged
        obtain ⟨b, -, rfl⟩ := List.mem_map.mp hx
        rfl
      · exact h
  | push => exact h.push
  | notify ok => exact h.notify ok

/-- Over every run in which nothing is left of a connection when the next one is opened. -/
theorem sent_in_time {es : List LinkEvent} (guarded : machine.Guarded Separated start es) :
    ∃ s, machine.run start es = some s ∧ s.SentInTime := by
  have hstep : ∀ s e, TagInv s → Separated s e → ∃ s', machine.step s e = some s' ∧ TagInv s' := by
    intro s e h hok
    exact ⟨s.step e, rfl, h.step hok⟩
  have hstart : start.TagInv := by
    refine .of_closed rfl trivial ?_
    intro a ha
    cases ha
  obtain ⟨s, hrun, hinv⟩ := Machine.run_progress _ hstep hstart guarded
  exact ⟨s, hrun, hinv.inTime⟩

/-- The task flushes what the first connection has left. -/
theorem sent_in_time_flushed :
    ∃ s, machine.run start
      ([.opened, .route (phoneFrame 0), .push, .closed, .notify true, .notify true, .opened,
        .notify true, .route (phoneFrame 1), .push] ++ List.replicate 6 (.notify true)) = some s ∧
      s.SentInTime :=
  sent_in_time (by decide +kernel)

instance (s : Link) : Decidable s.SentInTime :=
  inferInstanceAs (Decidable (∀ a ∈ s.attempts, a.ok = true → a.connected = true →
    ∀ x ∈ a.payload, ¬ (0 < x.2 ∧ x.2 < a.session)))

/-- The task does not run between the two connections. -/
theorem bytes_outlive_connection :
    ∃ s, machine.run start
      ([.opened, .route (phoneFrame 0), .push, .closed, .opened] ++
        List.replicate 6 (.notify true)) = some s ∧ ¬ s.SentInTime :=
  ⟨_, rfl, by decide +kernel⟩

end Link

end WifiExpander
