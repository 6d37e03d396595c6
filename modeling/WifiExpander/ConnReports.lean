import WifiExpander.Driver

/-!
Does the host learn every change of the connection?

`BluetoothEventHandler` posts each connection event to `ble_event_msg`, and
`Ble_Event_Task` turns it into an `NTF_CONN_STATE` frame. With `MsgPoolSize` 0 a
post reaches the task only while it waits in `OSQPend`, and without a free buffer
`ble_state_notify` sends nothing. Where neither happens, the states reported and
the events still to be processed are together the events, in order.
-/

namespace WifiExpander

open WifiExpander.Theory

/-! ### The task -/

inductive ConnEvent where
  /-- `BLE_CONNECTION_OPEND_EVT` -/
  | opened
  /-- `BLE_CONNECTION_CLOSED_EVT` -/
  | closed
deriving DecidableEq

/-- What `BluetoothEventHandler` stores in `ble_conn_state` and `Ble_Event_Task`
passes to `ble_state_notify`. -/
def ConnEvent.state : ConnEvent → UInt8
  | .opened => 1
  | .closed => 0

/-- The size given to `OSQCreate` for `ble_event_msg` -/
def bleEventMsgSize : Nat := 8

/-- Where `Ble_Event_Task` is in its loop. -/
inductive EventPhase where
  /-- before `OSQPend` -/
  | ready
  /-- blocked in `OSQPend` -/
  | pending
  /-- `OSQPend` has an event for it -/
  | received (e : ConnEvent)
  /-- in `ble_state_notify`, with a buffer -/
  | notifying (e : ConnEvent)
deriving DecidableEq

/-- `Ble_Event_Task` and what it reads; the last two fields are history. -/
structure ConnReports where
  bleConnState : UInt8
  phase : EventPhase
  bleEventMsg : List ConnEvent
  events : List ConnEvent
  /-- the entries linked -/
  appended : List UartSendFormat

inductive ConnReportsEvent where
  /-- `BluetoothEventHandler` handles a connection event -/
  | conn (e : ConnEvent)
  /-- the task enters `OSQPend` -/
  | pend

namespace ConnReports

/-- `OSQPost(&ble_event_msg, NULL, e, ..)`; the error is ignored. -/
def osqPost (s : ConnReports) (nbrFree : Nat) (e : ConnEvent) : ConnReports :=
  if s.phase = .pending then { s with phase := .received e }
  else
    match osMsgQPut bleEventMsgSize nbrFree s.bleEventMsg e with
    | .ok entries => { s with bleEventMsg := entries }
    | .error _ => s

/-- `OSQPend` of `Ble_Event_Task` -/
def osqPend (s : ConnReports) : ConnReports :=
  match s.phase with
  | .ready =>
      match s.bleEventMsg with
      | [] => { s with phase := .pending }
      | e :: entries => { s with phase := .received e, bleEventMsg := entries }
  | _ => s

def step (s : ConnReports) (nbrFree : Nat) : ConnReportsEvent → ConnReports
  | .conn e => osqPost { s with bleConnState := e.state, events := s.events ++ [e] } nbrFree e
  | .pend => s.osqPend

/-- `Ble_Event_Task` -/
def bleEventTask : Driver ConnReports ConnReportsEvent where
  task := .bleEvent
  own := step
  call s :=
    match s.phase with
    | .received e => some (.dispose (bleStateNotifyInfo e.state))
    | _ => none
  took s obtained :=
    match s.phase, obtained with
    | .received e, true => { s with phase := .notifying e }
    | _, _ => { s with phase := .ready }
  linked s f := { s with appended := s.appended ++ [f], phase := .ready }

/-- `ble_conn_state` is 0 at the start, and the task has not run yet. -/
def start : ConnReports := ⟨0, .ready, [], [], []⟩

/-- The events that `Ble_Event_Task` has yet to report. -/
def toProcess (s : ConnReports) : List ConnEvent :=
  (match s.phase with
    | .received e | .notifying e => [e]
    | _ => []) ++ s.bleEventMsg

/-- The state that a frame reports. -/
def reported (f : UartSendFormat) : Option UInt8 :=
  if hdrCmdId f.cmd = ntfConnState then some (f.cmd dataOff) else none

/-- The reports match what happened. -/
structure Matches (s : ConnReports) : Prop where
  order : s.appended.filterMap reported ++ s.toProcess.map ConnEvent.state =
    s.events.map ConnEvent.state
  last : s.toProcess = [] →
    ∀ state ∈ (s.appended.filterMap reported).getLast?, state = s.bleConnState

/-- An event is posted while the task waits for one. -/
def Awaited (s : ConnReports) : ConnReportsEvent → Prop
  | .conn _ => s.phase = .pending
  | .pend => True

instance (s : ConnReports) : ∀ e, Decidable (s.Awaited e)
  | .conn _ => inferInstanceAs (Decidable (_ = _))
  | .pend => isTrue trivial

/-! ### The invariant -/

/-- The task is in a call exactly while it is notifying. -/
def At (s : ConnReports) : Pc → Prop
  | .idle => ∀ e, s.phase ≠ .notifying e
  | .taken c _ | .filled c _ _ =>
      ∃ e, s.phase = .notifying e ∧ c = .dispose (bleStateNotifyInfo e.state)

/-- What each step preserves. -/
structure Inv (s : ConnReports) (pc : Pc) : Prop where
  order : s.appended.filterMap reported ++ s.toProcess.map ConnEvent.state =
    s.events.map ConnEvent.state
  noMsg : s.bleEventMsg = []
  current : ∀ e ∈ s.events.getLast?, e.state = s.bleConnState
  pc : s.At pc

variable {s : ConnReports} {pc : Pc}

theorem reported_of_frame {f : UartSendFormat} {sn : UInt8} {e : ConnEvent}
    (h : f.frame = (Call.dispose (bleStateNotifyInfo e.state)).bytes sn) :
    reported f = some e.state := by
  obtain ⟨msb, lsb, sum, hbytes⟩ : ∃ msb lsb sum, f.frame =
      [wifiampMdlHeader, msb, lsb, 0, sn, pdttypeBleModule, ntfConnState, e.state, sum] :=
    ⟨_, _, _, h⟩
  have hlen : f.cmdLen = 9 := by
    rw [← f.length_frame, hbytes]
    rfl
  have h6 : f.frame[6]? = some (f.cmd 6) := UartSendFormat.getElem?_frame (by omega)
  have h7 : f.frame[7]? = some (f.cmd 7) := UartSendFormat.getElem?_frame (by omega)
  rw [hbytes] at h6 h7
  simp only [List.getElem?_cons_succ, List.getElem?_cons_zero, Option.some.injEq] at h6 h7
  rw [reported, hdrCmdId, ← h6, if_pos rfl, dataOff, ← h7]

theorem Inv.conn (h : s.Inv pc) (hpend : s.phase = .pending) (nbrFree : Nat) (e : ConnEvent) :
    (s.step nbrFree (.conn e)).Inv pc := by
  have hstep : s.step nbrFree (.conn e) =
      { s with bleConnState := e.state, events := s.events ++ [e], phase := .received e } :=
    if_pos hpend
  rw [hstep]
  refine ⟨?_, h.noMsg, by simp, ?_⟩
  · have horder := h.order
    simp only [toProcess, hpend, h.noMsg, List.append_nil, List.map_nil] at horder ⊢
    rw [horder]
    simp
  · have hpc := h.pc
    cases pc <;> simp_all [At]

theorem Inv.pend (h : s.Inv pc) (nbrFree : Nat) : (s.step nbrFree .pend).Inv pc := by
  simp only [step, osqPend]
  cases hphase : s.phase with
  | pending | received | notifying => exact h
  | ready =>
      simp only [h.noMsg]
      refine ⟨?_, rfl, h.current, ?_⟩
      · simpa [toProcess, hphase, h.noMsg] using h.order
      · have hpc := h.pc
        cases pc <;> simp_all [At]

/-- The task calls only with an event in hand, to report it. -/
theorem phase_of_call {c : Call} (hcall : bleEventTask.call s = some c) :
    ∃ e, s.phase = .received e ∧ c = .dispose (bleStateNotifyInfo e.state) := by
  cases hphase : s.phase with
  | received e =>
      simp only [bleEventTask, hphase, Option.some.injEq] at hcall
      exact ⟨e, rfl, hcall.symm⟩
  | ready | pending | notifying => simp [bleEventTask, hphase] at hcall

theorem keeps : bleEventTask.Keeps Awaited (fun free => free ≠ []) Inv where
  own {s pc e} h hawaited nbrFree := by
    cases e with
    | conn e => exact h.conn hawaited nbrFree e
    | pend => exact h.pend nbrFree
  makes _ hcall := by
    obtain ⟨e, -, rfl⟩ := phase_of_call hcall
    rfl
  refused _ _ hnone := absurd rfl hnone
  took {s c} h hcall b := by
    obtain ⟨e, hphase, rfl⟩ := phase_of_call hcall
    refine ⟨?_, by simpa [bleEventTask, hphase] using h.noMsg,
      by simpa [bleEventTask, hphase] using h.current, ?_⟩
    · simpa [bleEventTask, toProcess, hphase] using h.order
    · exact ⟨e, by simp [bleEventTask, hphase], rfl⟩
  filled h _ := ⟨h.order, h.noMsg, h.current, h.pc⟩
  linked {s c b sn f} h hframe _ := by
    obtain ⟨e, hphase, rfl⟩ := h.pc
    refine ⟨?_, h.noMsg, h.current, by simp [bleEventTask, At]⟩
    have horder := h.order
    simp only [toProcess, hphase, h.noMsg, List.append_nil, List.map_cons, List.map_nil] at horder
    simp [bleEventTask, toProcess, h.noMsg, List.filterMap_append, reported_of_frame hframe,
      horder]

theorem Inv.matches (h : s.Inv pc) : s.Matches := by
  refine ⟨h.order, ?_⟩
  intro hnone state hstate
  have horder := h.order
  rw [hnone, List.map_nil, List.append_nil] at horder
  rw [horder, List.getLast?_map] at hstate
  obtain ⟨e, he, rfl⟩ := Option.map_eq_some_iff.mp hstate
  exact h.current e he

end ConnReports

/-- Where every event finds the task waiting, every notification a buffer, and the
buffers stay apart, **the reports match the connection events**. -/
theorem conn_reports_match (heap : Heap) (mem : BufId → UartSendFormat)
    (es : List (DriverEvent ConnReportsEvent))
    (guarded : ConnReports.bleEventTask.GuardedFrom
      (ConnReports.bleEventTask.Clean ConnReports.Awaited fun free => free ≠ [])
      ConnReports.start heap mem 0 es) :
    ∃ s, ConnReports.bleEventTask.runFrom ConnReports.start heap mem 0 es = some s ∧
      s.loc.Matches := by
  obtain ⟨s, hrun, hinv⟩ := Driver.run_keeps ConnReports.keeps
    ⟨rfl, rfl, by simp [ConnReports.start], by simp [ConnReports.start, ConnReports.At]⟩ guarded
  exact ⟨s, hrun, hinv.matches⟩

/-- A connection that is opened, reported and closed. -/
def ConnReports.openClose : List (DriverEvent ConnReportsEvent) :=
  [.own .pend, .own (.conn .opened), .take, .fill, .link, .own .pend, .other .pend, .other .tick,
    .own (.conn .closed), .take, .fill, .link]

theorem conn_reports_match_openClose :
    ∃ s, ConnReports.bleEventTask.runFrom ConnReports.start Sys.blankHeap Sys.blankMem 0
        ConnReports.openClose = some s ∧ s.loc.Matches :=
  conn_reports_match _ _ _ (by decide +kernel)

/-- The second event comes while the task still has the first one: there is no
`OS_MSG` for it, and it is lost. -/
theorem second_event_lost :
    ¬ ∀ heap mem es s, ConnReports.bleEventTask.runFrom ConnReports.start heap mem 0 es = some s →
      s.loc.Matches := by
  intro h
  have hlost : (ConnReports.bleEventTask.runFrom ConnReports.start Sys.blankHeap Sys.blankMem 0
      [.own .pend, .own (.conn .opened), .own (.conn .closed)]).any (fun s =>
        decide (s.loc.toProcess = [.opened] ∧ s.loc.appended.length = 0 ∧
          s.loc.events = [.opened, .closed])) = true := by
    decide +kernel
  cases hrun : ConnReports.bleEventTask.runFrom ConnReports.start Sys.blankHeap Sys.blankMem 0
      [.own .pend, .own (.conn .opened), .own (.conn .closed)] with
  | none => simp [hrun] at hlost
  | some s =>
      simp only [hrun, Option.any_some, decide_eq_true_eq, List.length_eq_zero_iff] at hlost
      have horder := (h _ _ _ s hrun).order
      rw [hlost.1, hlost.2.1, hlost.2.2] at horder
      simp [ConnEvent.state] at horder

end WifiExpander
