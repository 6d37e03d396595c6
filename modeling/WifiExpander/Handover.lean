import WifiExpander.GeckoMoves

/-!
Events and commands between the Bluetooth tasks, over whole runs.

Events and commands are handed over in the same way: the history of each is one of a
`handshake`. For the events this holds of every run. For the commands it is assumed that
no task begins one while another is under way, which is what `BluetoothPend` and
`BluetoothPost` are for; with it each task gets the response to its own command.
-/

namespace WifiExpander

open Theory

variable {τ φ π ρ ε : Type}

namespace Gecko

variable {s s' : Gecko τ φ π ρ ε} {t u : GeckoTask τ} {e : GeckoEvent τ φ π ρ ε}

/-! ### Events -/

/-- What has been done with the events. -/
def eventHistory (log : List (GeckoObs τ φ π ρ ε)) : List (HandshakeEvent ε Unit ε) :=
  log.flatMap fun
    | .polled (some evt) => [.offer evt]
    | .handed evt => [.take evt]
    | .handled evt => [.answer (), .collect evt ()]
    | _ => []

/-- `BluetoothApplicationTask` waits for an event, or is about to. -/
def Away (s : Gecko τ φ π ρ ε) : Prop := s.application = .pend ∨ s.application = .waiting

/-- Whose turn it is: exactly one of `flags`, the two flags in the group and the place of
`BluetoothApplicationTask` says so. -/
inductive EventPhase (s : Gecko τ φ π ρ ε) : Handshake ε Unit → Prop where
  | resting : .evtHandled ∈ s.flags → .evtWaiting ∉ s.grp.flags → .evtHandled ∉ s.grp.flags →
      s.Away → s.bluetooth ≠ .postEvt → s.EventPhase .free
  | found {evt : ε} : .evtHandled ∈ s.flags → .evtWaiting ∉ s.grp.flags →
      .evtHandled ∉ s.grp.flags → s.Away → s.bluetooth = .postEvt →
      s.bluetoothEvt = some evt → s.EventPhase (.offered evt)
  | posted {evt : ε} : .evtHandled ∉ s.flags → .evtWaiting ∈ s.grp.flags →
      .evtHandled ∉ s.grp.flags → s.Away → s.bluetoothEvt = some evt → s.EventPhase (.offered evt)
  | fetched {evt : ε} : .evtHandled ∉ s.flags → .evtWaiting ∉ s.grp.flags →
      .evtHandled ∉ s.grp.flags → s.application = .readEvt → s.bluetoothEvt = some evt →
      s.EventPhase (.offered evt)
  | handling {evt : ε} : .evtHandled ∉ s.flags → .evtWaiting ∉ s.grp.flags →
      .evtHandled ∉ s.grp.flags → s.application = .handling evt → s.bluetoothEvt = some evt →
      s.EventPhase (.taken evt)
  | finished : .evtHandled ∉ s.flags → .evtWaiting ∉ s.grp.flags → .evtHandled ∉ s.grp.flags →
      s.application = .postHandled → s.EventPhase .free
  | returned : .evtHandled ∉ s.flags → .evtWaiting ∉ s.grp.flags → .evtHandled ∈ s.grp.flags →
      s.Away → s.EventPhase .free

/-- The two states have the same part in the handing over of events. -/
structure SameEvents (s s' : Gecko τ φ π ρ ε) : Prop where
  evt : s'.bluetoothEvt = s.bluetoothEvt
  application : s'.application = s.application
  turn : .evtHandled ∈ s'.flags ↔ .evtHandled ∈ s.flags
  waiting : .evtWaiting ∈ s'.grp.flags ↔ .evtWaiting ∈ s.grp.flags
  handled : .evtHandled ∈ s'.grp.flags ↔ .evtHandled ∈ s.grp.flags
  posting : s'.bluetooth = .postEvt ↔ s.bluetooth = .postEvt

theorem EventPhase.same {p : Handshake ε Unit} (h : s.EventPhase p) (hsame : s.SameEvents s') :
    s'.EventPhase p := by
  obtain ⟨hevt, happ, hturn, hwaiting, hhandled, hposting⟩ := hsame
  have haway : s.Away → s'.Away := by simp [Away, happ]
  cases h with
  | resting h₁ h₂ h₃ h₄ h₅ =>
      exact .resting (hturn.mpr h₁) (mt hwaiting.mp h₂) (mt hhandled.mp h₃) (haway h₄)
        (mt hposting.mp h₅)
  | found h₁ h₂ h₃ h₄ h₅ h₆ =>
      exact .found (hturn.mpr h₁) (mt hwaiting.mp h₂) (mt hhandled.mp h₃) (haway h₄)
        (hposting.mpr h₅) (hevt.trans h₆)
  | posted h₁ h₂ h₃ h₄ h₅ =>
      exact .posted (mt hturn.mp h₁) (hwaiting.mpr h₂) (mt hhandled.mp h₃) (haway h₄)
        (hevt.trans h₅)
  | fetched h₁ h₂ h₃ h₄ h₅ =>
      exact .fetched (mt hturn.mp h₁) (mt hwaiting.mp h₂) (mt hhandled.mp h₃) (happ.trans h₄)
        (hevt.trans h₅)
  | handling h₁ h₂ h₃ h₄ h₅ =>
      exact .handling (mt hturn.mp h₁) (mt hwaiting.mp h₂) (mt hhandled.mp h₃) (happ.trans h₄)
        (hevt.trans h₅)
  | finished h₁ h₂ h₃ h₄ =>
      exact .finished (mt hturn.mp h₁) (mt hwaiting.mp h₂) (mt hhandled.mp h₃) (happ.trans h₄)
  | returned h₁ h₂ h₃ h₄ =>
      exact .returned (mt hturn.mp h₁) (mt hwaiting.mp h₂) (hhandled.mpr h₃) (haway h₄)

/-- It is the turn of `BluetoothTask`. -/
theorem EventPhase.of_turn {p : Handshake ε Unit} (h : s.EventPhase p)
    (hturn : .evtHandled ∈ s.flags) :
    .evtWaiting ∉ s.grp.flags ∧ .evtHandled ∉ s.grp.flags ∧ s.Away ∧
      (s.bluetooth ≠ .postEvt ∧ p = .free ∨
        ∃ evt, s.bluetooth = .postEvt ∧ s.bluetoothEvt = some evt ∧ p = .offered evt) := by
  cases h with
  | resting h₁ h₂ h₃ h₄ h₅ => exact ⟨h₂, h₃, h₄, .inl ⟨h₅, rfl⟩⟩
  | found h₁ h₂ h₃ h₄ h₅ h₆ => exact ⟨h₂, h₃, h₄, .inr ⟨_, h₅, h₆, rfl⟩⟩
  | posted h₁ => exact absurd hturn h₁
  | fetched h₁ => exact absurd hturn h₁
  | handling h₁ => exact absurd hturn h₁
  | finished h₁ => exact absurd hturn h₁
  | returned h₁ => exact absurd hturn h₁

/-- `BluetoothApplicationTask` has an event, or had it. -/
theorem EventPhase.of_busy {p : Handshake ε Unit} (h : s.EventPhase p) (hbusy : ¬ s.Away) :
    .evtHandled ∉ s.flags ∧ .evtWaiting ∉ s.grp.flags ∧ .evtHandled ∉ s.grp.flags ∧
      ((∃ evt, s.bluetoothEvt = some evt ∧ s.application = .readEvt ∧ p = .offered evt) ∨
        (∃ evt, s.bluetoothEvt = some evt ∧ s.application = .handling evt ∧ p = .taken evt) ∨
        s.application = .postHandled ∧ p = .free) := by
  cases h with
  | resting _ _ _ h₄ => exact absurd h₄ hbusy
  | found _ _ _ h₄ => exact absurd h₄ hbusy
  | posted _ _ _ h₄ => exact absurd h₄ hbusy
  | fetched h₁ h₂ h₃ h₄ h₅ => exact ⟨h₁, h₂, h₃, .inl ⟨_, h₅, h₄, rfl⟩⟩
  | handling h₁ h₂ h₃ h₄ h₅ => exact ⟨h₁, h₂, h₃, .inr (.inl ⟨_, h₅, h₄, rfl⟩)⟩
  | finished h₁ h₂ h₃ h₄ => exact ⟨h₁, h₂, h₃, .inr (.inr ⟨h₄, rfl⟩)⟩
  | returned _ _ _ h₄ => exact absurd h₄ hbusy

section Events

variable [DecidableEq τ] [DecidableEq ε] {prio : GeckoTask τ → Nat} {alone : Prop}

/-- The events were handed over, and the last one is where its history says. -/
def EventsInOrder (s : Gecko τ φ π ρ ε) : Prop :=
  ∃ p, (handshake id).run .free (eventHistory s.log) = some p ∧ s.EventPhase p

omit [DecidableEq τ] in
theorem EventsInOrder.same (h : s.EventsInOrder)
    (hlog : eventHistory s'.log = eventHistory s.log) (hsame : s.SameEvents s') :
    s'.EventsInOrder := by
  obtain ⟨p, hrun, hphase⟩ := h
  exact ⟨p, hlog ▸ hrun, hphase.same hsame⟩

omit [DecidableEq τ] in
/-- Nothing was done with the events. -/
theorem EventsInOrder.kept {p : Handshake ε Unit}
    (hrun : (handshake id).run .free (eventHistory s.log) = some p)
    (hlog : eventHistory s'.log = eventHistory s.log) (hphase : s'.EventPhase p) :
    s'.EventsInOrder :=
  ⟨p, hlog ▸ hrun, hphase⟩

omit [DecidableEq τ] in
/-- Something was done. -/
theorem EventsInOrder.extend {p p' : Handshake ε Unit} {obs : GeckoObs τ φ π ρ ε}
    (hrun : (handshake id).run .free (eventHistory s.log) = some p)
    (hlog : s'.log = s.log ++ [obs]) (hstep : (handshake id).run p (eventHistory [obs]) = some p')
    (hphase : s'.EventPhase p') : s'.EventsInOrder := by
  refine ⟨p', ?_, hphase⟩
  rw [hlog, eventHistory, List.flatMap_append, Machine.run_append]
  change ((handshake id).run .free (eventHistory s.log)).bind _ = _
  rw [hrun]
  exact hstep

theorem loop_ne_postEvt {flags : Finset BluetoothFlag} :
    (loop flags : BluetoothPc φ) ≠ .postEvt := by
  unfold loop update
  split
  · simp
  · split <;> simp

theorem update_ne_postEvt {flags : Finset BluetoothFlag} :
    (update flags : BluetoothPc φ) ≠ .postEvt := by
  unfold update
  split <;> simp

theorem EventsInOrder.step (h : s.EventsInOrder) (hsound : s.Sound prio alone)
    (hmoves : s.Moves alone e s') : s'.EventsInOrder := by
  have hfollows := hsound.follows
  cases hmoves with
  | readsHeader hpc => exact h.same rfl (by constructor <;> simp [hpc])
  | readsHandler hpc => exact h.same rfl (by constructor <;> simp [hpc])
  | executes hpc =>
      exact h.same (by simp [record, eventHistory]) (by constructor <;> simp [hpc, record])
  | clearsHandler hpc => exact h.same rfl (by constructor <;> simp [hpc])
  | postsRsp hpc =>
      refine h.same rfl ?_
      constructor <;> simp [hpc, post, FlagGrp.posted, update_ne_postEvt]
  | goesOn hpc hmine => exact h.same rfl (by constructor <;> simp [hpc, loop_ne_postEvt])
  | sleeps hpc => exact h.same rfl (by constructor <;> simp [hpc])
  | bluetoothBlocks hpc hflags => exact h.same rfl (by constructor <;> simp [hpc, hflags])
  | bluetoothTimesOut hpc hflags =>
      exact h.same rfl (by constructor <;> simp [hpc, hflags, resume, loop_ne_postEvt])
  | @applicationBlocks g hpc hflags =>
      obtain ⟨p, hrun, hphase⟩ := h
      refine .kept hrun rfl ?_
      have haway : Away { s with grp := g, application := .waiting } := .inr rfl
      cases hphase with
      | resting h₁ h₂ h₃ _ h₅ => exact .resting h₁ (hflags ▸ h₂) (hflags ▸ h₃) haway h₅
      | found h₁ h₂ h₃ _ h₅ h₆ => exact .found h₁ (hflags ▸ h₂) (hflags ▸ h₃) haway h₅ h₆
      | posted h₁ h₂ h₃ _ h₅ => exact .posted h₁ (hflags ▸ h₂) (hflags ▸ h₃) haway h₅
      | returned h₁ h₂ h₃ => exact .returned h₁ (hflags ▸ h₂) (hflags ▸ h₃) haway
      | fetched _ _ _ happ => simp [hpc] at happ
      | handling _ _ _ happ => simp [hpc] at happ
      | finished _ _ _ happ => simp [hpc] at happ
  | linklayer hflags =>
      refine h.same rfl ?_
      rcases hflags with hflags | hflags <;> constructor <;> simp [hflags]
  | issues hcall =>
      exact h.same (by simp [record, setCall, eventHistory]) ⟨rfl, rfl, .rfl, .rfl, .rfl, .rfl⟩
  | fills hcall => exact h.same rfl ⟨rfl, rfl, .rfl, .rfl, .rfl, .rfl⟩
  | setsHeader hcall => exact h.same rfl ⟨rfl, rfl, .rfl, .rfl, .rfl, .rfl⟩
  | setsHandler hcall => exact h.same rfl ⟨rfl, rfl, .rfl, .rfl, .rfl, .rfl⟩
  | setsData hcall => exact h.same rfl ⟨rfl, rfl, .rfl, .rfl, .rfl, .rfl⟩
  | posts hcall => exact h.same rfl (by constructor <;> simp [post, setCall, FlagGrp.posted])
  | commandTakes hcall hset hflags =>
      exact h.same rfl (by constructor <;> simp [setCall, hflags])
  | commandBlocks hcall hflags => exact h.same rfl (by constructor <;> simp [setCall, hflags])
  | responds hcall =>
      exact h.same (by simp [record, setCall, eventHistory]) ⟨rfl, rfl, .rfl, .rfl, .rfl, .rfl⟩
  | updates =>
      refine h.same (by simp [record, post, eventHistory]) ?_
      constructor <;> simp [post, record, FlagGrp.posted]
  | callsBack => exact h.same rfl (by constructor <;> simp [post, FlagGrp.posted])
  | expires hflags => exact h.same rfl (by constructor <;> simp [hflags])
  | finds hpc =>
      rw [hpc] at hfollows
      obtain ⟨-, hturn⟩ := hfollows.polls trivial
      obtain ⟨p, hrun, hphase⟩ := h
      rcases hphase.of_turn hturn with ⟨h₂, h₃, h₄, ⟨-, rfl⟩ | ⟨_, hother, -⟩⟩
      · exact .extend hrun rfl rfl (.found hturn h₂ h₃ h₄ rfl rfl)
      · simp [hpc] at hother
  | findsNothing hpc =>
      rw [hpc] at hfollows
      obtain ⟨-, hturn⟩ := hfollows.polls trivial
      obtain ⟨p, hrun, hphase⟩ := h
      rcases hphase.of_turn hturn with ⟨h₂, h₃, h₄, ⟨-, rfl⟩ | ⟨_, hother, -⟩⟩
      · exact .kept hrun (by simp [record, eventHistory])
          (.resting (Finset.mem_erase_of_ne_of_mem (by simp) hturn) h₂ h₃ h₄ (by simp [record]))
      · simp [hpc] at hother
  | postsEvt hpc =>
      rw [hpc] at hfollows
      obtain ⟨-, hturn⟩ := hfollows.polls trivial
      obtain ⟨p, hrun, hphase⟩ := h
      rcases hphase.of_turn hturn with ⟨h₂, h₃, h₄, ⟨hother, -⟩ | ⟨evt, -, hevt, rfl⟩⟩
      · exact absurd hpc hother
      · exact .kept hrun rfl (.posted (Finset.notMem_erase _ _) (by simp [post, FlagGrp.posted])
          (by simpa [post, FlagGrp.posted] using h₃) h₄ hevt)
  | @bluetoothTakes timeout rdy g hpc hsub hwant hflags =>
      have hevt : .evtWaiting ∉ rdy := fun hmem => by simpa [bluetoothWait] using hwant hmem
      have hbt : s.bluetooth ≠ .postEvt := by
        rcases hpc with hpc | hpc <;> simp [hpc]
      by_cases hmem : .evtHandled ∈ rdy
      · obtain ⟨p, hrun, hphase⟩ := h
        refine .kept hrun rfl ?_
        cases hphase with
        | returned h₁ h₂ _ h₄ =>
            refine .resting (Finset.mem_union_right _ hmem) ?_ ?_ h₄ loop_ne_postEvt
            · exact fun hin => h₂ (Finset.mem_sdiff.mp (hflags ▸ hin)).1
            · exact fun hin => (Finset.mem_sdiff.mp (hflags ▸ hin)).2 hmem
        | resting _ _ h₃ => exact absurd (hsub hmem) h₃
        | found _ _ h₃ => exact absurd (hsub hmem) h₃
        | posted _ _ h₃ => exact absurd (hsub hmem) h₃
        | fetched _ _ h₃ => exact absurd (hsub hmem) h₃
        | handling _ _ h₃ => exact absurd (hsub hmem) h₃
        | finished _ _ h₃ => exact absurd (hsub hmem) h₃
      · refine h.same rfl ?_
        constructor <;> simp [resume, hflags, hmem, hevt, hbt, loop_ne_postEvt]
  | applicationTakes hpc hset hflags =>
      obtain ⟨p, hrun, hphase⟩ := h
      refine .kept hrun rfl ?_
      cases hphase with
      | posted h₁ h₂ h₃ h₄ h₅ =>
          exact .fetched h₁ (by simp [hflags]) (by simpa [hflags] using h₃) rfl h₅
      | resting _ h₂ => exact absurd hset h₂
      | found _ h₂ => exact absurd hset h₂
      | fetched _ h₂ => exact absurd hset h₂
      | handling _ h₂ => exact absurd hset h₂
      | finished _ h₂ => exact absurd hset h₂
      | returned _ h₂ => exact absurd hset h₂
  | @readsEvt evt hpc hevt =>
      obtain ⟨p, hrun, hphase⟩ := h
      obtain ⟨h₁, h₂, h₃, ⟨evt', hevt', -, rfl⟩ | ⟨_, -, hother, -⟩ | ⟨hother, -⟩⟩ :=
        hphase.of_busy (by simp [Away, hpc])
      · obtain rfl := Option.some.inj (hevt.symm.trans hevt')
        exact .extend hrun rfl (by simp [eventHistory, Machine.run, handshake])
          (.handling h₁ h₂ h₃ rfl hevt)
      · simp [hpc] at hother
      · simp [hpc] at hother
  | @handles evt hpc hcall =>
      obtain ⟨p, hrun, hphase⟩ := h
      obtain ⟨h₁, h₂, h₃, ⟨_, -, hother, -⟩ | ⟨evt', hevt', hpc', rfl⟩ | ⟨hother, -⟩⟩ :=
        hphase.of_busy (by simp [Away, hpc])
      · simp [hpc] at hother
      · obtain rfl := ApplicationPc.handling.inj (hpc.symm.trans hpc')
        exact .extend hrun rfl (by simp [eventHistory, Machine.run, handshake])
          (.finished h₁ h₂ h₃ rfl)
      · simp [hpc] at hother
  | postsHandled hpc =>
      obtain ⟨p, hrun, hphase⟩ := h
      obtain ⟨h₁, h₂, h₃, ⟨_, -, hother, -⟩ | ⟨_, -, hother, -⟩ | ⟨-, rfl⟩⟩ :=
        hphase.of_busy (by simp [Away, hpc])
      · simp [hpc] at hother
      · simp [hpc] at hother
      · exact .kept hrun rfl (.returned h₁ (by simpa [post, FlagGrp.posted] using h₂)
          (by simp [post, FlagGrp.posted]) (.inl rfl))

end Events

/-! ### Commands -/

/-- What has been done with the commands; the stack does not see who issued one. -/
def commandHistory (log : List (GeckoObs τ φ π ρ ε)) :
    List (HandshakeEvent (GeckoTask τ × GeckoCommand φ π) ρ (GeckoCommand φ π)) :=
  log.flatMap fun
    | .issued t c => [.offer (t, c)]
    | .executed c r => [.take c, .answer r]
    | .responded t c r => [.collect (t, c) r]
    | _ => []

/-- The command is in the shared variables. -/
structure Stored (s : Gecko τ φ π ρ ε) (c : GeckoCommand φ π) : Prop where
  packet : s.cmdMsg = c.packet
  header : s.commandHeader = c.packet.header
  handler : s.commandHandlerFunc = c.handler
  data : s.commandData = true

/-- Task `t` is on its way to post `CMD_WAITING`, with this much of its command stored. -/
inductive Storing (s : Gecko τ φ π ρ ε) (t : GeckoTask τ) (c : GeckoCommand φ π) : Prop where
  | fill : s.call t = .fill c → s.Storing t c
  | setHeader : s.call t = .setHeader c → s.cmdMsg = c.packet → s.Storing t c
  | setHandler : s.call t = .setHandler c → s.cmdMsg = c.packet →
      s.commandHeader = c.packet.header → s.Storing t c
  | setData : s.call t = .setData c → s.cmdMsg = c.packet → s.commandHeader = c.packet.header →
      s.commandHandlerFunc = c.handler → s.Storing t c
  | post : s.call t = .post c → s.Stored c → s.Storing t c

/-- Task `t` has posted `CMD_WAITING` and does not have its response. -/
def Asking (s : Gecko τ φ π ρ ε) (t : GeckoTask τ) (c : GeckoCommand φ π) : Prop :=
  s.call t = .pend c ∨ s.call t = .waiting c

/-- `BluetoothTask` has read this much of the command. -/
def Reading (s : Gecko τ φ π ρ ε) (c : GeckoCommand φ π) : Prop :=
  s.bluetooth = .readHeader ∨ s.bluetooth = .readHandler c.packet.header ∨
    s.bluetooth = .delegate c.packet.header c.handler

/-- How far the one command is. -/
inductive CommandPhase (s : Gecko τ φ π ρ ε) :
    Handshake (GeckoTask τ × GeckoCommand φ π) ρ → Prop where
  | free : .cmdWaiting ∉ s.flags → .cmdWaiting ∉ s.grp.flags → .rspWaiting ∉ s.grp.flags →
      (∀ t, s.call t = .idle) → s.CommandPhase .free
  | storing {t : GeckoTask τ} {c : GeckoCommand φ π} : .cmdWaiting ∉ s.flags →
      .cmdWaiting ∉ s.grp.flags → .rspWaiting ∉ s.grp.flags → s.Storing t c →
      s.CommandPhase (.offered (t, c))
  | asked {t : GeckoTask τ} {c : GeckoCommand φ π} : .cmdWaiting ∉ s.flags →
      .cmdWaiting ∈ s.grp.flags → .rspWaiting ∉ s.grp.flags → s.Asking t c → s.Stored c →
      s.CommandPhase (.offered (t, c))
  | accepted {t : GeckoTask τ} {c : GeckoCommand φ π} : .cmdWaiting ∈ s.flags →
      .cmdWaiting ∉ s.grp.flags → .rspWaiting ∉ s.grp.flags → s.Asking t c → s.Stored c →
      s.Reading c → s.CommandPhase (.offered (t, c))
  | executed {t : GeckoTask τ} {c : GeckoCommand φ π} : .cmdWaiting ∈ s.flags →
      .cmdWaiting ∉ s.grp.flags → .rspWaiting ∉ s.grp.flags → s.Asking t c →
      s.bluetooth = .clearHandler ∨ s.bluetooth = .postRsp →
      s.CommandPhase (.answered (t, c) s.rspMsg)
  | responded {t : GeckoTask τ} {c : GeckoCommand φ π} : .cmdWaiting ∉ s.flags →
      .cmdWaiting ∉ s.grp.flags → .rspWaiting ∈ s.grp.flags → s.Asking t c →
      s.CommandPhase (.answered (t, c) s.rspMsg)
  | reading {t : GeckoTask τ} {c : GeckoCommand φ π} : .cmdWaiting ∉ s.flags →
      .cmdWaiting ∉ s.grp.flags → .rspWaiting ∉ s.grp.flags → s.call t = .readRsp c →
      s.CommandPhase (.answered (t, c) s.rspMsg)

/-- The two states have the same part in the handing over of commands. -/
structure SameCommands (s s' : Gecko τ φ π ρ ε) : Prop where
  call : s'.call = s.call
  cmdMsg : s'.cmdMsg = s.cmdMsg
  header : s'.commandHeader = s.commandHeader
  handler : s'.commandHandlerFunc = s.commandHandlerFunc
  data : s'.commandData = s.commandData
  rspMsg : s'.rspMsg = s.rspMsg
  accepted : .cmdWaiting ∈ s'.flags ↔ .cmdWaiting ∈ s.flags
  asked : .cmdWaiting ∈ s'.grp.flags ↔ .cmdWaiting ∈ s.grp.flags
  responded : .rspWaiting ∈ s'.grp.flags ↔ .rspWaiting ∈ s.grp.flags
  place : .cmdWaiting ∈ s.flags → s'.bluetooth = s.bluetooth

section SameCommands

variable {c : GeckoCommand φ π}

theorem Stored.same (h : s.Stored c) (hsame : s.SameCommands s') : s'.Stored c :=
  ⟨hsame.cmdMsg.trans h.packet, hsame.header.trans h.header, hsame.handler.trans h.handler,
    hsame.data.trans h.data⟩

theorem Storing.same (h : s.Storing t c) (hsame : s.SameCommands s') : s'.Storing t c := by
  have hcall := congrFun hsame.call t
  cases h with
  | fill h₁ => exact .fill (hcall.trans h₁)
  | setHeader h₁ h₂ => exact .setHeader (hcall.trans h₁) (hsame.cmdMsg.trans h₂)
  | setHandler h₁ h₂ h₃ =>
      exact .setHandler (hcall.trans h₁) (hsame.cmdMsg.trans h₂) (hsame.header.trans h₃)
  | setData h₁ h₂ h₃ h₄ =>
      exact .setData (hcall.trans h₁) (hsame.cmdMsg.trans h₂) (hsame.header.trans h₃)
        (hsame.handler.trans h₄)
  | post h₁ h₂ => exact .post (hcall.trans h₁) (h₂.same hsame)

theorem CommandPhase.same {p : Handshake (GeckoTask τ × GeckoCommand φ π) ρ}
    (h : s.CommandPhase p) (hsame : s.SameCommands s') : s'.CommandPhase p := by
  have haccepted := hsame.accepted
  have hasked := hsame.asked
  have hresponded := hsame.responded
  have hask {t : GeckoTask τ} {c : GeckoCommand φ π} : s.Asking t c → s'.Asking t c := by
    simp [Asking, hsame.call]
  cases h with
  | free h₁ h₂ h₃ h₄ =>
      exact .free (mt haccepted.mp h₁) (mt hasked.mp h₂) (mt hresponded.mp h₃) fun t =>
        (congrFun hsame.call t).trans (h₄ t)
  | storing h₁ h₂ h₃ h₄ =>
      exact .storing (mt haccepted.mp h₁) (mt hasked.mp h₂) (mt hresponded.mp h₃) (h₄.same hsame)
  | asked h₁ h₂ h₃ h₄ h₅ =>
      exact .asked (mt haccepted.mp h₁) (hasked.mpr h₂) (mt hresponded.mp h₃) (hask h₄)
        (h₅.same hsame)
  | accepted h₁ h₂ h₃ h₄ h₅ h₆ =>
      refine .accepted (haccepted.mpr h₁) (mt hasked.mp h₂) (mt hresponded.mp h₃) (hask h₄)
        (h₅.same hsame) ?_
      rwa [Reading, hsame.place h₁]
  | executed h₁ h₂ h₃ h₄ h₅ =>
      rw [← hsame.rspMsg]
      exact .executed (haccepted.mpr h₁) (mt hasked.mp h₂) (mt hresponded.mp h₃) (hask h₄)
        (by rwa [hsame.place h₁])
  | responded h₁ h₂ h₃ h₄ =>
      rw [← hsame.rspMsg]
      exact .responded (mt haccepted.mp h₁) (mt hasked.mp h₂) (hresponded.mpr h₃) (hask h₄)
  | reading h₁ h₂ h₃ h₄ =>
      rw [← hsame.rspMsg]
      exact .reading (mt haccepted.mp h₁) (mt hasked.mp h₂) (mt hresponded.mp h₃)
        ((congrFun hsame.call _).trans h₄)

end SameCommands

section Commands

variable [DecidableEq τ] [DecidableEq φ] [DecidableEq π] [DecidableEq ρ]
  {prio : GeckoTask τ → Nat} {c : GeckoCommand φ π}
  {p : Handshake (GeckoTask τ × GeckoCommand φ π) ρ}

/-- The commands were handed over, and the last one is where its history says. -/
def CommandsInOrder (s : Gecko τ φ π ρ ε) : Prop :=
  ∃ p, (handshake Prod.snd).run .free (commandHistory s.log) = some p ∧ s.CommandPhase p

/-- Nothing was done with the commands. -/
theorem CommandsInOrder.kept (hrun : (handshake Prod.snd).run .free (commandHistory s.log) = some p)
    (hlog : commandHistory s'.log = commandHistory s.log) (hphase : s'.CommandPhase p) :
    s'.CommandsInOrder :=
  ⟨p, hlog ▸ hrun, hphase⟩

theorem CommandsInOrder.same (h : s.CommandsInOrder)
    (hlog : commandHistory s'.log = commandHistory s.log) (hsame : s.SameCommands s') :
    s'.CommandsInOrder := by
  obtain ⟨p, hrun, hphase⟩ := h
  exact .kept hrun hlog (hphase.same hsame)

/-- Something was done. -/
theorem CommandsInOrder.extend {p' : Handshake (GeckoTask τ × GeckoCommand φ π) ρ}
    {obs : GeckoObs τ φ π ρ ε}
    (hrun : (handshake Prod.snd).run .free (commandHistory s.log) = some p)
    (hlog : s'.log = s.log ++ [obs])
    (hstep : (handshake Prod.snd).run p (commandHistory [obs]) = some p')
    (hphase : s'.CommandPhase p') : s'.CommandsInOrder := by
  refine ⟨p', ?_, hphase⟩
  rw [hlog, commandHistory, List.flatMap_append, Machine.run_append]
  change ((handshake Prod.snd).run .free (commandHistory s.log)).bind _ = _
  rw [hrun]
  exact hstep

omit [DecidableEq τ] [DecidableEq φ] [DecidableEq π] [DecidableEq ρ] in
theorem Storing.ne_idle (h : s.Storing t c) : s.call t ≠ .idle := by
  cases h <;> simp_all

omit [DecidableEq τ] [DecidableEq φ] [DecidableEq π] [DecidableEq ρ] in
theorem Asking.ne_idle (h : s.Asking t c) : s.call t ≠ .idle := by
  rcases h with h | h <;> simp [h]

omit [DecidableEq τ] [DecidableEq φ] [DecidableEq π] [DecidableEq ρ] in
/-- A task in a command has the one that the history says. It waits for the response, or no flag
of the commands is set. -/
theorem CommandPhase.of_active (h : s.CommandPhase p) (hone : s.Alone)
    (hactive : s.call t ≠ .idle) :
    ∃ c, s.Asking t c ∨ .cmdWaiting ∉ s.flags ∧ .cmdWaiting ∉ s.grp.flags ∧
      .rspWaiting ∉ s.grp.flags ∧ (s.Storing t c ∧ p = .offered (t, c) ∨
        s.call t = .readRsp c ∧ p = .answered (t, c) s.rspMsg) := by
  cases h with
  | free _ _ _ h₄ => exact absurd (h₄ t) hactive
  | @storing u c h₁ h₂ h₃ h₄ =>
      obtain rfl := hone u t h₄.ne_idle hactive
      exact ⟨c, .inr ⟨h₁, h₂, h₃, .inl ⟨h₄, rfl⟩⟩⟩
  | @asked u c _ _ _ h₄ => exact hone u t h₄.ne_idle hactive ▸ ⟨c, .inl h₄⟩
  | @accepted u c _ _ _ h₄ => exact hone u t h₄.ne_idle hactive ▸ ⟨c, .inl h₄⟩
  | @executed u c _ _ _ h₄ => exact hone u t h₄.ne_idle hactive ▸ ⟨c, .inl h₄⟩
  | @responded u c _ _ _ h₄ => exact hone u t h₄.ne_idle hactive ▸ ⟨c, .inl h₄⟩
  | @reading u c h₁ h₂ h₃ h₄ =>
      obtain rfl := hone u t (by simp [h₄]) hactive
      exact ⟨c, .inr ⟨h₁, h₂, h₃, .inr ⟨h₄, rfl⟩⟩⟩

omit [DecidableEq τ] [DecidableEq φ] [DecidableEq π] [DecidableEq ρ] in
/-- A task that stores its command is the one that the history says. -/
theorem CommandPhase.of_storing (h : s.CommandPhase p) (hone : s.Alone)
    (hcall : s.call t = .fill c ∨ s.call t = .setHeader c ∨ s.call t = .setHandler c ∨
      s.call t = .setData c ∨ s.call t = .post c) :
    .cmdWaiting ∉ s.flags ∧ .cmdWaiting ∉ s.grp.flags ∧ .rspWaiting ∉ s.grp.flags ∧
      s.Storing t c ∧ p = .offered (t, c) := by
  have hactive : s.call t ≠ .idle := by grind
  rcases h.of_active hone hactive with ⟨d, hask | ⟨h₁, h₂, h₃, ⟨hstoring, rfl⟩ | ⟨hread, -⟩⟩⟩
  · grind [Asking]
  · obtain rfl : d = c := by
      cases hstoring <;> grind
    exact ⟨h₁, h₂, h₃, hstoring, rfl⟩
  · grind

omit [DecidableEq τ] [DecidableEq φ] [DecidableEq π] [DecidableEq ρ] in
/-- `BluetoothTask` is at the command that the history says. -/
theorem CommandPhase.of_executing (h : s.CommandPhase p) (hcmd : .cmdWaiting ∈ s.flags) :
    .cmdWaiting ∉ s.grp.flags ∧ .rspWaiting ∉ s.grp.flags ∧ ∃ t c, s.Asking t c ∧
      (s.Stored c ∧ s.Reading c ∧ p = .offered (t, c) ∨
        (s.bluetooth = .clearHandler ∨ s.bluetooth = .postRsp) ∧
          p = .answered (t, c) s.rspMsg) := by
  cases h with
  | free h₁ => exact absurd hcmd h₁
  | storing h₁ => exact absurd hcmd h₁
  | asked h₁ => exact absurd hcmd h₁
  | accepted h₁ h₂ h₃ h₄ h₅ h₆ => exact ⟨h₂, h₃, _, _, h₄, .inl ⟨h₅, h₆, rfl⟩⟩
  | executed h₁ h₂ h₃ h₄ h₅ => exact ⟨h₂, h₃, _, _, h₄, .inr ⟨h₅, rfl⟩⟩
  | responded h₁ => exact absurd hcmd h₁
  | reading h₁ => exact absurd hcmd h₁

theorem CommandsInOrder.step (h : s.CommandsInOrder) {alone : Prop} (hsound : s.Sound prio alone)
    (ha : alone) (hguard : s.OneAtATime e) (hmoves : s.Moves alone e s') : s'.CommandsInOrder := by
  have hfollows := hsound.follows
  have hone := hsound.one ha
  have hidle (hpc : ¬ s.bluetooth.executing) : .cmdWaiting ∉ s.flags := mt hfollows.command.mp hpc
  cases hmoves with
  | finds hpc =>
      have hcmd := hidle (by simp [hpc, BluetoothPc.executing])
      exact h.same (by simp [record, commandHistory]) (by constructor <;> simp [record, hcmd])
  | findsNothing hpc =>
      have hcmd := hidle (by simp [hpc, BluetoothPc.executing])
      exact h.same (by simp [record, commandHistory]) (by constructor <;> simp [record, hcmd])
  | postsEvt hpc =>
      have hcmd := hidle (by simp [hpc, BluetoothPc.executing])
      exact h.same rfl (by constructor <;> simp [post, FlagGrp.posted, hcmd])
  | goesOn hpc hmine =>
      have hcmd := hidle (by simp [hpc, BluetoothPc.executing])
      exact h.same rfl (by constructor <;> simp [hcmd])
  | sleeps hpc =>
      have hcmd := hidle (by simp [hpc, BluetoothPc.executing])
      exact h.same rfl (by constructor <;> simp [hcmd])
  | bluetoothBlocks hpc hflags =>
      have hcmd := hidle (by simp [hpc, BluetoothPc.executing])
      exact h.same rfl (by constructor <;> simp [hcmd, hflags])
  | bluetoothTimesOut hpc hflags =>
      have hcmd := hidle (by simp [hpc, BluetoothPc.executing])
      exact h.same rfl (by constructor <;> simp [resume, hcmd, hflags])
  | applicationTakes hpc hset hflags => exact h.same rfl (by constructor <;> simp [hflags])
  | applicationBlocks hpc hflags => exact h.same rfl (by constructor <;> simp [hflags])
  | readsEvt hpc hevt =>
      exact h.same (by simp [record, commandHistory]) (by constructor <;> simp [record])
  | handles hpc hcall =>
      exact h.same (by simp [record, commandHistory]) (by constructor <;> simp [record])
  | postsHandled hpc => exact h.same rfl (by constructor <;> simp [post, FlagGrp.posted])
  | linklayer hflags =>
      refine h.same rfl ?_
      rcases hflags with hflags | hflags <;> constructor <;> simp [hflags]
  | updates =>
      refine h.same (by simp [record, post, commandHistory]) ?_
      constructor <;> simp [post, record, FlagGrp.posted]
  | callsBack => exact h.same rfl (by constructor <;> simp [post, FlagGrp.posted])
  | expires hflags => exact h.same rfl (by constructor <;> simp [hflags])
  | readsHeader hpc =>
      have hcmd := hfollows.command.mpr (by simp [hpc, BluetoothPc.executing])
      obtain ⟨p, hrun, hphase⟩ := h
      rcases hphase.of_executing hcmd with ⟨h₂, h₃, t, c, h₄, ⟨h₅, -, rfl⟩ | ⟨hlate, -⟩⟩
      · exact .kept hrun rfl (.accepted hcmd h₂ h₃ h₄
          ⟨h₅.packet, h₅.header, h₅.handler, h₅.data⟩ (.inr (.inl (by rw [h₅.header]))))
      · simp [hpc] at hlate
  | readsHandler hpc =>
      have hcmd := hfollows.command.mpr (by simp [hpc, BluetoothPc.executing])
      obtain ⟨p, hrun, hphase⟩ := h
      rcases hphase.of_executing hcmd with ⟨h₂, h₃, t, c, h₄, ⟨h₅, hread, rfl⟩ | ⟨hlate, -⟩⟩
      · obtain rfl : _ = c.packet.header := by simpa [Reading, hpc] using hread
        exact .kept hrun rfl (.accepted hcmd h₂ h₃ h₄
          ⟨h₅.packet, h₅.header, h₅.handler, h₅.data⟩ (.inr (.inr (by rw [h₅.handler]))))
      · simp [hpc] at hlate
  | @executes header handler r hpc =>
      have hcmd := hfollows.command.mpr (by simp [hpc, BluetoothPc.executing])
      obtain ⟨p, hrun, hphase⟩ := h
      rcases hphase.of_executing hcmd with ⟨h₂, h₃, t, c, h₄, ⟨h₅, hread, rfl⟩ | ⟨hlate, -⟩⟩
      · obtain ⟨rfl, rfl⟩ : header = c.packet.header ∧ handler = c.handler := by
          simpa [Reading, hpc] using hread
        -- what the stack was given is the command as it was issued
        have hwhole :
            (⟨⟨c.packet.header, s.cmdMsg.payload⟩, c.handler⟩ : GeckoCommand φ π) = c := by
          rw [h₅.packet]
        refine .extend hrun rfl ?_ (.executed hcmd h₂ h₃ h₄ (.inl rfl))
        simp [commandHistory, Machine.run, handshake, hwhole, record]
      · simp [hpc] at hlate
  | clearsHandler hpc =>
      have hcmd := hfollows.command.mpr (by simp [hpc, BluetoothPc.executing])
      obtain ⟨p, hrun, hphase⟩ := h
      rcases hphase.of_executing hcmd with ⟨h₂, h₃, t, c, h₄, ⟨-, hread, -⟩ | ⟨-, rfl⟩⟩
      · simp [Reading, hpc] at hread
      · exact .kept hrun rfl (.executed hcmd h₂ h₃ h₄ (.inr rfl))
  | postsRsp hpc =>
      have hcmd := hfollows.command.mpr (by simp [hpc, BluetoothPc.executing])
      obtain ⟨p, hrun, hphase⟩ := h
      rcases hphase.of_executing hcmd with ⟨h₂, h₃, t, c, h₄, ⟨-, hread, -⟩ | ⟨-, rfl⟩⟩
      · simp [Reading, hpc] at hread
      · exact .kept hrun rfl (.responded (Finset.notMem_erase _ _)
          (by simpa [post, FlagGrp.posted] using h₂) (by simp [post, FlagGrp.posted]) h₄)
  | @bluetoothTakes timeout rdy g hpc hsub hwant hflags =>
      have hrsp : .rspWaiting ∉ rdy := fun hmem => by simpa [bluetoothWait] using hwant hmem
      have hcmd := hidle (by obtain hpc | hpc := hpc <;> simp [hpc, BluetoothPc.executing])
      by_cases hmem : .cmdWaiting ∈ rdy
      · obtain ⟨p, hrun, hphase⟩ := h
        refine .kept hrun rfl ?_
        cases hphase with
        | asked h₁ _ h₃ h₄ h₅ =>
            have hin : .cmdWaiting ∈ s.flags ∪ rdy := Finset.mem_union_right _ hmem
            refine .accepted hin ?_ ?_ h₄ ⟨h₅.packet, h₅.header, h₅.handler, h₅.data⟩ (.inl ?_)
            · exact fun hin => (Finset.mem_sdiff.mp (hflags ▸ hin)).2 hmem
            · exact fun hin => h₃ (Finset.mem_sdiff.mp (hflags ▸ hin)).1
            · exact if_pos hin
        | free _ h₂ => exact absurd (hsub hmem) h₂
        | storing _ h₂ => exact absurd (hsub hmem) h₂
        | accepted _ h₂ => exact absurd (hsub hmem) h₂
        | executed _ h₂ => exact absurd (hsub hmem) h₂
        | responded _ h₂ => exact absurd (hsub hmem) h₂
        | reading _ h₂ => exact absurd (hsub hmem) h₂
      · exact h.same rfl (by constructor <;> simp [resume, hflags, hmem, hrsp, hcmd])
  | issues hcall =>
      obtain ⟨p, hrun, hphase⟩ := h
      have hfree : ∀ u, s.call u = .idle := hguard
      cases hphase with
      | free h₁ h₂ h₃ =>
          exact .extend hrun rfl rfl (.storing h₁ h₂ h₃ (.fill (by simp [record])))
      | storing _ _ _ h₄ => exact absurd (hfree _) h₄.ne_idle
      | asked _ _ _ h₄ => exact absurd (hfree _) h₄.ne_idle
      | accepted _ _ _ h₄ => exact absurd (hfree _) h₄.ne_idle
      | executed _ _ _ h₄ => exact absurd (hfree _) h₄.ne_idle
      | responded _ _ _ h₄ => exact absurd (hfree _) h₄.ne_idle
      | reading _ _ _ h₄ => exact absurd (h₄.symm.trans (hfree _)) (by simp)
  | @fills t c hcall =>
      obtain ⟨p, hrun, hphase⟩ := h
      obtain ⟨h₁, h₂, h₃, -, rfl⟩ := hphase.of_storing hone (.inl hcall)
      exact .kept hrun rfl (.storing h₁ h₂ h₃ (.setHeader (by simp) rfl))
  | @setsHeader t c hcall =>
      obtain ⟨p, hrun, hphase⟩ := h
      obtain ⟨h₁, h₂, h₃, h₄, rfl⟩ := hphase.of_storing hone (.inr (.inl hcall))
      have hpacket : s.cmdMsg = c.packet := by
        cases h₄ <;> grind
      exact .kept hrun rfl
        (.storing h₁ h₂ h₃ (.setHandler (by simp) hpacket (by simp [setCall, hpacket])))
  | @setsHandler t c hcall =>
      obtain ⟨p, hrun, hphase⟩ := h
      obtain ⟨h₁, h₂, h₃, h₄, rfl⟩ := hphase.of_storing hone (.inr (.inr (.inl hcall)))
      obtain ⟨hpacket, hheader⟩ : s.cmdMsg = c.packet ∧ s.commandHeader = c.packet.header := by
        cases h₄ <;> grind
      exact .kept hrun rfl (.storing h₁ h₂ h₃ (.setData (by simp) hpacket hheader rfl))
  | @setsData t c hcall =>
      obtain ⟨p, hrun, hphase⟩ := h
      obtain ⟨h₁, h₂, h₃, h₄, rfl⟩ := hphase.of_storing hone (.inr (.inr (.inr (.inl hcall))))
      obtain ⟨hpacket, hheader, hhandler⟩ : s.cmdMsg = c.packet ∧
          s.commandHeader = c.packet.header ∧ s.commandHandlerFunc = c.handler := by
        cases h₄ <;> grind
      exact .kept hrun rfl
        (.storing h₁ h₂ h₃ (.post (by simp) ⟨hpacket, hheader, hhandler, rfl⟩))
  | @posts t c hcall =>
      obtain ⟨p, hrun, hphase⟩ := h
      obtain ⟨h₁, h₂, h₃, h₄, rfl⟩ := hphase.of_storing hone (.inr (.inr (.inr (.inr hcall))))
      have hstored : s.Stored c := by
        cases h₄ <;> grind
      exact .kept hrun rfl (.asked h₁ (by simp [setCall, post, FlagGrp.posted])
        (by simpa [setCall, post, FlagGrp.posted] using h₃) (.inl (by simp))
        ⟨hstored.packet, hstored.header, hstored.handler, hstored.data⟩)
  | @commandTakes t c g hcall hset hflags =>
      have hactive : s.Asking t c := hcall
      obtain ⟨p, hrun, hphase⟩ := h
      refine .kept hrun rfl ?_
      cases hphase with
      | @responded u d h₁ h₂ _ h₄ =>
          obtain rfl := hone u t h₄.ne_idle hactive.ne_idle
          obtain rfl : d = c := by grind [Asking]
          exact .reading h₁ (by simpa [setCall, hflags] using h₂) (by simp [setCall, hflags])
            (by simp)
      | free _ _ h₃ => exact absurd (hset ha) h₃
      | storing _ _ h₃ => exact absurd (hset ha) h₃
      | asked _ _ h₃ => exact absurd (hset ha) h₃
      | accepted _ _ h₃ => exact absurd (hset ha) h₃
      | executed _ _ h₃ => exact absurd (hset ha) h₃
      | reading _ _ h₃ => exact absurd (hset ha) h₃
  | @commandBlocks t c g hcall hflags =>
      have hactive : s.Asking t c := .inl hcall
      have hask {u : GeckoTask τ} {d : GeckoCommand φ π} (h : s.Asking u d) :
          Asking ({ s with grp := g }.setCall t (.waiting c)) u d := by
        obtain rfl := hone u t h.ne_idle hactive.ne_idle
        obtain rfl : d = c := by grind [Asking]
        exact .inr (by simp)
      obtain ⟨p, hrun, hphase⟩ := h
      refine .kept hrun rfl ?_
      cases hphase with
      | asked h₁ h₂ h₃ h₄ h₅ =>
          exact .asked h₁ (hflags ▸ h₂) (hflags ▸ h₃) (hask h₄)
            ⟨h₅.packet, h₅.header, h₅.handler, h₅.data⟩
      | accepted h₁ h₂ h₃ h₄ h₅ h₆ =>
          exact .accepted h₁ (hflags ▸ h₂) (hflags ▸ h₃) (hask h₄)
            ⟨h₅.packet, h₅.header, h₅.handler, h₅.data⟩ h₆
      | executed h₁ h₂ h₃ h₄ h₅ =>
          exact .executed h₁ (hflags ▸ h₂) (hflags ▸ h₃) (hask h₄) h₅
      | responded h₁ h₂ h₃ h₄ => exact .responded h₁ (hflags ▸ h₂) (hflags ▸ h₃) (hask h₄)
      | free _ _ _ h₄ => exact absurd (h₄ t) hactive.ne_idle
      | @storing u d _ _ _ h₄ =>
          obtain rfl := hone u t h₄.ne_idle hactive.ne_idle
          cases h₄ <;> grind
      | @reading u d _ _ _ h₄ =>
          obtain rfl := hone u t (by simp [h₄]) hactive.ne_idle
          grind
  | @responds t c hcall =>
      have hactive : s.call t ≠ .idle := by simp [hcall]
      obtain ⟨p, hrun, hphase⟩ := h
      obtain ⟨d, hask | ⟨h₁, h₂, h₃, ⟨hstoring, -⟩ | ⟨hread, rfl⟩⟩⟩ := hphase.of_active hone hactive
      · grind [Asking]
      · cases hstoring <;> grind
      · obtain rfl := CommandPc.readRsp.inj (hcall.symm.trans hread)
        refine .extend hrun rfl (by simp [commandHistory, Machine.run, handshake])
          (.free h₁ h₂ h₃ fun u => ?_)
        by_cases hu : u = t
        · simp [record, hu]
        · have hfree : s.call u = .idle := by
            by_contra hne
            exact hu (hone u t hne hactive)
          simpa [record, hu] using hfree

end Commands

/-! ### Updates -/

/-- `BluetoothUpdate` was called since the last call of `gecko_wait_event`. -/
def updateDue (log : List (GeckoObs τ φ π ρ ε)) : Bool :=
  log.foldl (fun due obs =>
    match obs with
    | .updated => true
    | .polled _ => false
    | _ => due) false

/-- `BluetoothTask` knows of an update that is due, or will find it. -/
def UpdateKnown (s : Gecko τ φ π ρ ε) : Prop :=
  updateDue s.log = true → .stack ∈ s.grp.flags ∨ .stack ∈ s.flags

theorem updateDue_concat (log : List (GeckoObs τ φ π ρ ε)) (obs : GeckoObs τ φ π ρ ε) :
    updateDue (log ++ [obs]) = match obs with
      | .updated => true
      | .polled _ => false
      | _ => updateDue log := by
  rw [updateDue, List.foldl_append]
  rfl

theorem UpdateKnown.step [DecidableEq τ] {alone : Prop} (h : s.UpdateKnown)
    (hmoves : s.Moves alone e s') : s'.UpdateKnown := by
  intro hdue
  cases hmoves
  case updates => exact .inl (by simp [record, post, FlagGrp.posted])
  case finds => simp [record, updateDue_concat] at hdue
  case findsNothing => simp [record, updateDue_concat] at hdue
  case bluetoothTakes timeout rdy g hpc hsub hwant hflags =>
    by_cases hmem : .stack ∈ rdy
    · exact .inr (Finset.mem_union_right _ hmem)
    · exact (h hdue).imp (fun hin => hflags ▸ Finset.mem_sdiff.mpr ⟨hin, hmem⟩)
        (Finset.mem_union_left _)
  case linklayer hflags =>
    have hknown := h hdue
    rcases hflags with hflags | hflags <;> simpa [hflags] using hknown
  all_goals
    have hknown := h (by simpa [record, setCall, post, resume, updateDue_concat] using hdue)
    simp_all [record, setCall, post, resume, FlagGrp.posted]

/-! ### Runs -/

section Runs

variable [DecidableEq τ] {prio : GeckoTask τ → Nat} {msg : GeckoPacket π} {r : ρ}
  {es : List (GeckoEvent τ φ π ρ ε)}

/-- After `bluetooth_start`; `gecko_cmd_msg` and `gecko_rsp_msg` hold anything. -/
def start (msg : GeckoPacket π) (r : ρ) : Gecko τ φ π ρ ε where
  grp := ⟨∅, [], fun _ => .rdy⟩
  bluetoothEvt := none
  cmdMsg := msg
  commandHeader := 0
  commandHandlerFunc := none
  commandData := false
  rspMsg := r
  flags := {.evtHandled, .stack}
  bluetooth := loop {.evtHandled, .stack}
  application := .pend
  linklayer := .pend
  call _ := .idle
  log := []

theorem Sound.start (alone : Prop) : Sound prio alone (start msg r : Gecko τ φ π ρ ε) where
  serves :=
    { toLawful := FlagGrp.Lawful.create ∅
      inCall := by
        intro u
        cases u <;> simp [Gecko.start, waits, FlagState.inCall, CommandPc.wait, LinklayerPc.wait,
          ApplicationPc.wait]
      held := by
        intro f _ u p rdy hu
        simp [Gecko.start] at hu }
  one := by simp [Alone, Gecko.start]
  idleBluetooth := rfl
  idleLinklayer := rfl
  handler := by simp [Gecko.start]
  follows := by
    have hawake : .stack ∈ ({.evtHandled, .stack} : Finset BluetoothFlag) := by simp
    exact follows_loop (.inl hawake)

variable [DecidableEq ε]

omit [DecidableEq τ] in
theorem EventsInOrder.start : EventsInOrder (start msg r : Gecko τ φ π ρ ε) :=
  ⟨.free, rfl, .resting (by simp [Gecko.start]) (by simp [Gecko.start]) (by simp [Gecko.start])
    (.inl rfl) (by simp [Gecko.start, loop_ne_postEvt])⟩

/-- **Events.** In every run, whatever the stack returns and however the tasks and interrupts
interleave, the events that `gecko_wait_event` returned are handled one at a time, each of
them once and in their order. While an event is handled `bluetooth_evt` points to it, and
`gecko_wait_event` is not called before it is. -/
theorem bluetooth_events {s : Gecko τ φ π ρ ε}
    (hrun : (geckoMachine prio).run (start msg r) es = some s) :
    ∃ p, (handshake id).run .free (eventHistory s.log) = some p ∧
      HandshakeEvent.offers (eventHistory s.log) =
        (HandshakeEvent.collected (eventHistory s.log)).map Prod.fst ++ p.current ∧
      (∀ evt, s.application = .handling evt → p = .taken evt ∧ s.bluetoothEvt = some evt) ∧
      (s.application = .readEvt → s.bluetoothEvt ≠ none) ∧
      (s.bluetooth = .waitEvent → p = .free ∧ s.Away) := by
  let Inv := fun s : Gecko τ φ π ρ ε => s.Sound prio False ∧ s.EventsInOrder
  have hinv : Inv s := Machine.run_invariant
    (fun _ _ _ h _ hstep =>
      have hmoves := h.1.step False.elim hstep
      ⟨hmoves.1, h.2.step h.1 hmoves.2⟩)
    ⟨.start False, .start⟩ Machine.guarded_true hrun
  obtain ⟨hsound, p, hp, hphase⟩ := hinv
  refine ⟨p, hp, (handshake_run hp).1, ?_, ?_, ?_⟩
  · intro evt hpc
    obtain ⟨-, -, -, ⟨_, -, hother, -⟩ | ⟨evt', hevt, hpc', rfl⟩ | ⟨hother, -⟩⟩ :=
      hphase.of_busy (by simp [Away, hpc])
    · simp [hpc] at hother
    · obtain rfl := ApplicationPc.handling.inj (hpc.symm.trans hpc')
      exact ⟨rfl, hevt⟩
    · simp [hpc] at hother
  · intro hpc
    obtain ⟨-, -, -, ⟨evt, hevt, -⟩ | ⟨evt, hevt, -⟩ | ⟨hother, -⟩⟩ :=
      hphase.of_busy (by simp [Away, hpc])
    · simp [hevt]
    · simp [hevt]
    · simp [hpc] at hother
  · intro hpc
    have hfollows := hsound.follows
    rw [hpc] at hfollows
    obtain ⟨-, hturn⟩ := hfollows.polls trivial
    rcases hphase.of_turn hturn with ⟨-, -, haway, ⟨-, hfree⟩ | ⟨_, hother, -⟩⟩
    · exact ⟨hfree, haway⟩
    · simp [hpc] at hother

/-- An event is found and handled; its handler issues a command and waits. -/
def oneEvent : List (GeckoEvent Unit Nat Nat Nat Nat) :=
  [.application, .waitEvent (some 7), .bluetooth, .application, .application,
    .issue .application ⟨⟨0x20, 3⟩, some 4⟩] ++
    List.replicate 6 (.command .application)

/-- The command is executed, and the handler reads the response and returns. -/
def oneCommand : List (GeckoEvent Unit Nat Nat Nat Nat) :=
  [.canSleep 1, .bluetooth, .bluetooth, .bluetooth, .delegate 9, .bluetooth, .bluetooth,
    .command .application, .command .application, .application, .application]

/-- The next event is found. -/
def nextEvent : List (GeckoEvent Unit Nat Nat Nat Nat) :=
  [.canSleep 1, .bluetooth, .waitEvent (some 8), .bluetooth, .application, .application]

/-- The first event has been handled, the second one is with its handler. -/
theorem bluetooth_events_two : ∃ s : Gecko Unit Nat Nat Nat Nat,
    (geckoMachine fun _ => 0).run (start ⟨0, 0⟩ 0) (oneEvent ++ oneCommand ++ nextEvent) = some s ∧
      s.application = .handling 8 ∧ s.bluetoothEvt = some 8 ∧
      HandshakeEvent.offers (eventHistory s.log) = [7, 8] ∧
      HandshakeEvent.offers (eventHistory s.log) =
        (HandshakeEvent.collected (eventHistory s.log)).map Prod.fst ++ [8] := by
  obtain ⟨s, hrun, hpc, hoffers⟩ : ∃ s : Gecko Unit Nat Nat Nat Nat,
      (geckoMachine fun _ => 0).run (start ⟨0, 0⟩ 0) (oneEvent ++ oneCommand ++ nextEvent) =
        some s ∧ s.application = .handling 8 ∧
          HandshakeEvent.offers (eventHistory s.log) = [7, 8] := ⟨_, rfl, rfl, rfl⟩
  obtain ⟨p, -, horder, hhandling, -⟩ := bluetooth_events hrun
  obtain ⟨rfl, hevt⟩ := hhandling 8 hpc
  exact ⟨s, hrun, hpc, hevt, hoffers, horder⟩

variable [DecidableEq φ] [DecidableEq π] [DecidableEq ρ]

omit [DecidableEq τ] [DecidableEq ε] in
theorem CommandsInOrder.start [DecidableEq τ] :
    CommandsInOrder (start msg r : Gecko τ φ π ρ ε) :=
  ⟨.free, rfl, .free (by simp [Gecko.start]) (by simp [Gecko.start]) (by simp [Gecko.start])
    fun _ => rfl⟩

/-- What holds in a run in which one command is under way at a time. -/
structure Ordered (prio : GeckoTask τ → Nat) (s : Gecko τ φ π ρ ε) : Prop where
  sound : s.Sound prio True
  events : s.EventsInOrder
  commands : s.CommandsInOrder
  updates : s.UpdateKnown

theorem Ordered.start : Ordered prio (start msg r : Gecko τ φ π ρ ε) :=
  ⟨.start True, .start, .start, fun hdue => by simp [Gecko.start, updateDue] at hdue⟩

theorem Ordered.step {s s' : Gecko τ φ π ρ ε} (h : s.Ordered prio) (hok : s.OneAtATime e)
    (hstep : (geckoMachine prio).step s e = some s') : s'.Ordered prio := by
  obtain ⟨hsound, hmoves⟩ := h.sound.step (fun _ => hok) hstep
  exact ⟨hsound, h.events.step h.sound hmoves, h.commands.step h.sound trivial hok hmoves,
    h.updates.step hmoves⟩

theorem Ordered.run {s : Gecko τ φ π ρ ε}
    (hone : (geckoMachine prio).Guarded OneAtATime (Gecko.start msg r) es)
    (hrun : (geckoMachine prio).run (Gecko.start msg r) es = some s) : s.Ordered prio :=
  Machine.run_invariant (fun _ _ _ h hok hstep => h.step hok hstep) .start hone hrun

/-- Where the history of the commands is, and what it says. -/
theorem Ordered.history {s : Gecko τ φ π ρ ε} (h : s.Ordered prio) :
    ∃ p, (handshake Prod.snd).run .free (commandHistory s.log) = some p ∧
      HandshakeEvent.offers (commandHistory s.log) =
        (HandshakeEvent.collected (commandHistory s.log)).map Prod.fst ++ p.current ∧
      HandshakeEvent.answers (commandHistory s.log) =
        (HandshakeEvent.collected (commandHistory s.log)).map Prod.snd ++ p.response ∧
      (p = .free ↔ ∀ t, s.call t = .idle) := by
  obtain ⟨p, hp, hphase⟩ := h.commands
  obtain ⟨hoffers, hanswers⟩ := handshake_run hp
  refine ⟨p, hp, hoffers, hanswers, ?_⟩
  cases hphase with
  | free _ _ _ h₄ => simpa using h₄
  | storing _ _ _ h₄ => simpa using ⟨_, h₄.ne_idle⟩
  | asked _ _ _ h₄ => simpa using ⟨_, h₄.ne_idle⟩
  | accepted _ _ _ h₄ => simpa using ⟨_, h₄.ne_idle⟩
  | executed _ _ _ h₄ => simpa using ⟨_, h₄.ne_idle⟩
  | responded _ _ _ h₄ => simpa using ⟨_, h₄.ne_idle⟩
  | @reading t _ _ _ _ h₄ => simpa using ⟨t, by simp [h₄]⟩

/-- Another task issues a command and reads the response. -/
def nextCommand : List (GeckoEvent Unit Nat Nat Nat Nat) :=
  .issue (.other ()) ⟨⟨0x120, 6⟩, some 8⟩ :: List.replicate 6 (.command (.other ())) ++
    [.canSleep 1, .bluetooth, .bluetooth, .bluetooth, .delegate 5, .bluetooth, .bluetooth,
      .command (.other ()), .command (.other ())]

/-- Two tasks whose commands overlap: the second one preempts the first before it has read back
the header of its command. -/
def overlapping : List (GeckoEvent Bool Nat Nat Nat Nat) :=
  [.waitEvent none, .canSleep 1, .bluetooth, .issue (.other false) ⟨⟨0x20, 3⟩, some 4⟩,
    .command (.other false), .issue (.other true) ⟨⟨0x120, 6⟩, some 8⟩, .command (.other true),
    .command (.other true), .command (.other true), .command (.other true),
    .command (.other true), .bluetooth, .bluetooth, .bluetooth, .delegate 9, .bluetooth,
    .bluetooth, .canSleep 1, .bluetooth, .command (.other true), .command (.other true),
    .command (.other false), .command (.other false), .command (.other false),
    .command (.other false), .bluetooth, .bluetooth, .bluetooth, .delegate 5]

/-- Nothing keeps the tasks from it, and then the stack runs the handler of one command on the
packet of the other. -/
theorem bluetooth_commands_mixed :
    ((geckoMachine fun _ => 0).run (start ⟨0, 0⟩ 0 : Gecko Bool Nat Nat Nat Nat) overlapping).map
        (fun s => commandHistory s.log) =
      some [.offer (.other false, ⟨⟨0x20, 3⟩, some 4⟩),
        .offer (.other true, ⟨⟨0x120, 6⟩, some 8⟩), .take ⟨⟨0x120, 6⟩, some 8⟩, .answer 9,
        .collect (.other true, ⟨⟨0x120, 6⟩, some 8⟩) 9, .take ⟨⟨0x120, 6⟩, some 4⟩, .answer 5] :=
  rfl

end Runs

end Gecko

end WifiExpander
