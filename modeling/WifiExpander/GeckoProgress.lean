import WifiExpander.Handover

/-!
Progress of the Bluetooth tasks.

A task that does not wait in the kernel has a next step. Where `BluetoothTask` waits,
none of its flags is set, so it is another task's turn; and that one waits for a flag
that is set or does not wait.
-/

namespace WifiExpander

open Theory

variable {τ φ π ρ ε : Type}

namespace Gecko

variable [DecidableEq τ] {prio : GeckoTask τ → Nat} {s : Gecko τ φ π ρ ε} {t : GeckoTask τ}

/-- The task that takes the step -/
def taker : GeckoEvent τ φ π ρ ε → Option (GeckoTask τ)
  | .bluetooth | .delegate _ | .waitEvent _ | .canSleep _ => some .bluetooth
  | .application => some .application
  | .linklayer => some .linklayer
  | .command t => some t
  | .issue _ _ | .bluetoothUpdate | .bluetoothLLCallback | .timeout => none

/-- The task has a next step. -/
def CanStep (prio : GeckoTask τ → Nat) (s : Gecko τ φ π ρ ε) (t : GeckoTask τ) : Prop :=
  ∃ e, taker e = some t ∧ ((geckoMachine prio).step s e).isSome = true

/-- The task waits in the kernel. -/
def Blocked (s : Gecko τ φ π ρ ε) (t : GeckoTask τ) : Prop := ∃ q, s.grp.task t = .pend q

section Waiting

variable {alone : Prop}

/-- A task that was readied can go on. -/
theorem Sound.returns (h : s.Sound prio alone) (hblocked : ¬ s.Blocked t)
    {q : FlagWait BluetoothFlag} (hwait : s.waits t = some q) :
    ∃ x, s.grp.osFlagPendReturn t = some x := by
  have hin := (h.serves.inCall t).trans hwait
  unfold FlagGrp.osFlagPendReturn
  cases hst : s.grp.task t with
  | rdy => simp [hst, FlagState.inCall] at hin
  | pend q => exact absurd ⟨q, hst⟩ hblocked
  | woken q r => cases r <;> simp

/-- A task that waits in the kernel has not been given what it waits for. -/
theorem Sound.blocked (h : s.Sound prio alone) (hblocked : s.Blocked t) :
    ∃ q, s.waits t = some q ∧ (q.mode = .any → ∀ f ∈ q.want, f ∉ s.grp.flags) := by
  obtain ⟨q, hst⟩ := hblocked
  refine ⟨q, by rw [← h.serves.inCall, hst, FlagState.inCall], ?_⟩
  intro hmode f hf hflag
  have hready := h.serves.quiet t q hst
  simp only [FlagWait.ready, hmode, ite_eq_left_iff, reduceCtorEq, imp_false, not_not] at hready
  exact Finset.notMem_empty f (hready ▸ Finset.mem_inter.mpr ⟨hflag, hf⟩)

theorem Sound.canStep_linklayer (h : s.Sound prio alone) (hblocked : ¬ s.Blocked .linklayer) :
    s.CanStep prio .linklayer := by
  refine ⟨.linklayer, rfl, ?_⟩
  cases hpc : s.linklayer with
  | pend =>
      rcases hpend : s.grp.osFlagPend prio .linklayer (waitFor .ll) false false with
        ⟨_ | r, grp⟩ <;> simp [geckoMachine, Gecko.linklayerStep, hpc, hpend]
  | waiting =>
      obtain ⟨x, hret⟩ := h.returns hblocked (q := waitFor .ll)
        (by simp [waits, hpc, LinklayerPc.wait])
      simp [geckoMachine, Gecko.linklayerStep, hpc, hret]
  | handle => simp [geckoMachine, Gecko.linklayerStep, hpc]

/-- What `BluetoothTask` has when it waits in the kernel. -/
theorem Sound.blocked_bluetooth (h : s.Sound prio alone)
    (hblocked : s.Blocked .bluetooth) :
    s.bluetooth.sleeping ∧ .stack ∉ s.grp.flags ∧ .evtHandled ∉ s.grp.flags ∧
      .cmdWaiting ∉ s.grp.flags ∧ .cmdWaiting ∉ s.flags := by
  obtain ⟨q, hwait, hquiet⟩ := h.blocked hblocked
  have hcmd := h.follows.command
  cases hpc : s.bluetooth with
  | waiting timeout =>
      obtain rfl : bluetoothWait timeout = q := by simpa [waits, hpc, BluetoothPc.wait] using hwait
      have hnone := hquiet rfl
      rw [hpc] at hcmd
      exact ⟨trivial, hnone _ (by simp [bluetoothWait]), hnone _ (by simp [bluetoothWait]),
        hnone _ (by simp [bluetoothWait]), hcmd.mp⟩
  | _ => simp [waits, hpc, BluetoothPc.wait] at hwait

/-- What a task has when it waits in its command. -/
theorem Sound.blocked_call (h : s.Sound prio alone) (hactive : s.call t ≠ .idle)
    (hblocked : s.Blocked t) : (∃ c, s.call t = .waiting c) ∧ .rspWaiting ∉ s.grp.flags := by
  obtain ⟨q, hwait, hquiet⟩ := h.blocked hblocked
  rw [h.waits_eq_call hactive] at hwait
  obtain ⟨-, rfl⟩ := takes_of_wait hwait
  refine ⟨?_, hquiet rfl _ (by simp [waitFor])⟩
  cases hpc : s.call t with
  | waiting c => exact ⟨c, rfl⟩
  | _ => simp [hpc, CommandPc.wait] at hwait

end Waiting

section Progress

variable [DecidableEq φ] [DecidableEq π] [DecidableEq ρ] [DecidableEq ε]
  {msg : GeckoPacket π} {r : ρ} {es : List (GeckoEvent τ φ π ρ ε)}

theorem Ordered.canStep_bluetooth (h : s.Ordered prio) (hblocked : ¬ s.Blocked .bluetooth) :
    s.CanStep prio .bluetooth := by
  cases hpc : s.bluetooth with
  | readHeader => exact ⟨.bluetooth, rfl, by simp [geckoMachine, bluetoothStep, hpc]⟩
  | readHandler header => exact ⟨.bluetooth, rfl, by simp [geckoMachine, bluetoothStep, hpc]⟩
  | delegate header handler =>
      obtain ⟨p, -, hphase⟩ := h.commands
      have hcmd := h.sound.follows.command.mpr (by simp [hpc, BluetoothPc.executing])
      rcases hphase.of_executing hcmd with ⟨-, -, t, c, -, ⟨hstored, -⟩ | ⟨hlate, -⟩⟩
      · exact ⟨.delegate s.rspMsg, rfl, by simp [geckoMachine, hpc, hstored.data]⟩
      · simp [hpc] at hlate
  | clearHandler => exact ⟨.bluetooth, rfl, by simp [geckoMachine, bluetoothStep, hpc]⟩
  | postRsp => exact ⟨.bluetooth, rfl, by simp [geckoMachine, bluetoothStep, hpc]⟩
  | waitEvent => exact ⟨.waitEvent none, rfl, by simp [geckoMachine, hpc]⟩
  | postEvt => exact ⟨.bluetooth, rfl, by simp [geckoMachine, bluetoothStep, hpc]⟩
  | canSleep =>
      refine ⟨.canSleep 1, rfl, by simp [geckoMachine, hpc]⟩
  | pend timeout =>
      refine ⟨.bluetooth, rfl, ?_⟩
      rcases hpend : s.grp.osFlagPend prio .bluetooth (bluetoothWait timeout) false false with
        ⟨_ | r, grp⟩ <;> simp [geckoMachine, bluetoothStep, hpc, hpend]
  | waiting timeout =>
      obtain ⟨x, hret⟩ := h.sound.returns hblocked (q := bluetoothWait timeout)
        (by simp [waits, hpc, BluetoothPc.wait])
      exact ⟨.bluetooth, rfl, by simp [geckoMachine, bluetoothStep, hpc, hret]⟩

theorem Ordered.canStep_call (h : s.Ordered prio) (hactive : s.call t ≠ .idle)
    (hblocked : ¬ s.Blocked t) : s.CanStep prio t := by
  refine ⟨.command t, rfl, ?_⟩
  cases hpc : s.call t with
  | idle => exact absurd hpc hactive
  | fill c => simp [geckoMachine, commandStep, hpc]
  | setHeader c => simp [geckoMachine, commandStep, hpc]
  | setHandler c => simp [geckoMachine, commandStep, hpc]
  | setData c => simp [geckoMachine, commandStep, hpc]
  | post c => simp [geckoMachine, commandStep, hpc]
  | pend c =>
      rcases hpend : s.grp.osFlagPend prio t (waitFor .rspWaiting) false false with
        ⟨_ | r, grp⟩ <;> simp [geckoMachine, commandStep, hpc, hpend]
  | waiting c =>
      obtain ⟨x, hret⟩ := h.sound.returns hblocked (q := waitFor .rspWaiting)
        (by rw [h.sound.waits_eq_call hactive, hpc, CommandPc.wait])
      simp [geckoMachine, commandStep, hpc, hret]
  | readRsp c => simp [geckoMachine, commandStep, hpc]

theorem Ordered.canStep_application (h : s.Ordered prio) (hblocked : ¬ s.Blocked .application) :
    s.CanStep prio .application := by
  by_cases hcall : s.call .application = .idle
  case neg => exact h.canStep_call hcall hblocked
  refine ⟨.application, rfl, ?_⟩
  cases hpc : s.application with
  | pend =>
      rcases hpend : s.grp.osFlagPend prio .application (waitFor .evtWaiting) false false with
        ⟨_ | r, grp⟩ <;> simp [geckoMachine, applicationStep, hpc, hpend]
  | waiting =>
      obtain ⟨x, hret⟩ := h.sound.returns hblocked (q := waitFor .evtWaiting)
        (by simp [waits, hpc, ApplicationPc.wait])
      simp [geckoMachine, applicationStep, hpc, hret]
  | readEvt =>
      obtain ⟨p, -, hphase⟩ := h.events
      obtain ⟨-, -, -, ⟨evt, hevt, -⟩ | ⟨evt, hevt, -⟩ | ⟨hother, -⟩⟩ :=
        hphase.of_busy (by simp [Away, hpc])
      · simp [geckoMachine, applicationStep, hpc, hevt]
      · simp [geckoMachine, applicationStep, hpc, hevt]
      · simp [hpc] at hother
  | handling evt => simp [geckoMachine, applicationStep, hpc, hcall]
  | postHandled => simp [geckoMachine, applicationStep, hpc]

/-- A command that is under way goes on. -/
theorem Ordered.call_goesOn (h : s.Ordered prio) (hactive : s.call t ≠ .idle) :
    s.CanStep prio t ∨ s.CanStep prio .bluetooth := by
  by_cases hbt : s.Blocked .bluetooth
  case neg => exact .inr (h.canStep_bluetooth hbt)
  refine .inl (h.canStep_call hactive fun hblocked => ?_)
  obtain ⟨-, -, -, hasked, haccepted⟩ := h.sound.blocked_bluetooth hbt
  obtain ⟨⟨c, hcall⟩, hrsp⟩ := h.sound.blocked_call hactive hblocked
  have hone := h.sound.one trivial
  obtain ⟨p, -, hphase⟩ := h.commands
  cases hphase with
  | free _ _ _ h₄ => exact hactive (h₄ t)
  | @storing u d _ _ _ h₄ =>
      obtain rfl := hone u t h₄.ne_idle hactive
      cases h₄ <;> simp_all
  | asked _ h₂ => exact hasked h₂
  | accepted h₁ => exact haccepted h₁
  | executed h₁ => exact haccepted h₁
  | responded _ _ h₃ => exact hrsp h₃
  | @reading u d _ _ _ h₄ =>
      obtain rfl := hone u t (by simp [h₄]) hactive
      simp [hcall] at h₄

/-- It is not the turn of `BluetoothTask`. -/
theorem Ordered.event_goesOn (h : s.Ordered prio) (hturn : .evtHandled ∉ s.flags) :
    s.CanStep prio .application ∨ s.CanStep prio .bluetooth := by
  by_cases hbt : s.Blocked .bluetooth
  case neg => exact .inr (h.canStep_bluetooth hbt)
  by_cases hcall : s.call .application = .idle
  case neg => exact h.call_goesOn hcall
  refine .inl (h.canStep_application fun hblocked => ?_)
  obtain ⟨-, -, hhandled, -⟩ := h.sound.blocked_bluetooth hbt
  obtain ⟨q, hwait, hquiet⟩ := h.sound.blocked hblocked
  have hpc : s.application = .waiting := by
    cases hpc : s.application <;> simp_all [waits, ApplicationPc.wait, CommandPc.wait]
  obtain rfl : waitFor .evtWaiting = q := by simpa [waits, hpc, ApplicationPc.wait] using hwait
  have hwaiting := hquiet rfl .evtWaiting (by simp [waitFor])
  obtain ⟨p, -, hphase⟩ := h.events
  cases hphase with
  | resting h₁ => exact hturn h₁
  | found h₁ => exact hturn h₁
  | posted _ h₂ => exact hwaiting h₂
  | fetched _ _ _ h₄ => simp [hpc] at h₄
  | handling _ _ _ h₄ => simp [hpc] at h₄
  | finished _ _ _ h₄ => simp [hpc] at h₄
  | returned _ _ h₃ => exact hhandled h₃

/-- **Progress.** In such a run the tasks never all wait for each other. While a command is
under way, its task or `BluetoothTask` has a next step; while an event is not handled, or an
update is due, `BluetoothApplicationTask` or `BluetoothTask` has one; and after a call of
`BluetoothLLCallback` it is `LinklayerTask`. -/
theorem bluetooth_never_stuck
    (hone : (geckoMachine prio).Guarded OneAtATime (start msg r) es)
    (hrun : (geckoMachine prio).run (start msg r) es = some s) :
    (∀ t, s.call t ≠ .idle → s.CanStep prio t ∨ s.CanStep prio .bluetooth) ∧
      ((handshake id).run .free (eventHistory s.log) ≠ some .free →
        s.CanStep prio .application ∨ s.CanStep prio .bluetooth) ∧
      (updateDue s.log = true → s.CanStep prio .application ∨ s.CanStep prio .bluetooth) ∧
      (.ll ∈ s.grp.flags → s.CanStep prio .linklayer) := by
  have h := Ordered.run hone hrun
  refine ⟨fun t hactive => h.call_goesOn hactive, ?_, ?_, ?_⟩
  · intro hpending
    by_cases hturn : .evtHandled ∈ s.flags
    case neg => exact h.event_goesOn hturn
    obtain ⟨p, hp, hphase⟩ := h.events
    refine .inr (h.canStep_bluetooth fun hbt => ?_)
    have hsleeping := (h.sound.blocked_bluetooth hbt).1
    rcases hphase.of_turn hturn with ⟨-, -, -, ⟨-, rfl⟩ | ⟨_, hpc, -⟩⟩
    · exact hpending hp
    · simp [hpc, BluetoothPc.sleeping] at hsleeping
  · intro hdue
    by_cases hbt : s.Blocked .bluetooth
    case neg => exact .inr (h.canStep_bluetooth hbt)
    obtain ⟨hsleeping, hstack, -⟩ := h.sound.blocked_bluetooth hbt
    have hknown := (h.updates hdue).resolve_left hstack
    exact h.event_goesOn fun hturn => h.sound.follows.sleeps hsleeping ⟨hknown, hturn⟩
  · intro hll
    refine h.sound.canStep_linklayer fun hblocked => ?_
    obtain ⟨q, hwait, hquiet⟩ := h.sound.blocked hblocked
    have hpc : s.linklayer = .waiting := by
      cases hpc : s.linklayer <;> simp_all [waits, LinklayerPc.wait]
    obtain rfl : waitFor .ll = q := by simpa [waits, hpc, LinklayerPc.wait] using hwait
    exact hquiet rfl .ll (by simp [waitFor]) hll

/-- The handler waits for the response to its command, and there is more to do. -/
theorem bluetooth_never_stuck_one : ∃ s : Gecko Unit Nat Nat Nat Nat,
    (geckoMachine fun _ => 0).run (start ⟨0, 0⟩ 0)
        (oneEvent ++ [.bluetoothUpdate, .bluetoothLLCallback]) = some s ∧
      s.Blocked .application ∧
      (s.CanStep (fun _ => 0) .application ∨ s.CanStep (fun _ => 0) .bluetooth) ∧
      s.CanStep (fun _ => 0) .linklayer := by
  have hone : (geckoMachine fun _ => 0).Guarded OneAtATime
      (start ⟨0, 0⟩ 0 : Gecko Unit Nat Nat Nat Nat)
      (oneEvent ++ [.bluetoothUpdate, .bluetoothLLCallback]) := by decide +kernel
  obtain ⟨s, hrun, hblocked, hdue, hll⟩ : ∃ s : Gecko Unit Nat Nat Nat Nat,
      (geckoMachine fun _ => 0).run (start ⟨0, 0⟩ 0)
          (oneEvent ++ [.bluetoothUpdate, .bluetoothLLCallback]) = some s ∧
        s.Blocked .application ∧ updateDue s.log = true ∧ .ll ∈ s.grp.flags :=
    ⟨_, rfl, ⟨_, rfl⟩, rfl, by decide⟩
  obtain ⟨-, -, hupdate, hlinklayer⟩ := bluetooth_never_stuck hone hrun
  exact ⟨s, hrun, hblocked, hupdate hdue, hlinklayer hll⟩

end Progress

end Gecko

end WifiExpander
