import WifiExpander.Mutex
import WifiExpander.GeckoProgress

/-!
Commands under the mutex of the Bluetooth stack.

`rtos_bluetooth.h` has `BluetoothPend` and `BluetoothPost` for the use of the stack from
several tasks. A task that issues its commands only while it has the mutex, and gives it
back only between two commands, issues them one at a time, whatever the other tasks do
with this mutex or another. The application's tasks call neither.

The mutexes and the event flags are models of their own, side by side; a task that
inherits a priority while it waits for a flag stays where it is in the group's pend
list, whose order decides nothing.
-/

namespace WifiExpander

open Theory

variable {κ τ φ π ρ ε : Type}

namespace Gecko

variable [DecidableEq κ] [DecidableEq τ]

/-- `BluetoothPend` of a task; `m` is `BluetoothMutex`. -/
def bluetoothPend (m : κ) (t : GeckoTask τ) : MutexCall κ (GeckoTask τ) := .pend t m false false

/-- `BluetoothPost` of a task -/
def bluetoothPost (m : κ) (t : GeckoTask τ) : MutexCall κ (GeckoTask τ) := .post t m

/-- The kernel's mutexes beside the Bluetooth tasks -/
def underMutex (fuel : Nat) (prio : GeckoTask τ → Nat) :
    Machine (Mutexes κ (GeckoTask τ) × Gecko τ φ π ρ ε)
      (MutexCall κ (GeckoTask τ) ⊕ GeckoEvent τ φ π ρ ε) :=
  (mutexMachine fuel).beside (geckoMachine prio)

/-- A task begins a command when it runs and has the mutex, and does not give the mutex back
in a command. -/
def Disciplined (m : κ) (s : Mutexes κ (GeckoTask τ) × Gecko τ φ π ρ ε) :
    MutexCall κ (GeckoTask τ) ⊕ GeckoEvent τ φ π ρ ε → Prop
  | .inl e => e.Possible s.1 ∧ ∀ t, e = bluetoothPost m t → s.2.call t = .idle
  | .inr (.issue t _) => (s.1.tcb t).state = .rdy ∧ (s.1.mutex m).owner = some t
  | .inr _ => True

/-- A step leaves the tasks in the commands they were in, or one begins a command. -/
theorem Moves.caller {s s' : Gecko τ φ π ρ ε} {alone : Prop} {e : GeckoEvent τ φ π ρ ε}
    {u : GeckoTask τ} (h : s.Moves alone e s') (hu : s'.call u ≠ .idle) :
    s.call u ≠ .idle ∨ ∃ c, e = .issue u c := by
  cases h
  case issues t c hidle =>
    by_cases hut : u = t
    · exact .inr ⟨c, by rw [hut]⟩
    · exact .inl (by simpa [record, hut] using hu)
  all_goals
    refine .inl ?_
    simp only [record, setCall, post, resume, Function.update_apply] at hu
    grind

variable [DecidableEq φ] [DecidableEq π] [DecidableEq ρ] [DecidableEq ε] {fuel : Nat}
  {prio : GeckoTask τ → Nat} {m : κ}

/-- What holds in a run in which the tasks keep to the mutex. -/
structure Kept (prio : GeckoTask τ → Nat) (m : κ)
    (s : Mutexes κ (GeckoTask τ) × Gecko τ φ π ρ ε) : Prop where
  coherent : s.1.Coherent
  ordered : s.2.Ordered prio
  owner : ∀ t, s.2.call t ≠ .idle → (s.1.mutex m).owner = some t

omit [DecidableEq κ] in
/-- A task that begins a command finds no other one under way. -/
theorem Kept.oneAtATime {s : Mutexes κ (GeckoTask τ) × Gecko τ φ π ρ ε} (h : Kept prio m s)
    {s' : Gecko τ φ π ρ ε} {e : GeckoEvent τ φ π ρ ε} (hok : Disciplined m s (.inr e))
    (hstep : (geckoMachine prio).step s.2 e = some s') : s.2.OneAtATime e := by
  cases e with
  | issue t c =>
      have hidle : s.2.call t = .idle := by
        simp only [geckoMachine, Gecko.issue] at hstep
        split at hstep
        case _ hcall => exact hcall
        case _ hcall => exact hcall
        case _ => simp at hstep
      intro u
      by_contra hu
      obtain rfl : u = t := Option.some.inj ((h.owner u hu).symm.trans hok.2)
      exact hu hidle
  | _ => trivial

theorem Kept.step {s s' : Mutexes κ (GeckoTask τ) × Gecko τ φ π ρ ε} (h : Kept prio m s)
    {e : MutexCall κ (GeckoTask τ) ⊕ GeckoEvent τ φ π ρ ε} (hok : Disciplined m s e)
    (hstep : (underMutex fuel prio).step s e = some s') : Kept prio m s' := by
  cases e with
  | inl e =>
      obtain ⟨possible, hpost⟩ := hok
      obtain ⟨k, hk, rfl⟩ := Option.map_eq_some_iff.mp hstep
      refine ⟨h.coherent.step possible hk, h.ordered, fun t hactive => ?_⟩
      refine h.coherent.owner_kept possible hk (h.owner t hactive) ?_
      rintro rfl
      exact hactive (hpost t rfl)
  | inr e =>
      obtain ⟨g, hg, rfl⟩ := Option.map_eq_some_iff.mp hstep
      have hone := h.oneAtATime hok hg
      refine ⟨h.coherent, h.ordered.step hone hg, fun t hactive => ?_⟩
      obtain ⟨-, hmoves⟩ := h.ordered.sound.step (fun _ => hone) hg
      rcases hmoves.caller hactive with hbefore | ⟨c, rfl⟩
      · exact h.owner t hbefore
      · exact hok.2

/-- The tasks, of priorities 3 and 5 -/
def bluetoothTasks : Mutexes Unit (GeckoTask Bool) where
  mutex _ := ⟨none, 0, []⟩
  tcb t := if t = .other true then ⟨5, 5, [], .rdy⟩ else ⟨3, 3, [], .rdy⟩
  log := []

/-- The second task waits for the mutex until the command of the first one is done, and then
begins its own. -/
def twoCommands : List (MutexCall Unit (GeckoTask Bool) ⊕ GeckoEvent Bool Nat Nat Nat Nat) :=
  [.inl (bluetoothPend () (.other true)), .inl (bluetoothPend () (.other false)),
    .inr (.waitEvent none), .inr (.canSleep 1), .inr (.issue (.other true) ⟨⟨0x20, 3⟩, some 4⟩),
    .inr (.command (.other true)), .inr (.command (.other true)), .inr (.command (.other true)),
    .inr (.command (.other true)), .inr (.command (.other true)), .inr .bluetooth,
    .inr .bluetooth, .inr .bluetooth, .inr (.delegate 9), .inr .bluetooth, .inr .bluetooth,
    .inr (.command (.other true)), .inr (.command (.other true)),
    .inl (bluetoothPost () (.other true)), .inl (.pendReturn (.other false)),
    .inr (.issue (.other false) ⟨⟨0x120, 6⟩, some 8⟩)]

end Gecko
end WifiExpander
