import Mathlib.Data.Fintype.Basic
import WifiExpander.Gecko

/-!
What a step of the Bluetooth tasks can do.

`Sound` holds between any two steps: the kernel serves the tasks in the waits their
places in the code say, and `BluetoothTask` is where its flags have led it. `Moves` is
all that a step then does, without the kernel. With `alone`, at most one command is
under way at a time; without it, nothing is said about who gets a response.
-/

namespace WifiExpander

open Theory

variable {τ φ π ρ ε : Type}

/-- `BluetoothTask` is at a command. -/
def BluetoothPc.executing : BluetoothPc φ → Prop
  | .readHeader | .readHandler _ | .delegate _ _ | .clearHandler | .postRsp => True
  | _ => False

/-- It is about to ask for an event, or has one. -/
def BluetoothPc.polling : BluetoothPc φ → Prop
  | .waitEvent | .postEvt => True
  | _ => False

/-- It is on its way to wait, or waits. -/
def BluetoothPc.sleeping : BluetoothPc φ → Prop
  | .canSleep | .pend _ | .waiting _ => True
  | _ => False

def BluetoothPc.wait : BluetoothPc φ → Option (FlagWait BluetoothFlag)
  | .waiting timeout => some (Gecko.bluetoothWait timeout)
  | _ => none

def ApplicationPc.wait : ApplicationPc ε → Option (FlagWait BluetoothFlag)
  | .waiting => some (Gecko.waitFor .evtWaiting)
  | _ => none

def LinklayerPc.wait : LinklayerPc → Option (FlagWait BluetoothFlag)
  | .waiting => some (Gecko.waitFor .ll)
  | _ => none

def CommandPc.wait : CommandPc φ π → Option (FlagWait BluetoothFlag)
  | .waiting _ => some (Gecko.waitFor .rspWaiting)
  | _ => none

/-- The local variable `flags` of `BluetoothTask` at each place in its loop -/
structure BluetoothPc.Follows (flags : Finset BluetoothFlag) (pc : BluetoothPc φ) : Prop where
  command : .cmdWaiting ∈ flags ↔ pc.executing
  polls : pc.polling → .stack ∈ flags ∧ .evtHandled ∈ flags
  /-- Without its turn it will ask for an event when the turn comes. -/
  awake : .stack ∈ flags ∨ .evtHandled ∈ flags
  sleeps : pc.sleeping → ¬ (.stack ∈ flags ∧ .evtHandled ∈ flags)

namespace Gecko

variable {s s' : Gecko τ φ π ρ ε} {t u : GeckoTask τ}

/-- The call of `OSFlagPend` that a task is in -/
def waits (s : Gecko τ φ π ρ ε) : GeckoTask τ → Option (FlagWait BluetoothFlag)
  | .linklayer => s.linklayer.wait
  | .bluetooth => s.bluetooth.wait
  | .application => s.application.wait.or (s.call .application).wait
  | .other t => (s.call (.other t)).wait

/-- No two tasks have a command under way. -/
def Alone (s : Gecko τ φ π ρ ε) : Prop :=
  ∀ t u, s.call t ≠ .idle → s.call u ≠ .idle → t = u

/-- A command is only begun when no other one is under way. -/
def OneAtATime (s : Gecko τ φ π ρ ε) : GeckoEvent τ φ π ρ ε → Prop
  | .issue _ _ => ∀ u, s.call u = .idle
  | _ => True

instance : ∀ pc : CommandPc φ π, Decidable (pc = .idle)
  | .idle => isTrue rfl
  | .fill _ | .setHeader _ | .setHandler _ | .setData _ | .post _ | .pend _ | .waiting _
  | .readRsp _ => isFalse (by simp)

instance [Fintype τ] (s : Gecko τ φ π ρ ε) : Decidable (∀ t, s.call t = .idle) :=
  decidable_of_iff (s.call .linklayer = .idle ∧ s.call .bluetooth = .idle ∧
      s.call .application = .idle ∧ ∀ t, s.call (.other t) = .idle) <| by
    constructor
    · rintro ⟨hll, hbt, happ, hother⟩ t
      cases t with
      | linklayer => exact hll
      | bluetooth => exact hbt
      | application => exact happ
      | other t => exact hother t
    · exact fun h => ⟨h _, h _, h _, fun t => h _⟩

instance [Fintype τ] (s : Gecko τ φ π ρ ε) : ∀ e, Decidable (s.OneAtATime e)
  | .issue _ _ => inferInstanceAs (Decidable (∀ t, s.call t = .idle))
  | .bluetooth | .delegate _ | .waitEvent _ | .canSleep _ | .application | .linklayer
  | .command _ | .bluetoothUpdate | .bluetoothLLCallback | .timeout => isTrue trivial

/-- What holds between any two steps. -/
structure Sound [DecidableEq τ] (prio : GeckoTask τ → Nat) (alone : Prop)
    (s : Gecko τ φ π ρ ε) : Prop where
  serves : s.grp.Serves prio (fun f => f ≠ .rspWaiting ∨ alone) s.waits
  one : alone → s.Alone
  idleBluetooth : s.call .bluetooth = .idle
  idleLinklayer : s.call .linklayer = .idle
  handler : s.call .application ≠ .idle → ∃ evt, s.application = .handling evt
  follows : s.bluetooth.Follows s.flags

/-! ### The loop of `BluetoothTask` -/

section Loop

variable {flags : Finset BluetoothFlag}

theorem follows_update (hawake : .stack ∈ flags ∨ .evtHandled ∈ flags)
    (hcmd : .cmdWaiting ∉ flags) : (update flags : BluetoothPc φ).Follows flags := by
  unfold update
  split <;> constructor <;> simp_all [BluetoothPc.executing, BluetoothPc.polling,
    BluetoothPc.sleeping]

theorem follows_loop (hawake : .stack ∈ flags ∨ .evtHandled ∈ flags) :
    (loop flags : BluetoothPc φ).Follows flags := by
  unfold loop
  split
  case isTrue hcmd =>
    constructor <;> simp_all [BluetoothPc.executing, BluetoothPc.polling, BluetoothPc.sleeping]
  case isFalse hcmd => exact follows_update hawake hcmd

@[simp] theorem update_wait : (update flags : BluetoothPc φ).wait = none := by
  unfold update
  split <;> rfl

@[simp] theorem loop_wait : (loop flags : BluetoothPc φ).wait = none := by
  unfold loop
  split
  · rfl
  · exact update_wait

end Loop

/-! ### Steps -/

section Steps

variable [DecidableEq τ]

/-- What a step does; `g` is the group after the kernel's call. -/
inductive Moves (alone : Prop) (s : Gecko τ φ π ρ ε) :
    GeckoEvent τ φ π ρ ε → Gecko τ φ π ρ ε → Prop where
  | readsHeader : s.bluetooth = .readHeader →
      s.Moves alone .bluetooth { s with bluetooth := .readHandler s.commandHeader }
  | readsHandler {header : UInt32} : s.bluetooth = .readHandler header →
      s.Moves alone .bluetooth { s with bluetooth := .delegate header s.commandHandlerFunc }
  | executes {header : UInt32} {handler : Option φ} {r : ρ} :
      s.bluetooth = .delegate header handler →
      s.Moves alone (.delegate r)
        ({ s with rspMsg := r, bluetooth := .clearHandler }.record
          [.executed ⟨⟨header, s.cmdMsg.payload⟩, handler⟩ r])
  | clearsHandler : s.bluetooth = .clearHandler →
      s.Moves alone .bluetooth { s with commandHandlerFunc := none, bluetooth := .postRsp }
  | postsRsp : s.bluetooth = .postRsp →
      s.Moves alone .bluetooth
        ({ s with
          flags := s.flags.erase .cmdWaiting
          bluetooth := update (s.flags.erase .cmdWaiting) }.post .rspWaiting)
  | finds {evt : ε} : s.bluetooth = .waitEvent →
      s.Moves alone (.waitEvent (some evt))
        ({ s with bluetoothEvt := some evt, bluetooth := .postEvt }.record [.polled (some evt)])
  | findsNothing : s.bluetooth = .waitEvent →
      s.Moves alone (.waitEvent none)
        ({ s with
          bluetoothEvt := none
          flags := s.flags.erase .stack
          bluetooth := .canSleep }.record [.polled none])
  | postsEvt : s.bluetooth = .postEvt →
      s.Moves alone .bluetooth
        ({ s with flags := s.flags.erase .evtHandled, bluetooth := .canSleep }.post .evtWaiting)
  | goesOn : s.bluetooth = .canSleep → .evtHandled ∈ s.flags →
      s.Moves alone (.canSleep 0)
        { s with flags := s.flags ∪ {.stack}, bluetooth := loop (s.flags ∪ {.stack}) }
  | sleeps {ticks : UInt32} : s.bluetooth = .canSleep →
      s.Moves alone (.canSleep ticks) { s with bluetooth := .pend (rtosTicks ticks) }
  | bluetoothTakes {timeout : UInt32} {rdy : Finset BluetoothFlag}
      {g : FlagGrp (GeckoTask τ) BluetoothFlag} :
      s.bluetooth = .pend timeout ∨ s.bluetooth = .waiting timeout →
      rdy ⊆ s.grp.flags → rdy ⊆ (bluetoothWait timeout).want → g.flags = s.grp.flags \ rdy →
      s.Moves alone .bluetooth ({ s with grp := g }.resume (.flags rdy))
  | bluetoothBlocks {timeout : UInt32} {g : FlagGrp (GeckoTask τ) BluetoothFlag} :
      s.bluetooth = .pend timeout → g.flags = s.grp.flags →
      s.Moves alone .bluetooth { s with grp := g, bluetooth := .waiting timeout }
  | bluetoothTimesOut {timeout : UInt32} {g : FlagGrp (GeckoTask τ) BluetoothFlag} :
      s.bluetooth = .waiting timeout → g.flags = s.grp.flags →
      s.Moves alone .bluetooth ({ s with grp := g }.resume .timeout)
  | applicationTakes {g : FlagGrp (GeckoTask τ) BluetoothFlag} :
      s.application = .pend ∨ s.application = .waiting → .evtWaiting ∈ s.grp.flags →
      g.flags = s.grp.flags.erase .evtWaiting →
      s.Moves alone .application { s with grp := g, application := .readEvt }
  | applicationBlocks {g : FlagGrp (GeckoTask τ) BluetoothFlag} :
      s.application = .pend → g.flags = s.grp.flags →
      s.Moves alone .application { s with grp := g, application := .waiting }
  | readsEvt {evt : ε} : s.application = .readEvt → s.bluetoothEvt = some evt →
      s.Moves alone .application ({ s with application := .handling evt }.record [.handed evt])
  | handles {evt : ε} : s.application = .handling evt → s.call .application = .idle →
      s.Moves alone .application ({ s with application := .postHandled }.record [.handled evt])
  | postsHandled : s.application = .postHandled →
      s.Moves alone .application ({ s with application := .pend }.post .evtHandled)
  | linklayer {pc : LinklayerPc} {g : FlagGrp (GeckoTask τ) BluetoothFlag} :
      g.flags = s.grp.flags ∨ g.flags = s.grp.flags.erase .ll →
      s.Moves alone .linklayer { s with grp := g, linklayer := pc }
  | issues {t : GeckoTask τ} {c : GeckoCommand φ π} : s.call t = .idle →
      s.Moves alone (.issue t c) ((s.setCall t (.fill c)).record [.issued t c])
  | fills {t : GeckoTask τ} {c : GeckoCommand φ π} : s.call t = .fill c →
      s.Moves alone (.command t) ({ s with cmdMsg := c.packet }.setCall t (.setHeader c))
  | setsHeader {t : GeckoTask τ} {c : GeckoCommand φ π} : s.call t = .setHeader c →
      s.Moves alone (.command t)
        ({ s with commandHeader := s.cmdMsg.header }.setCall t (.setHandler c))
  | setsHandler {t : GeckoTask τ} {c : GeckoCommand φ π} : s.call t = .setHandler c →
      s.Moves alone (.command t)
        ({ s with commandHandlerFunc := c.handler }.setCall t (.setData c))
  | setsData {t : GeckoTask τ} {c : GeckoCommand φ π} : s.call t = .setData c →
      s.Moves alone (.command t) ({ s with commandData := true }.setCall t (.post c))
  | posts {t : GeckoTask τ} {c : GeckoCommand φ π} : s.call t = .post c →
      s.Moves alone (.command t) ((s.post .cmdWaiting).setCall t (.pend c))
  | commandTakes {t : GeckoTask τ} {c : GeckoCommand φ π}
      {g : FlagGrp (GeckoTask τ) BluetoothFlag} :
      s.call t = .pend c ∨ s.call t = .waiting c → (alone → .rspWaiting ∈ s.grp.flags) →
      g.flags = s.grp.flags.erase .rspWaiting →
      s.Moves alone (.command t) ({ s with grp := g }.setCall t (.readRsp c))
  | commandBlocks {t : GeckoTask τ} {c : GeckoCommand φ π}
      {g : FlagGrp (GeckoTask τ) BluetoothFlag} :
      s.call t = .pend c → g.flags = s.grp.flags →
      s.Moves alone (.command t) ({ s with grp := g }.setCall t (.waiting c))
  | responds {t : GeckoTask τ} {c : GeckoCommand φ π} : s.call t = .readRsp c →
      s.Moves alone (.command t) ((s.setCall t .idle).record [.responded t c s.rspMsg])
  | updates : s.Moves alone .bluetoothUpdate ((s.post .stack).record [.updated])
  | callsBack : s.Moves alone .bluetoothLLCallback (s.post .ll)
  | expires {g : FlagGrp (GeckoTask τ) BluetoothFlag} :
      g.flags = s.grp.flags → s.Moves alone .timeout { s with grp := g }

end Steps

/-! ### Who waits for what -/

section Waits

/-- The task that takes the flag -/
def Takes (s : Gecko τ φ π ρ ε) (t : GeckoTask τ) : BluetoothFlag → Prop
  | .ll => t = .linklayer
  | .evtWaiting => t = .application
  | .rspWaiting => s.call t ≠ .idle
  | .stack | .evtHandled | .cmdWaiting => t = .bluetooth

theorem takes_of_wait {pc : CommandPc φ π} {q : FlagWait BluetoothFlag} (h : pc.wait = some q) :
    pc ≠ .idle ∧ q = waitFor .rspWaiting := by
  cases pc <;> simp_all [CommandPc.wait]

theorem takes_of_waits {q : FlagWait BluetoothFlag} {f : BluetoothFlag}
    (h : s.waits t = some q) (hf : f ∈ q.want) : s.Takes t f := by
  cases t with
  | linklayer =>
      cases hpc : s.linklayer <;> simp only [waits, hpc, LinklayerPc.wait, reduceCtorEq,
        Option.some.injEq] at h
      subst h
      obtain rfl : f = .ll := by simpa [waitFor] using hf
      rfl
  | bluetooth =>
      cases hpc : s.bluetooth <;> simp only [waits, hpc, BluetoothPc.wait, reduceCtorEq,
        Option.some.injEq] at h
      subst h
      obtain rfl | rfl | rfl : f = .stack ∨ f = .evtHandled ∨ f = .cmdWaiting := by
        simpa [bluetoothWait] using hf
      all_goals rfl
  | application =>
      obtain happ | hcall : s.application.wait = some q ∨ (s.call .application).wait = some q := by
        rw [waits, Option.or_eq_some_iff] at h
        exact h.imp_right And.right
      · cases hpc : s.application <;> simp only [hpc, ApplicationPc.wait, reduceCtorEq,
          Option.some.injEq] at happ
        subst happ
        obtain rfl : f = .evtWaiting := by simpa [waitFor] using hf
        rfl
      · obtain ⟨hpc, rfl⟩ := takes_of_wait hcall
        obtain rfl : f = .rspWaiting := by simpa [waitFor] using hf
        exact hpc
  | other t =>
      obtain ⟨hpc, rfl⟩ := takes_of_wait h
      obtain rfl : f = .rspWaiting := by simpa [waitFor] using hf
      exact hpc

theorem waits_of_bluetooth [DecidableEq τ] (hcall : s'.call = s.call)
    (happ : s'.application = s.application) (hll : s'.linklayer = s.linklayer) :
    s'.waits = Function.update s.waits .bluetooth s'.bluetooth.wait := by
  funext u
  cases u <;> simp [waits, hcall, happ, hll]

theorem waits_of_application [DecidableEq τ] (hcall : s'.call = s.call)
    (hbt : s'.bluetooth = s.bluetooth) (hll : s'.linklayer = s.linklayer)
    (hidle : s.call .application = .idle) :
    s'.waits = Function.update s.waits .application s'.application.wait := by
  funext u
  cases u <;> simp [waits, hcall, hbt, hll, hidle, CommandPc.wait]

theorem waits_of_linklayer [DecidableEq τ] (hcall : s'.call = s.call)
    (hbt : s'.bluetooth = s.bluetooth) (happ : s'.application = s.application) :
    s'.waits = Function.update s.waits .linklayer s'.linklayer.wait := by
  funext u
  cases u <;> simp [waits, hcall, hbt, happ]

theorem waits_of_call [DecidableEq τ] {pc : CommandPc φ π}
    (hcall : s'.call = Function.update s.call t pc) (hbt : s'.bluetooth = s.bluetooth)
    (happ : s'.application = s.application) (hll : s'.linklayer = s.linklayer)
    (ht : t ≠ .bluetooth ∧ t ≠ .linklayer)
    (hhandler : t = .application → s.application.wait = none) :
    s'.waits = Function.update s.waits t pc.wait := by
  funext u
  by_cases hut : u = t
  · subst hut
    cases u <;> simp_all [waits]
  · cases u <;> simp_all [waits, Function.update_of_ne]

end Waits

/-! ### The invariant -/

section Invariant

variable [DecidableEq τ] {prio : GeckoTask τ → Nat} {alone : Prop} {f : BluetoothFlag}
  {g : FlagGrp (GeckoTask τ) BluetoothFlag}

@[simp] theorem setCall_call {pc : CommandPc φ π} :
    (s.setCall t pc).call = Function.update s.call t pc := rfl

namespace Sound

/-- Nobody else takes the flags that a task takes. -/
theorem isPrivate (h : s.Sound prio alone) (t : GeckoTask τ) (want : Finset BluetoothFlag)
    (hwant : ∀ f ∈ want, s.Takes t f) :
    FlagGrp.Private (fun f => f ≠ .rspWaiting ∨ alone) s.waits t want := by
  rintro u q f hut hu hf hmem hq
  have hu := takes_of_waits hu hq
  have ht := hwant f hmem
  cases f with
  | rspWaiting => exact hut (h.one (hf.resolve_left (by simp)) u t hu ht)
  | ll => exact hut (hu.trans ht.symm)
  | evtWaiting => exact hut (hu.trans ht.symm)
  | stack => exact hut (hu.trans ht.symm)
  | evtHandled => exact hut (hu.trans ht.symm)
  | cmdWaiting => exact hut (hu.trans ht.symm)

/-- `BluetoothTask` took a step. -/
theorem ofBluetooth (h : s.Sound prio alone) (hcall : s'.call = s.call)
    (happ : s'.application = s.application) (hll : s'.linklayer = s.linklayer)
    (hserves : s'.grp.Serves prio (fun f => f ≠ .rspWaiting ∨ alone)
      (Function.update s.waits .bluetooth s'.bluetooth.wait))
    (hfollows : s'.bluetooth.Follows s'.flags) : s'.Sound prio alone where
  serves := by rwa [waits_of_bluetooth hcall happ hll]
  one ha t u := by
    rw [hcall]
    exact h.one ha t u
  idleBluetooth := by rw [hcall, h.idleBluetooth]
  idleLinklayer := by rw [hcall, h.idleLinklayer]
  handler := by
    rw [hcall, happ]
    exact h.handler
  follows := hfollows

/-- It did not wait and goes on. -/
theorem ofRunning (h : s.Sound prio alone) (hcall : s'.call = s.call)
    (happ : s'.application = s.application) (hll : s'.linklayer = s.linklayer)
    (hserves : s'.grp.Serves prio (fun f => f ≠ .rspWaiting ∨ alone) s.waits)
    (hold : s.bluetooth.wait = none) (hnew : s'.bluetooth.wait = none)
    (hfollows : s'.bluetooth.Follows s'.flags) : s'.Sound prio alone := by
  refine h.ofBluetooth hcall happ hll ?_ hfollows
  rw [hnew, ← hold]
  change s'.grp.Serves prio _ (Function.update s.waits .bluetooth (s.waits .bluetooth))
  rwa [Function.update_eq_self]

theorem bluetoothStep (h : s.Sound prio alone) (hstep : s.bluetoothStep prio = some s') :
    s'.Sound prio alone ∧ s.Moves alone .bluetooth s' := by
  have hfollows := h.follows
  unfold Gecko.bluetoothStep at hstep
  cases hpc : s.bluetooth with
  | readHeader =>
      rw [hpc] at hfollows
      obtain rfl := Option.some.inj (by simpa only [hpc] using hstep)
      exact ⟨h.ofRunning rfl rfl rfl h.serves (by rw [hpc]; rfl) rfl
        ⟨hfollows.command, hfollows.polls, hfollows.awake, hfollows.sleeps⟩, .readsHeader hpc⟩
  | readHandler header =>
      rw [hpc] at hfollows
      obtain rfl := Option.some.inj (by simpa only [hpc] using hstep)
      exact ⟨h.ofRunning rfl rfl rfl h.serves (by rw [hpc]; rfl) rfl
        ⟨hfollows.command, hfollows.polls, hfollows.awake, hfollows.sleeps⟩, .readsHandler hpc⟩
  | clearHandler =>
      rw [hpc] at hfollows
      obtain rfl := Option.some.inj (by simpa only [hpc] using hstep)
      exact ⟨h.ofRunning rfl rfl rfl h.serves (by rw [hpc]; rfl) rfl
        ⟨hfollows.command, hfollows.polls, hfollows.awake, hfollows.sleeps⟩, .clearsHandler hpc⟩
  | postRsp =>
      obtain rfl := Option.some.inj (by simpa only [hpc] using hstep)
      have hnext : (update (s.flags.erase .cmdWaiting) : BluetoothPc φ).Follows
          (s.flags.erase .cmdWaiting) := by
        refine follows_update ?_ (Finset.notMem_erase _ _)
        simpa using hfollows.awake
      exact ⟨h.ofRunning rfl rfl rfl (h.serves.osFlagPost _) (by rw [hpc]; rfl) update_wait hnext,
        .postsRsp hpc⟩
  | postEvt =>
      rw [hpc] at hfollows
      obtain rfl := Option.some.inj (by simpa only [hpc] using hstep)
      refine ⟨h.ofRunning rfl rfl rfl (h.serves.osFlagPost _) (by rw [hpc]; rfl) rfl ?_,
        .postsEvt hpc⟩
      obtain ⟨hstack, -⟩ := hfollows.polls trivial
      have hcmd := hfollows.command
      constructor <;>
        simp_all [post, BluetoothPc.executing, BluetoothPc.polling, BluetoothPc.sleeping]
  | pend timeout =>
      have hwait : s.waits .bluetooth = none := by simp [waits, hpc, BluetoothPc.wait]
      have hprivate := h.isPrivate .bluetooth (bluetoothWait timeout).want
        (by simp [bluetoothWait, Takes])
      rcases hpend : s.grp.osFlagPend prio .bluetooth (bluetoothWait timeout) false false with
        ⟨r, grp⟩
      simp only [hpc, hpend] at hstep
      obtain ⟨rdy, rfl, hready, hflags, hserves⟩ | ⟨rfl, hready, hflags, hserves⟩ :=
        h.serves.osFlagPend hwait rfl hprivate hpend
      · obtain rfl := Option.some.inj hstep
        obtain ⟨hsub, hwant⟩ := FlagWait.ready_subset hready
        refine ⟨h.ofRunning rfl rfl rfl hserves (by rw [hpc]; rfl) loop_wait (follows_loop ?_),
          .bluetoothTakes (.inl hpc) hsub hwant hflags⟩
        exact hfollows.awake.imp (Finset.mem_union_left _) (Finset.mem_union_left _)
      · obtain rfl := Option.some.inj hstep
        rw [hpc] at hfollows
        exact ⟨h.ofBluetooth rfl rfl rfl hserves
          ⟨hfollows.command, hfollows.polls, hfollows.awake, hfollows.sleeps⟩,
          .bluetoothBlocks hpc hflags⟩
  | waiting timeout =>
      have hwait : s.waits .bluetooth = some (bluetoothWait timeout) := by
        simp [waits, hpc, BluetoothPc.wait]
      have hprivate := h.isPrivate .bluetooth (bluetoothWait timeout).want
        (by simp [bluetoothWait, Takes])
      simp only [hpc, Option.bind_eq_bind, Option.bind_eq_some_iff] at hstep
      obtain ⟨⟨p, r, grp⟩, hret, hstep⟩ := hstep
      obtain rfl := Option.some.inj hstep
      obtain ⟨hp, hserves, ⟨rdy, rfl, ⟨flags, hready⟩, hset, hflags⟩ | ⟨rfl, -, hflags⟩⟩ :=
        h.serves.osFlagPendReturn (by simp [hwait, bluetoothWait])
          (fun q hq => by rwa [← Option.some.inj (hwait.symm.trans hq)]) hret
      all_goals obtain rfl := Option.some.inj (hwait.symm.trans hp)
      · obtain ⟨-, hwant⟩ := FlagWait.ready_subset hready
        refine ⟨h.ofBluetooth rfl rfl rfl (by simpa [resume] using hserves) (follows_loop ?_),
          .bluetoothTakes (.inr hpc) ?_ hwant hflags⟩
        · exact hfollows.awake.imp (Finset.mem_union_left _) (Finset.mem_union_left _)
        · intro f hf
          refine hset f (.inl ?_) hf
          rintro rfl
          simpa [bluetoothWait] using hwant hf
      · refine ⟨h.ofBluetooth rfl rfl rfl (by simpa [resume] using hserves) (follows_loop ?_),
          .bluetoothTimesOut hpc hflags⟩
        exact .inl (Finset.mem_union_right _ (Finset.mem_singleton_self _))
  | delegate => simp [hpc] at hstep
  | waitEvent => simp [hpc] at hstep
  | canSleep => simp [hpc] at hstep

/-- A wait for one flag takes it, or blocks. -/
theorem pendFor (h : s.Sound prio alone) (hwait : s.waits t = none) (hmine : s.Takes t f)
    {r : Option (FlagResult BluetoothFlag)}
    (hpend : s.grp.osFlagPend prio t (waitFor f) false false = (r, g)) :
    ((∃ rdy, r = some (.flags rdy)) ∧ f ∈ s.grp.flags ∧ g.flags = s.grp.flags.erase f ∧
      g.Serves prio (fun f => f ≠ .rspWaiting ∨ alone) s.waits) ∨
    r = none ∧ g.flags = s.grp.flags ∧
      g.Serves prio (fun f => f ≠ .rspWaiting ∨ alone)
        (Function.update s.waits t (some (waitFor f))) := by
  obtain ⟨rdy, hr, hready, hflags, hserves⟩ | ⟨hr, hready, hflags, hserves⟩ :=
    h.serves.osFlagPend hwait rfl (h.isPrivate t (waitFor f).want (by simpa [waitFor])) hpend
  · obtain ⟨hsub, hwant⟩ := FlagWait.ready_subset hready
    obtain rfl : rdy = {f} :=
      (Finset.subset_singleton_iff.mp hwant).resolve_left (FlagWait.ready_ne_empty hready rfl)
    refine .inl ⟨⟨_, hr⟩, hsub (Finset.mem_singleton_self f), ?_, hserves⟩
    rw [hflags, Finset.sdiff_singleton_eq_erase]
  · exact .inr ⟨hr, hflags, hserves⟩

/-- A wait for one flag ends with it. -/
theorem returnFor (h : s.Sound prio alone) (hwait : s.waits t = some (waitFor f))
    (hmine : s.Takes t f) {p : FlagWait BluetoothFlag} {r : FlagResult BluetoothFlag}
    (hret : s.grp.osFlagPendReturn t = some (p, r, g)) :
    (f ≠ .rspWaiting ∨ alone → f ∈ s.grp.flags) ∧ g.flags = s.grp.flags.erase f ∧
      g.Serves prio (fun f => f ≠ .rspWaiting ∨ alone) (Function.update s.waits t none) := by
  obtain ⟨hp, hserves, ⟨rdy, -, ⟨flags, hready⟩, hset, hflags⟩ | ⟨-, htimed, -⟩⟩ :=
    h.serves.osFlagPendReturn (by simp [hwait, waitFor])
      (fun q hq => by
        rw [← Option.some.inj (hwait.symm.trans hq)]
        exact h.isPrivate t (waitFor f).want (by simpa [waitFor])) hret
  all_goals obtain rfl := Option.some.inj (hwait.symm.trans hp)
  · obtain ⟨-, hwant⟩ := FlagWait.ready_subset hready
    obtain rfl : rdy = {f} :=
      (Finset.subset_singleton_iff.mp hwant).resolve_left (FlagWait.ready_ne_empty hready rfl)
    refine ⟨fun hf => hset f hf (Finset.mem_singleton_self f), ?_, hserves⟩
    rw [hflags, Finset.sdiff_singleton_eq_erase]
  · simp [waitFor] at htimed

/-- `BluetoothApplicationTask` took a step outside its commands. -/
theorem ofApplication (h : s.Sound prio alone) (hidle : s.call .application = .idle)
    (hcall : s'.call = s.call) (hbt : s'.bluetooth = s.bluetooth) (hfl : s'.flags = s.flags)
    (hll : s'.linklayer = s.linklayer)
    (hserves : s'.grp.Serves prio (fun f => f ≠ .rspWaiting ∨ alone)
      (Function.update s.waits .application s'.application.wait)) : s'.Sound prio alone where
  serves := by rwa [waits_of_application hcall hbt hll hidle]
  one ha t u := by
    rw [hcall]
    exact h.one ha t u
  idleBluetooth := by rw [hcall, h.idleBluetooth]
  idleLinklayer := by rw [hcall, h.idleLinklayer]
  handler := by simp [hcall, hidle]
  follows := by
    rw [hbt, hfl]
    exact h.follows

/-- It did not wait and goes on. -/
theorem ofHandler (h : s.Sound prio alone) (hidle : s.call .application = .idle)
    (hcall : s'.call = s.call) (hbt : s'.bluetooth = s.bluetooth) (hfl : s'.flags = s.flags)
    (hll : s'.linklayer = s.linklayer)
    (hserves : s'.grp.Serves prio (fun f => f ≠ .rspWaiting ∨ alone) s.waits)
    (hold : s.application.wait = none) (hnew : s'.application.wait = none) :
    s'.Sound prio alone := by
  refine h.ofApplication hidle hcall hbt hfl hll ?_
  have hwait : s.waits .application = none := by simp [waits, hold, hidle, CommandPc.wait]
  rw [hnew, ← hwait]
  rwa [Function.update_eq_self]

theorem applicationStep (h : s.Sound prio alone) (hstep : s.applicationStep prio = some s') :
    s'.Sound prio alone ∧ s.Moves alone .application s' := by
  have hidle (happ : ∀ evt, s.application ≠ .handling evt) : s.call .application = .idle := by
    by_contra hcall
    obtain ⟨evt, hevt⟩ := h.handler hcall
    exact happ evt hevt
  unfold Gecko.applicationStep at hstep
  cases hpc : s.application with
  | pend =>
      have hcall := hidle (by simp [hpc])
      have hwait : s.waits .application = none := by
        simp [waits, hpc, hcall, ApplicationPc.wait, CommandPc.wait]
      rcases hpend : s.grp.osFlagPend prio .application (waitFor .evtWaiting) false false with
        ⟨r, grp⟩
      simp only [hpc, hpend] at hstep
      obtain ⟨⟨rdy, rfl⟩, hset, hflags, hserves⟩ | ⟨rfl, hflags, hserves⟩ :=
        h.pendFor (f := .evtWaiting) hwait rfl hpend
      · obtain rfl := Option.some.inj hstep
        exact ⟨h.ofHandler hcall rfl rfl rfl rfl hserves (by rw [hpc]; rfl) rfl,
          .applicationTakes (.inl hpc) hset hflags⟩
      · obtain rfl := Option.some.inj hstep
        exact ⟨h.ofApplication hcall rfl rfl rfl rfl hserves, .applicationBlocks hpc hflags⟩
  | waiting =>
      have hcall := hidle (by simp [hpc])
      have hwait : s.waits .application = some (waitFor .evtWaiting) := by
        simp [waits, hpc, ApplicationPc.wait]
      simp only [hpc, Option.bind_eq_bind, Option.bind_eq_some_iff] at hstep
      obtain ⟨⟨p, r, grp⟩, hret, hstep⟩ := hstep
      obtain rfl := Option.some.inj hstep
      obtain ⟨hset, hflags, hserves⟩ := h.returnFor hwait rfl hret
      exact ⟨h.ofApplication hcall rfl rfl rfl rfl hserves,
        .applicationTakes (.inr hpc) (hset (.inl (by simp))) hflags⟩
  | readEvt =>
      have hcall := hidle (by simp [hpc])
      simp only [hpc, Option.bind_eq_bind, Option.bind_eq_some_iff] at hstep
      obtain ⟨evt, hevt, hstep⟩ := hstep
      obtain rfl := Option.some.inj hstep
      exact ⟨h.ofHandler hcall rfl rfl rfl rfl h.serves (by rw [hpc]; rfl) rfl,
        .readsEvt hpc hevt⟩
  | handling evt =>
      simp only [hpc] at hstep
      cases hcall : s.call .application <;> simp only [hcall, reduceCtorEq] at hstep
      obtain rfl := Option.some.inj hstep
      exact ⟨h.ofHandler hcall rfl rfl rfl rfl h.serves (by rw [hpc]; rfl) rfl,
        .handles hpc hcall⟩
  | postHandled =>
      have hcall := hidle (by simp [hpc])
      obtain rfl := Option.some.inj (by simpa only [hpc] using hstep)
      exact ⟨h.ofHandler hcall rfl rfl rfl rfl (h.serves.osFlagPost _) (by rw [hpc]; rfl) rfl,
        .postsHandled hpc⟩

/-- `LinklayerTask` took a step. -/
theorem ofLinklayer (h : s.Sound prio alone) (hcall : s'.call = s.call)
    (hbt : s'.bluetooth = s.bluetooth) (hfl : s'.flags = s.flags)
    (happ : s'.application = s.application)
    (hserves : s'.grp.Serves prio (fun f => f ≠ .rspWaiting ∨ alone)
      (Function.update s.waits .linklayer s'.linklayer.wait)) : s'.Sound prio alone where
  serves := by rwa [waits_of_linklayer hcall hbt happ]
  one ha t u := by
    rw [hcall]
    exact h.one ha t u
  idleBluetooth := by rw [hcall, h.idleBluetooth]
  idleLinklayer := by rw [hcall, h.idleLinklayer]
  handler := by
    rw [hcall, happ]
    exact h.handler
  follows := by
    rw [hbt, hfl]
    exact h.follows

theorem linklayerStep (h : s.Sound prio alone) (hstep : s.linklayerStep prio = some s') :
    s'.Sound prio alone ∧ s.Moves alone .linklayer s' := by
  have hrun {grp : FlagGrp (GeckoTask τ) BluetoothFlag} (pc : LinklayerPc)
      (hold : s.linklayer.wait = none) (hnew : pc.wait = none)
      (hserves : grp.Serves prio (fun f => f ≠ .rspWaiting ∨ alone) s.waits) :
      Sound prio alone { s with grp, linklayer := pc } := by
    refine h.ofLinklayer rfl rfl rfl rfl ?_
    rw [hnew, ← hold]
    change grp.Serves prio _ (Function.update s.waits .linklayer (s.waits .linklayer))
    rwa [Function.update_eq_self]
  unfold Gecko.linklayerStep at hstep
  cases hpc : s.linklayer with
  | pend =>
      have hwait : s.waits .linklayer = none := by simp [waits, hpc, LinklayerPc.wait]
      rcases hpend : s.grp.osFlagPend prio .linklayer (waitFor .ll) false false with ⟨r, grp⟩
      simp only [hpc, hpend] at hstep
      obtain ⟨⟨rdy, rfl⟩, -, hflags, hserves⟩ | ⟨rfl, hflags, hserves⟩ :=
        h.pendFor (f := .ll) hwait rfl hpend
      · obtain rfl := Option.some.inj hstep
        exact ⟨hrun .handle (by rw [hpc]; rfl) rfl hserves, .linklayer (.inr hflags)⟩
      · obtain rfl := Option.some.inj hstep
        exact ⟨h.ofLinklayer rfl rfl rfl rfl hserves, .linklayer (.inl hflags)⟩
  | waiting =>
      have hwait : s.waits .linklayer = some (waitFor .ll) := by
        simp [waits, hpc, LinklayerPc.wait]
      simp only [hpc, Option.bind_eq_bind, Option.bind_eq_some_iff] at hstep
      obtain ⟨⟨p, r, grp⟩, hret, hstep⟩ := hstep
      obtain rfl := Option.some.inj hstep
      obtain ⟨-, hflags, hserves⟩ := h.returnFor hwait rfl hret
      exact ⟨h.ofLinklayer rfl rfl rfl rfl hserves, .linklayer (.inr hflags)⟩
  | handle =>
      obtain rfl := Option.some.inj (by simpa only [hpc] using hstep)
      exact ⟨hrun .pend (by rw [hpc]; rfl) rfl h.serves, .linklayer (.inl rfl)⟩

/-- A task took a step in its command. -/
theorem ofCall (h : s.Sound prio alone) {pc : CommandPc φ π}
    (hcall : s'.call = Function.update s.call t pc) (hbt : s'.bluetooth = s.bluetooth)
    (hfl : s'.flags = s.flags) (happ : s'.application = s.application)
    (hll : s'.linklayer = s.linklayer) (hactive : s.call t ≠ .idle)
    (hserves : s'.grp.Serves prio (fun f => f ≠ .rspWaiting ∨ alone)
      (Function.update s.waits t pc.wait)) : s'.Sound prio alone := by
  have hbluetooth : t ≠ .bluetooth := by
    rintro rfl
    exact hactive h.idleBluetooth
  have hlinklayer : t ≠ .linklayer := by
    rintro rfl
    exact hactive h.idleLinklayer
  have hother (u : GeckoTask τ) (hu : s'.call u ≠ .idle) : s.call u ≠ .idle := by
    by_cases hut : u = t
    · exact hut ▸ hactive
    · rwa [hcall, Function.update_of_ne hut] at hu
  constructor
  case serves =>
    rwa [waits_of_call hcall hbt happ hll ⟨hbluetooth, hlinklayer⟩]
    rintro rfl
    obtain ⟨evt, hevt⟩ := h.handler hactive
    rw [hevt]
    rfl
  case one => exact fun ha u v hu hv => h.one ha u v (hother u hu) (hother v hv)
  case idleBluetooth => rw [hcall, Function.update_of_ne hbluetooth.symm, h.idleBluetooth]
  case idleLinklayer => rw [hcall, Function.update_of_ne hlinklayer.symm, h.idleLinklayer]
  case handler =>
    intro hu
    rw [happ]
    exact h.handler (hother .application hu)
  case follows =>
    rw [hbt, hfl]
    exact h.follows

theorem waits_eq_call (h : s.Sound prio alone) (hactive : s.call t ≠ .idle) :
    s.waits t = (s.call t).wait := by
  cases t with
  | bluetooth => exact absurd h.idleBluetooth hactive
  | linklayer => exact absurd h.idleLinklayer hactive
  | application =>
      obtain ⟨evt, hevt⟩ := h.handler hactive
      simp [waits, hevt, ApplicationPc.wait]
  | other t => rfl

/-- It did not wait and goes on. -/
theorem ofCaller (h : s.Sound prio alone) {pc : CommandPc φ π}
    (hcall : s'.call = Function.update s.call t pc) (hbt : s'.bluetooth = s.bluetooth)
    (hfl : s'.flags = s.flags) (happ : s'.application = s.application)
    (hll : s'.linklayer = s.linklayer) (hactive : s.call t ≠ .idle)
    (hserves : s'.grp.Serves prio (fun f => f ≠ .rspWaiting ∨ alone) s.waits)
    (hold : (s.call t).wait = none) (hnew : pc.wait = none) : s'.Sound prio alone := by
  refine h.ofCall hcall hbt hfl happ hll hactive ?_
  rw [hnew, ← hold, ← h.waits_eq_call hactive]
  rwa [Function.update_eq_self]

theorem commandStep (h : s.Sound prio alone) (hstep : s.commandStep prio t = some s') :
    s'.Sound prio alone ∧ s.Moves alone (.command t) s' := by
  unfold Gecko.commandStep at hstep
  cases hpc : s.call t with
  | idle => simp [hpc] at hstep
  | fill c =>
      obtain rfl := Option.some.inj (by simpa only [hpc] using hstep)
      exact ⟨h.ofCaller rfl rfl rfl rfl rfl (by simp [hpc]) h.serves (by rw [hpc]; rfl) rfl,
        .fills hpc⟩
  | setHeader c =>
      obtain rfl := Option.some.inj (by simpa only [hpc] using hstep)
      exact ⟨h.ofCaller rfl rfl rfl rfl rfl (by simp [hpc]) h.serves (by rw [hpc]; rfl) rfl,
        .setsHeader hpc⟩
  | setHandler c =>
      obtain rfl := Option.some.inj (by simpa only [hpc] using hstep)
      exact ⟨h.ofCaller rfl rfl rfl rfl rfl (by simp [hpc]) h.serves (by rw [hpc]; rfl) rfl,
        .setsHandler hpc⟩
  | setData c =>
      obtain rfl := Option.some.inj (by simpa only [hpc] using hstep)
      exact ⟨h.ofCaller rfl rfl rfl rfl rfl (by simp [hpc]) h.serves (by rw [hpc]; rfl) rfl,
        .setsData hpc⟩
  | post c =>
      obtain rfl := Option.some.inj (by simpa only [hpc] using hstep)
      exact ⟨h.ofCaller rfl rfl rfl rfl rfl (by simp [hpc]) (h.serves.osFlagPost _)
        (by rw [hpc]; rfl) rfl, .posts hpc⟩
  | pend c =>
      have hactive : s.call t ≠ .idle := by simp [hpc]
      have hwait : s.waits t = none := by rw [h.waits_eq_call hactive, hpc]; rfl
      rcases hpend : s.grp.osFlagPend prio t (waitFor .rspWaiting) false false with ⟨r, grp⟩
      simp only [hpc, hpend] at hstep
      obtain ⟨⟨rdy, rfl⟩, hset, hflags, hserves⟩ | ⟨rfl, hflags, hserves⟩ :=
        h.pendFor (f := .rspWaiting) hwait hactive hpend
      · obtain rfl := Option.some.inj hstep
        exact ⟨h.ofCaller rfl rfl rfl rfl rfl hactive hserves (by rw [hpc]; rfl) rfl,
          .commandTakes (.inl hpc) (fun _ => hset) hflags⟩
      · obtain rfl := Option.some.inj hstep
        exact ⟨h.ofCall rfl rfl rfl rfl rfl hactive hserves, .commandBlocks hpc hflags⟩
  | waiting c =>
      have hactive : s.call t ≠ .idle := by simp [hpc]
      have hwait : s.waits t = some (waitFor .rspWaiting) := by
        rw [h.waits_eq_call hactive, hpc]
        rfl
      simp only [hpc, Option.bind_eq_bind, Option.bind_eq_some_iff] at hstep
      obtain ⟨⟨p, r, grp⟩, hret, hstep⟩ := hstep
      obtain rfl := Option.some.inj hstep
      obtain ⟨hset, hflags, hserves⟩ := h.returnFor hwait hactive hret
      exact ⟨h.ofCall rfl rfl rfl rfl rfl hactive hserves,
        .commandTakes (.inr hpc) (fun ha => hset (.inr ha)) hflags⟩
  | readRsp c =>
      obtain rfl := Option.some.inj (by simpa only [hpc] using hstep)
      exact ⟨h.ofCaller rfl rfl rfl rfl rfl (by simp [hpc]) h.serves (by rw [hpc]; rfl) rfl,
        .responds hpc⟩

/-- What no task's place depends on has changed. -/
theorem ofEnvironment (h : s.Sound prio alone)
    (hserves : g.Serves prio (fun f => f ≠ .rspWaiting ∨ alone) s.waits) :
    Sound prio alone { s with grp := g } :=
  ⟨hserves, h.one, h.idleBluetooth, h.idleLinklayer, h.handler, h.follows⟩

theorem record (h : s.Sound prio alone) (obs : List (GeckoObs τ φ π ρ ε)) :
    (s.record obs).Sound prio alone :=
  ⟨h.serves, h.one, h.idleBluetooth, h.idleLinklayer, h.handler, h.follows⟩

/-- A task that may issue a command begins one. -/
theorem begin (h : s.Sound prio alone) (hone : alone → ∀ u, s.call u = .idle)
    (ht : t ≠ .bluetooth ∧ t ≠ .linklayer)
    (hhandler : t = .application → ∃ evt, s.application = .handling evt)
    (hcall : s.call t = .idle) (c : GeckoCommand φ π) :
    (s.setCall t (.fill c)).Sound prio alone := by
  have hwait : s.waits t = none := by
    cases t with
    | bluetooth => exact absurd rfl ht.1
    | linklayer => exact absurd rfl ht.2
    | application =>
        obtain ⟨evt, hevt⟩ := hhandler rfl
        simp [waits, hevt, hcall, ApplicationPc.wait, CommandPc.wait]
    | other t => simp [waits, hcall, CommandPc.wait]
  have hcaller (ha : alone) (u : GeckoTask τ) (hu : (s.setCall t (.fill c)).call u ≠ .idle) :
      u = t := by
    by_contra hut
    rw [setCall_call, Function.update_of_ne hut] at hu
    exact hu (hone ha u)
  constructor
  case serves =>
    have hfill : (s.setCall t (.fill c)).waits = Function.update s.waits t (s.waits t) := by
      rw [hwait]
      refine waits_of_call setCall_call rfl rfl rfl ht ?_
      intro happ
      obtain ⟨evt, hevt⟩ := hhandler happ
      rw [hevt]
      rfl
    rw [hfill, Function.update_eq_self]
    exact h.serves
  case one => exact fun ha u v hu hv => (hcaller ha u hu).trans (hcaller ha v hv).symm
  case idleBluetooth => rw [setCall_call, Function.update_of_ne ht.1.symm, h.idleBluetooth]
  case idleLinklayer => rw [setCall_call, Function.update_of_ne ht.2.symm, h.idleLinklayer]
  case handler =>
    intro hactive
    by_cases happ : t = .application
    · exact hhandler happ
    · rw [setCall_call, Function.update_of_ne (Ne.symm happ)] at hactive
      exact h.handler hactive
  case follows => exact h.follows

theorem issue (h : s.Sound prio alone) (hone : alone → ∀ u, s.call u = .idle)
    {c : GeckoCommand φ π} (hstep : s.issue t c = some s') :
    s'.Sound prio alone ∧ s.Moves alone (.issue t c) s' := by
  unfold Gecko.issue at hstep
  split at hstep
  case _ hcall =>
    split at hstep
    case _ evt hevt =>
      obtain rfl := Option.some.inj hstep
      exact ⟨(h.begin hone (by simp) (fun _ => ⟨evt, hevt⟩) hcall c).record _, .issues hcall⟩
    case _ => simp at hstep
  case _ hcall =>
    obtain rfl := Option.some.inj hstep
    exact ⟨(h.begin hone (by simp) (by simp) hcall c).record _, .issues hcall⟩
  case _ => simp at hstep

theorem step (h : s.Sound prio alone) {e : GeckoEvent τ φ π ρ ε}
    (hone : alone → s.OneAtATime e) (hstep : (geckoMachine prio).step s e = some s') :
    s'.Sound prio alone ∧ s.Moves alone e s' := by
  have hfollows := h.follows
  cases e with
  | bluetooth => exact h.bluetoothStep hstep
  | application => exact h.applicationStep hstep
  | linklayer => exact h.linklayerStep hstep
  | command t => exact h.commandStep hstep
  | issue t c => exact h.issue hone hstep
  | delegate r =>
      simp only [geckoMachine] at hstep
      split at hstep
      case _ header handler hpc hdata =>
        obtain rfl := Option.some.inj hstep
        rw [hpc] at hfollows
        have hnext : Sound prio alone { s with rspMsg := r, bluetooth := .clearHandler } :=
          h.ofRunning rfl rfl rfl h.serves (by rw [hpc]; rfl) rfl
            ⟨hfollows.command, hfollows.polls, hfollows.awake, hfollows.sleeps⟩
        exact ⟨hnext.record _, .executes hpc⟩
      case _ => simp at hstep
  | waitEvent evt =>
      simp only [geckoMachine] at hstep
      split at hstep
      case _ evt hpc =>
        obtain rfl := Option.some.inj hstep
        rw [hpc] at hfollows
        have hnext : Sound prio alone { s with bluetoothEvt := some evt, bluetooth := .postEvt } :=
          h.ofRunning rfl rfl rfl h.serves (by rw [hpc]; rfl) rfl
            ⟨hfollows.command, hfollows.polls, hfollows.awake, nofun⟩
        exact ⟨hnext.record _, .finds hpc⟩
      case _ hpc =>
        obtain rfl := Option.some.inj hstep
        rw [hpc] at hfollows
        obtain ⟨-, hmine⟩ := hfollows.polls trivial
        have hcmd := hfollows.command
        have hnext : Sound prio alone { s with
            bluetoothEvt := none
            flags := s.flags.erase .stack
            bluetooth := .canSleep } := by
          refine h.ofRunning rfl rfl rfl h.serves (by rw [hpc]; rfl) rfl ?_
          constructor <;>
            simp_all [BluetoothPc.executing, BluetoothPc.polling, BluetoothPc.sleeping]
        exact ⟨hnext.record _, .findsNothing hpc⟩
      case _ => simp at hstep
  | canSleep ticks =>
      simp only [geckoMachine] at hstep
      split at hstep
      case _ hpc =>
        by_cases hgo : ticks = 0 ∧ .evtHandled ∈ s.flags
        · rw [if_pos hgo] at hstep
          obtain rfl := Option.some.inj hstep
          obtain ⟨rfl, hmine⟩ := hgo
          exact ⟨h.ofRunning rfl rfl rfl h.serves (by rw [hpc]; rfl) loop_wait
            (follows_loop (.inr (Finset.mem_union_left _ hmine))), .goesOn hpc hmine⟩
        · rw [if_neg hgo] at hstep
          obtain rfl := Option.some.inj hstep
          rw [hpc] at hfollows
          exact ⟨h.ofRunning rfl rfl rfl h.serves (by rw [hpc]; rfl) rfl
            ⟨hfollows.command, hfollows.polls, hfollows.awake, hfollows.sleeps⟩, .sleeps hpc⟩
      case _ => simp at hstep
  | bluetoothUpdate =>
      obtain rfl := Option.some.inj hstep
      exact ⟨(h.ofEnvironment (h.serves.osFlagPost _)).record _, .updates⟩
  | bluetoothLLCallback =>
      obtain rfl := Option.some.inj hstep
      exact ⟨h.ofEnvironment (h.serves.osFlagPost _), .callsBack⟩
  | timeout =>
      simp only [geckoMachine] at hstep
      split at hstep
      case _ p hst =>
        split at hstep
        case _ htimed =>
          obtain rfl := Option.some.inj hstep
          obtain ⟨hflags, hserves⟩ := h.serves.osTickTimeout hst htimed
          exact ⟨h.ofEnvironment hserves, .expires hflags⟩
        case _ => simp at hstep
      case _ => simp at hstep

end Sound

end Invariant

end Gecko

end WifiExpander
