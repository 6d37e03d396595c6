import WifiExpander.KernelQueue
import WifiExpander.Theory.Lock

/-!
Mutexes, as `os_mutex.c` computes them, with the change of priorities in `os_task.c`
and the time-outs of `os_tick.c`.

A task that owns a mutex inherits the priority of a task that waits for it, along
the whole chain of owners that wait for one another. Each call is one critical
section. A pend list and the group of the mutexes a task owns are lists.

The ready list and the pend lists of other objects are not modelled, nor is the
deletion of mutexes and tasks; aborts and suspended tasks are configured out.
-/

namespace WifiExpander

open Theory

variable {κ τ : Type}

/-- `OS_CFG_PRIO_MAX` -/
def osCfgPrioMax : Nat := 32

/-- What the calls report -/
inductive MutexErr where
  | ok
  | isOwner
  | wouldOvf
  | wouldBlock
  | schedLocked
  | timeout
  | ownership
deriving DecidableEq

/-- `TaskState` of a task: `blocked` when it is delayed or waits for something else,
`woken` from when it is readied until `OSMutexPend` returns. -/
inductive MutexWait (κ : Type) where
  | rdy
  | blocked
  | pend (m : κ)
  | woken (m : κ) (r : MutexErr)
deriving DecidableEq

/-- What the mutexes use of an `OS_TCB` -/
structure MutexTcb (κ : Type) where
  prio : Nat
  basePrio : Nat
  mutexGrp : List κ
  state : MutexWait κ

/-- `OS_MUTEX` -/
structure OsMutex (τ : Type) where
  owner : Option τ
  nesting : Nat
  pendList : List τ

inductive MutexObs (κ τ : Type) where
  /-- `OSMutexPend` returned. -/
  | pended (t : τ) (m : κ) (r : MutexErr)
  /-- `OSMutexPost` returned. -/
  | posted (t : τ) (m : κ) (r : MutexErr)
deriving DecidableEq

/-- The mutexes and the tasks -/
structure Mutexes (κ τ : Type) where
  mutex : κ → OsMutex τ
  tcb : τ → MutexTcb κ
  log : List (MutexObs κ τ)

namespace Mutexes

def prio (s : Mutexes κ τ) (t : τ) : Nat := (s.tcb t).prio

def record (o : MutexObs κ τ) (s : Mutexes κ τ) : Mutexes κ τ := { s with log := s.log ++ [o] }

/-- `OS_MutexGrpPrioFindHighest` -/
def osMutexGrpPrioFindHighest (s : Mutexes κ τ) (t : τ) : Nat :=
  (s.tcb t).mutexGrp.foldl
    (fun highest m =>
      match (s.mutex m).pendList with
      | [] => highest
      | head :: _ => if s.prio head < highest then s.prio head else highest)
    (osCfgPrioMax - 1)

/-- `prio_new`, of an owner that may have inherited a priority -/
def prioNew (s : Mutexes κ τ) (t : τ) : Nat :=
  let highest := s.osMutexGrpPrioFindHighest t
  if highest > (s.tcb t).basePrio then (s.tcb t).basePrio else highest

variable [DecidableEq κ] [DecidableEq τ]

def setTcb (t : τ) (c : MutexTcb κ) (s : Mutexes κ τ) : Mutexes κ τ :=
  { s with tcb := Function.update s.tcb t c }

def setMutex (m : κ) (x : OsMutex τ) (s : Mutexes κ τ) : Mutexes κ τ :=
  { s with mutex := Function.update s.mutex m x }

def setPrio (t : τ) (p : Nat) (s : Mutexes κ τ) : Mutexes κ τ :=
  s.setTcb t { s.tcb t with prio := p }

def setState (t : τ) (w : MutexWait κ) (s : Mutexes κ τ) : Mutexes κ τ :=
  s.setTcb t { s.tcb t with state := w }

def setPendList (m : κ) (ts : List τ) (s : Mutexes κ τ) : Mutexes κ τ :=
  s.setMutex m { s.mutex m with pendList := ts }

/-- `OS_MutexGrpAdd` -/
def osMutexGrpAdd (t : τ) (m : κ) (s : Mutexes κ τ) : Mutexes κ τ :=
  s.setTcb t { s.tcb t with mutexGrp := m :: (s.tcb t).mutexGrp }

/-- The search for the mutex, which must be in the group -/
def grpRemove (m : κ) : List κ → Option (List κ)
  | [] => none
  | x :: xs => if x = m then some xs else (grpRemove m xs).map (x :: ·)

/-- `OS_MutexGrpRemove` -/
def osMutexGrpRemove (t : τ) (m : κ) (s : Mutexes κ τ) : Option (Mutexes κ τ) := do
  let grp ← grpRemove m (s.tcb t).mutexGrp
  some (s.setTcb t { s.tcb t with mutexGrp := grp })

/-- `OS_PendListChangePrio`, of a task that waits for `m` -/
def osPendListChangePrio (t : τ) (m : κ) (s : Mutexes κ τ) : Option (Mutexes κ τ) :=
  match (s.mutex m).pendList with
  | [] => none
  | [_] => some s
  | u :: v :: ts =>
      some (s.setPendList m (osPendListInsertPrio s.prio t ((u :: v :: ts).erase t)))

/-- `OS_TaskChangePrio`, for at most `fuel` tasks. Where the priority goes down and the
owner of the mutex does not have the old one, the owner is not cleared. -/
def osTaskChangePrio : Nat → τ → Nat → Mutexes κ τ → Option (Mutexes κ τ)
  | 0, _, _, _ => none
  | fuel + 1, t, p, s =>
      match (s.tcb t).state with
      | .pend m => do
          let prioCur := s.prio t
          let s ← (s.setPrio t p).osPendListChangePrio t m
          let owner ← (s.mutex m).owner
          if prioCur > p then
            if s.prio owner ≤ p then some s else s.osTaskChangePrio fuel owner p
          else if s.prio owner = prioCur then
            if s.prioNew owner = s.prio owner then some s
            else s.osTaskChangePrio fuel owner (s.prioNew owner)
          else s.osTaskChangePrio fuel owner p
      | _ => some (s.setPrio t p)

/-- `OS_Pend` -/
def osPend (t : τ) (m : κ) (s : Mutexes κ τ) : Mutexes κ τ :=
  (s.setPendList m (osPendListInsertPrio s.prio t (s.mutex m).pendList)).setState t (.pend m)

/-- A waiting task is taken off the pend list and readied. -/
def wake (t : τ) (m : κ) (r : MutexErr) (s : Mutexes κ τ) : Mutexes κ τ :=
  (s.setPendList m ((s.mutex m).pendList.erase t)).setState t (.woken m r)

/-- `OS_Post`, which does nothing for a task that does not wait -/
def osPost (t : τ) (m : κ) (s : Mutexes κ τ) : Mutexes κ τ :=
  match (s.tcb t).state with
  | .pend _ => s.wake t m .ok
  | _ => s

/-- `OSMutexPend` until it returns or blocks; `locked` is `OSSchedLockNestingCtr > 0`. -/
def osMutexPend (fuel : Nat) (t : τ) (m : κ) (nonBlocking locked : Bool) (s : Mutexes κ τ) :
    Option (Mutexes κ τ) :=
  let x := s.mutex m
  if x.nesting = 0 then
    some (((s.setMutex m { x with owner := some t, nesting := 1 }).osMutexGrpAdd t m).record
      (.pended t m .ok))
  else if x.owner = some t then
    if x.nesting = 255 then some (s.record (.pended t m .wouldOvf))
    else
      some ((s.setMutex m { x with nesting := x.nesting + 1 }).record (.pended t m .isOwner))
  else if nonBlocking then some (s.record (.pended t m .wouldBlock))
  else if locked then some (s.record (.pended t m .schedLocked))
  else do
    let owner ← x.owner
    let s ← if s.prio owner > s.prio t then s.osTaskChangePrio fuel owner (s.prio t) else some s
    some (s.osPend t m)

/-- The rest of `OSMutexPend`, when the task runs again -/
def osMutexPendReturn (t : τ) (s : Mutexes κ τ) : Option (Mutexes κ τ) :=
  match (s.tcb t).state with
  | .woken m r => some ((s.setState t .rdy).record (.pended t m r))
  | _ => none

/-- The owner, who runs, falls back to its own priority or to one it still inherits. -/
def osMutexDisinherit (t : τ) (s : Mutexes κ τ) : Mutexes κ τ :=
  if s.prio t ≠ (s.tcb t).basePrio ∧ s.prioNew t > s.prio t then s.setPrio t (s.prioNew t) else s

/-- `OSMutexPost` -/
def osMutexPost (t : τ) (m : κ) (s : Mutexes κ τ) : Option (Mutexes κ τ) :=
  let x := s.mutex m
  let nesting := (x.nesting + 255) % 256
  if x.owner ≠ some t then some (s.record (.posted t m .ownership))
  else if nesting > 0 then
    some ((s.setMutex m { x with nesting }).record (.posted t m .isOwner))
  else do
    let s ← s.osMutexGrpRemove t m
    match x.pendList with
    | [] =>
        some ((s.setMutex m { x with owner := none, nesting := 0 }).record (.posted t m .ok))
    | head :: _ =>
        let s := s.osMutexDisinherit t
        let s := s.setMutex m { x with owner := some head, nesting := 1 }
        some (((s.osMutexGrpAdd head m).osPost head m).record (.posted t m .ok))

/-- What `OS_TickListUpdateTimeout` does for a task whose time is up -/
def osTickTimeout (fuel : Nat) (t : τ) (s : Mutexes κ τ) : Option (Mutexes κ τ) :=
  match (s.tcb t).state with
  | .pend m =>
      let s' := s.wake t m .timeout
      match (s.mutex m).owner with
      | none => some s'
      | some owner =>
          if s'.prio owner ≠ (s'.tcb owner).basePrio ∧ s'.prio owner = s'.prio t ∧
              s'.prioNew owner ≠ s'.prio owner then
            s'.osTaskChangePrio fuel owner (s'.prioNew owner)
          else some s'
  | _ => none

end Mutexes

/-- The calls, the time-outs, and a task's other waits -/
inductive MutexCall (κ τ : Type) where
  | pend (t : τ) (m : κ) (nonBlocking locked : Bool)
  | pendReturn (t : τ)
  | post (t : τ) (m : κ)
  | timeout (t : τ)
  | block (t : τ)
  | unblock (t : τ)

/-- The call can be made: it is made by a task that runs, or for one that waits. -/
def MutexCall.Possible (s : Mutexes κ τ) : MutexCall κ τ → Prop
  | .pend t _ _ _ | .post t _ | .block t => (s.tcb t).state = .rdy
  | .pendReturn t => ∃ m r, (s.tcb t).state = .woken m r
  | .timeout t => ∃ m, (s.tcb t).state = .pend m
  | .unblock t => (s.tcb t).state = .blocked

/-- The mutexes with the tasks that use them -/
def mutexMachine [DecidableEq κ] [DecidableEq τ] (fuel : Nat) :
    Machine (Mutexes κ τ) (MutexCall κ τ) where
  step s
    | .pend t m nonBlocking locked => s.osMutexPend fuel t m nonBlocking locked
    | .pendReturn t => s.osMutexPendReturn t
    | .post t m => s.osMutexPost t m
    | .timeout t => s.osTickTimeout fuel t
    | .block t => some (s.setState t .blocked)
    | .unblock t => some (s.setState t .rdy)

/-! ### Owners, groups and pend lists -/

namespace Mutexes

/-- What holds between any two calls. -/
structure Coherent (s : Mutexes κ τ) : Prop where
  free : ∀ m, (s.mutex m).owner = none → (s.mutex m).nesting = 0 ∧ (s.mutex m).pendList = []
  held : ∀ m t, (s.mutex m).owner = some t →
    0 < (s.mutex m).nesting ∧ (s.mutex m).nesting ≤ 255 ∧ (s.tcb t).state ≠ .pend m
  waiting : ∀ m t, t ∈ (s.mutex m).pendList ↔ (s.tcb t).state = .pend m
  nodup : ∀ m, (s.mutex m).pendList.Nodup
  group : ∀ t m, m ∈ (s.tcb t).mutexGrp ↔ (s.mutex m).owner = some t
  groupNodup : ∀ t, (s.tcb t).mutexGrp.Nodup
  /-- A mutex is handed over before the call for it returns. -/
  handed : ∀ t m r, (s.tcb t).state = .woken m r →
    r = .timeout ∨ r = .ok ∧ (s.mutex m).owner = some t ∧ (s.mutex m).nesting = 1

/-- The states differ in priorities and in the order of the pend lists. -/
structure Reprioritised (s s' : Mutexes κ τ) : Prop where
  owner : ∀ m, (s'.mutex m).owner = (s.mutex m).owner
  nesting : ∀ m, (s'.mutex m).nesting = (s.mutex m).nesting
  pendList : ∀ m, (s'.mutex m).pendList.Perm (s.mutex m).pendList
  basePrio : ∀ t, (s'.tcb t).basePrio = (s.tcb t).basePrio
  mutexGrp : ∀ t, (s'.tcb t).mutexGrp = (s.tcb t).mutexGrp
  state : ∀ t, (s'.tcb t).state = (s.tcb t).state
  log : s'.log = s.log

variable {s s' s'' : Mutexes κ τ} {t u head : τ} {m : κ} {p fuel : Nat}

/-- A task waits only for a mutex that is taken. -/
theorem Coherent.exists_owner (h : s.Coherent) (ht : (s.tcb t).state = .pend m) :
    ∃ o, (s.mutex m).owner = some o := by
  cases howner : (s.mutex m).owner with
  | none =>
      have hmem := (h.waiting m t).mpr ht
      rw [(h.free m howner).2] at hmem
      cases hmem
  | some o => exact ⟨o, rfl⟩

/-- It waits for another task. -/
theorem Coherent.pend_owned (h : s.Coherent) (ht : (s.tcb t).state = .pend m) :
    ∃ u, u ≠ t ∧ (s.mutex m).owner = some u := by
  obtain ⟨u, howner⟩ := h.exists_owner ht
  refine ⟨u, ?_, howner⟩
  rintro rfl
  exact (h.held m u howner).2.2 ht

theorem Reprioritised.refl (s : Mutexes κ τ) : s.Reprioritised s :=
  ⟨fun _ => rfl, fun _ => rfl, fun _ => .refl _, fun _ => rfl, fun _ => rfl, fun _ => rfl, rfl⟩

theorem Reprioritised.trans (h : s.Reprioritised s') (h' : s'.Reprioritised s'') :
    s.Reprioritised s'' where
  owner m := (h'.owner m).trans (h.owner m)
  nesting m := (h'.nesting m).trans (h.nesting m)
  pendList m := (h'.pendList m).trans (h.pendList m)
  basePrio t := (h'.basePrio t).trans (h.basePrio t)
  mutexGrp t := (h'.mutexGrp t).trans (h.mutexGrp t)
  state t := (h'.state t).trans (h.state t)
  log := h'.log.trans h.log

theorem Coherent.reprioritised (h : s.Coherent) (hs : s.Reprioritised s') : s'.Coherent where
  free m hm := by
    obtain ⟨hnesting, hlist⟩ := h.free m ((hs.owner m).symm.trans hm)
    exact ⟨(hs.nesting m).trans hnesting, List.perm_nil.mp (hlist ▸ hs.pendList m)⟩
  held m t hm := by
    rw [hs.nesting, hs.state]
    exact h.held m t ((hs.owner m).symm.trans hm)
  waiting m t := by rw [(hs.pendList m).mem_iff, hs.state, h.waiting]
  nodup m := (hs.pendList m).nodup_iff.mpr (h.nodup m)
  group t m := by rw [hs.mutexGrp, hs.owner, h.group]
  groupNodup t := (hs.mutexGrp t).symm ▸ h.groupNodup t
  handed t m r ht := by
    rw [hs.owner, hs.nesting]
    exact h.handed t m r ((hs.state t).symm.trans ht)

/-! ### A change of priority -/

variable [DecidableEq τ]

theorem setPrio_reprioritised (s : Mutexes κ τ) (t : τ) (p : Nat) :
    s.Reprioritised (s.setPrio t p) where
  owner _ := rfl
  nesting _ := rfl
  pendList _ := .refl _
  basePrio u := by
    by_cases hu : u = t <;> simp [setPrio, setTcb, hu]
  mutexGrp u := by
    by_cases hu : u = t <;> simp [setPrio, setTcb, hu]
  state u := by
    by_cases hu : u = t <;> simp [setPrio, setTcb, hu]
  log := rfl

variable [DecidableEq κ]

omit [DecidableEq τ] in
theorem setPendList_reprioritised {ts : List τ} (h : ts.Perm (s.mutex m).pendList) :
    s.Reprioritised (s.setPendList m ts) where
  owner m' := by
    by_cases hm : m' = m <;> simp [setPendList, setMutex, hm]
  nesting m' := by
    by_cases hm : m' = m <;> simp [setPendList, setMutex, hm]
  pendList m' := by
    by_cases hm : m' = m
    · subst hm
      simpa [setPendList, setMutex] using h
    · simp [setPendList, setMutex, hm]
  basePrio _ := rfl
  mutexGrp _ := rfl
  state _ := rfl
  log := rfl

omit [DecidableEq κ] in
theorem setPrio_prio (s : Mutexes κ τ) (t : τ) (p : Nat) :
    (s.setPrio t p).prio = Function.update s.prio t p := by
  funext u
  by_cases hu : u = t <;> simp [prio, setPrio, setTcb, hu]

/-- The task is moved to where its new priority belongs. -/
theorem Coherent.osPendListChangePrio (h : s.Coherent) (ht : (s.tcb t).state = .pend m)
    (p : Nat) : ∃ ts s', (s.setPrio t p).osPendListChangePrio t m = some s' ∧
      s' = (s.setPrio t p).setPendList m ts ∧ ts.Perm (s.mutex m).pendList ∧
      ts = osPendListInsertPrio (s.setPrio t p).prio t ((s.mutex m).pendList.erase t) := by
  have hmem := (h.waiting m t).mpr ht
  have hlist : ((s.setPrio t p).mutex m).pendList = (s.mutex m).pendList := rfl
  unfold Mutexes.osPendListChangePrio
  rw [hlist]
  cases hts : (s.mutex m).pendList with
  | nil =>
      rw [hts] at hmem
      cases hmem
  | cons v vs =>
      cases vs with
      | nil =>
          rw [hts, List.mem_singleton] at hmem
          subst hmem
          refine ⟨[t], s.setPrio t p, rfl, ?_, .refl _, ?_⟩
          · rw [setPendList, ← hts, ← hlist]
            simp [setMutex]
          · simp [osPendListInsertPrio]
      | cons w ws =>
          refine ⟨_, _, rfl, rfl, ?_, rfl⟩
          rw [hts] at hmem
          exact (perm_osPendListInsertPrio _ t _).trans (List.perm_cons_erase hmem).symm

/-- `OS_TaskChangePrio` changes nothing but priorities and the order of pend lists. -/
theorem Coherent.osTaskChangePrio (h : s.Coherent)
    (hrun : s.osTaskChangePrio fuel t p = some s') : s.Reprioritised s' := by
  induction fuel generalizing s t p with
  | zero => cases hrun
  | succ fuel ih =>
      cases ht : (s.tcb t).state with
      | rdy | blocked | woken m r =>
          simp only [Mutexes.osTaskChangePrio, ht, Option.some.injEq] at hrun
          exact hrun ▸ s.setPrio_reprioritised t p
      | pend m =>
          obtain ⟨ts, s₁, hs₁, rfl, hperm, -⟩ := h.osPendListChangePrio ht p
          have hsame := (s.setPrio_reprioritised t p).trans
            (setPendList_reprioritised (s := s.setPrio t p) (m := m) hperm)
          simp only [Mutexes.osTaskChangePrio, ht, hs₁, Option.bind_eq_bind, Option.bind_some]
            at hrun
          cases howner : (((s.setPrio t p).setPendList m ts).mutex m).owner with
          | none =>
              rw [howner] at hrun
              cases hrun
          | some owner =>
              rw [howner, Option.bind_some] at hrun
              split at hrun
              · split at hrun
                · exact Option.some.inj hrun ▸ hsame
                · exact hsame.trans (ih (h.reprioritised hsame) hrun)
              · split at hrun
                · split at hrun
                  · exact Option.some.inj hrun ▸ hsame
                  · exact hsame.trans (ih (h.reprioritised hsame) hrun)
                · exact hsame.trans (ih (h.reprioritised hsame) hrun)

/-- A task that begins to wait may raise the owner's priority. -/
theorem Coherent.inherit (h : s.Coherent) (hraise : (if s.prio u > s.prio t then
    s.osTaskChangePrio fuel u (s.prio t) else some s) = some s') : s.Reprioritised s' := by
  split at hraise
  · exact h.osTaskChangePrio hraise
  · exact Option.some.inj hraise ▸ .refl s

/-! ### What a call does -/

/-- The mutex is taken out of the group of its owner. -/
def leave (t : τ) (m : κ) (s : Mutexes κ τ) : Mutexes κ τ :=
  s.setTcb t { s.tcb t with mutexGrp := (s.tcb t).mutexGrp.erase m }

/-- The owner gives the mutex to the first task that waits for it. -/
def handOver (t head : τ) (ts : List τ) (m : κ) (s : Mutexes κ τ) : Mutexes κ τ :=
  let s := (s.leave t m).osMutexDisinherit t
  (s.setMutex m ⟨some head, 1, ts⟩).setTcb head
    { s.tcb head with mutexGrp := m :: (s.tcb head).mutexGrp, state := .woken m .ok }

/-- What a call does, and its result. -/
inductive Does (fuel : Nat) (s : Mutexes κ τ) :
    MutexCall κ τ → Option (Mutexes κ τ) → Prop where
  | takes {t : τ} {m : κ} {b l : Bool} : (s.mutex m).owner = none → (s.tcb t).state = .rdy →
      Does fuel s (.pend t m b l)
        (some (((s.setMutex m { s.mutex m with owner := some t, nesting := 1 }).osMutexGrpAdd
          t m).record (.pended t m .ok)))
  | nests {t : τ} {m : κ} {b l : Bool} : (s.mutex m).owner = some t → (s.mutex m).nesting < 255 →
      Does fuel s (.pend t m b l)
        (some ((s.setMutex m { s.mutex m with nesting := (s.mutex m).nesting + 1 }).record
          (.pended t m .isOwner)))
  | refused {t : τ} {m : κ} {b l : Bool} {r : MutexErr} : r ≠ .ok → r ≠ .isOwner →
      b = true ∨ l = true ∨ (s.mutex m).owner = some t →
      Does fuel s (.pend t m b l) (some (s.record (.pended t m r)))
  | waits {t u : τ} {m : κ} {b l : Bool} : (s.mutex m).owner = some u → u ≠ t →
      (s.tcb t).state = .rdy → Does fuel s (.pend t m b l)
        ((if s.prio u > s.prio t then s.osTaskChangePrio fuel u (s.prio t) else some s).map
          fun s => s.osPend t m)
  | returns {t : τ} {m : κ} {r : MutexErr} : (s.tcb t).state = .woken m r →
      Does fuel s (.pendReturn t) (some ((s.setState t .rdy).record (.pended t m r)))
  | denied {t : τ} {m : κ} : (s.mutex m).owner ≠ some t →
      Does fuel s (.post t m) (some (s.record (.posted t m .ownership)))
  | unnests {t : τ} {m : κ} : (s.mutex m).owner = some t → 1 < (s.mutex m).nesting →
      Does fuel s (.post t m)
        (some ((s.setMutex m { s.mutex m with nesting := (s.mutex m).nesting - 1 }).record
          (.posted t m .isOwner)))
  | frees {t : τ} {m : κ} : (s.mutex m).owner = some t → (s.mutex m).nesting = 1 →
      (s.mutex m).pendList = [] → (s.tcb t).state = .rdy →
      Does fuel s (.post t m)
        (some (((s.leave t m).setMutex m ⟨none, 0, []⟩).record (.posted t m .ok)))
  | handsOver {t head : τ} {m : κ} {ts : List τ} : (s.mutex m).owner = some t →
      (s.mutex m).nesting = 1 → (s.mutex m).pendList = head :: ts → (s.tcb t).state = .rdy →
      Does fuel s (.post t m) (some ((s.handOver t head ts m).record (.posted t m .ok)))
  | givesUp {t u : τ} {m : κ} : (s.tcb t).state = .pend m → (s.mutex m).owner = some u →
      Does fuel s (.timeout t)
        (if (s.wake t m .timeout).prio u ≠ ((s.wake t m .timeout).tcb u).basePrio ∧
            (s.wake t m .timeout).prio u = (s.wake t m .timeout).prio t ∧
            (s.wake t m .timeout).prioNew u ≠ (s.wake t m .timeout).prio u then
          (s.wake t m .timeout).osTaskChangePrio fuel u ((s.wake t m .timeout).prioNew u)
        else some (s.wake t m .timeout))
  | blocks {t : τ} : (s.tcb t).state = .rdy →
      Does fuel s (.block t) (some (s.setState t .blocked))
  | unblocks {t : τ} : (s.tcb t).state = .blocked →
      Does fuel s (.unblock t) (some (s.setState t .rdy))

omit [DecidableEq τ] in
theorem grpRemove_eq {ms : List κ} (h : m ∈ ms) : grpRemove m ms = some (ms.erase m) := by
  induction ms with
  | nil => cases h
  | cons x xs ih =>
      by_cases hx : x = m
      · simp [grpRemove, hx]
      · have hmem : m ∈ xs := by
          rcases List.mem_cons.mp h with rfl | hmem
          · exact absurd rfl hx
          · exact hmem
        simp [grpRemove, hx, ih hmem]

omit [DecidableEq κ] in
theorem osMutexDisinherit_reprioritised (s : Mutexes κ τ) (t : τ) :
    s.Reprioritised (s.osMutexDisinherit t) := by
  unfold osMutexDisinherit
  split
  · exact s.setPrio_reprioritised t _
  · exact .refl s

theorem leave_state (s : Mutexes κ τ) (t u : τ) (m : κ) :
    ((s.leave t m).tcb u).state = (s.tcb u).state := by
  by_cases hu : u = t <;> simp [leave, setTcb, hu]

theorem leave_mutexGrp (s : Mutexes κ τ) (t u : τ) (m : κ) :
    ((s.leave t m).tcb u).mutexGrp =
      if u = t then (s.tcb u).mutexGrp.erase m else (s.tcb u).mutexGrp := by
  by_cases hu : u = t <;> simp [leave, setTcb, hu]

/-- The three calls in `OSMutexPost` for the first waiting task -/
theorem osPost_osMutexGrpAdd {ts : List τ} (hpend : (s.tcb head).state = .pend m) :
    ((s.setMutex m ⟨some head, 1, head :: ts⟩).osMutexGrpAdd head m).osPost head m =
      (s.setMutex m ⟨some head, 1, ts⟩).setTcb head
        { s.tcb head with mutexGrp := m :: (s.tcb head).mutexGrp, state := .woken m .ok } := by
  simp [osPost, osMutexGrpAdd, setTcb, setMutex, hpend, Mutexes.wake, setPendList, setState]

theorem Coherent.osMutexPend_does (h : s.Coherent) (ht : (s.tcb t).state = .rdy)
    (nonBlocking locked : Bool) : s.Does fuel (.pend t m nonBlocking locked)
      (s.osMutexPend fuel t m nonBlocking locked) := by
  unfold Mutexes.osMutexPend
  dsimp only
  cases howner : (s.mutex m).owner with
  | none =>
      rw [if_pos (h.free m howner).1]
      exact .takes howner ht
  | some u =>
      obtain ⟨hpos, hle, -⟩ := h.held m u howner
      rw [if_neg (Nat.ne_of_gt hpos), ← howner]
      by_cases hu : (s.mutex m).owner = some t
      · rw [if_pos hu]
        by_cases hfull : (s.mutex m).nesting = 255
        · rw [if_pos hfull]
          exact .refused (by simp) (by simp) (.inr (.inr hu))
        · rw [if_neg hfull]
          exact .nests hu (by omega)
      · rw [if_neg hu, howner]
        have hne : u ≠ t := by
          rintro rfl
          exact hu howner
        cases nonBlocking with
        | true => exact .refused (by simp) (by simp) (.inl rfl)
        | false =>
            cases locked with
            | true => exact .refused (by simp) (by simp) (.inr (.inl rfl))
            | false =>
                have hwaits : s.Does fuel (.pend t m false false) _ := .waits howner hne ht
                by_cases hprio : s.prio t < s.prio u <;>
                  simpa [hprio, Option.map_eq_bind] using hwaits

theorem Coherent.osMutexPost_does (h : s.Coherent) (ht : (s.tcb t).state = .rdy) :
    s.Does fuel (.post t m) (s.osMutexPost t m) := by
  unfold Mutexes.osMutexPost
  dsimp only
  by_cases howner : (s.mutex m).owner = some t
  · obtain ⟨hpos, hle, -⟩ := h.held m t howner
    rw [if_neg (not_not_intro howner)]
    by_cases hone : (s.mutex m).nesting = 1
    · have hleave : s.osMutexGrpRemove t m = some (s.leave t m) := by
        rw [osMutexGrpRemove, grpRemove_eq ((h.group t m).mpr howner)]
        rfl
      rw [if_neg (by simp [hone]), hleave]
      cases hlist : (s.mutex m).pendList with
      | nil => exact .frees howner hone hlist ht
      | cons head ts =>
          have hpend := (h.waiting m head).mp (hlist ▸ List.mem_cons_self)
          have hstate : (((s.leave t m).osMutexDisinherit t).tcb head).state = .pend m := by
            rw [((s.leave t m).osMutexDisinherit_reprioritised t).state, leave_state, hpend]
          have hgives : s.Does fuel (.post t m) _ := .handsOver howner hone hlist ht
          simpa [osPost_osMutexGrpAdd hstate, handOver] using hgives
    · have hdec : ((s.mutex m).nesting + 255) % 256 = (s.mutex m).nesting - 1 := by omega
      rw [hdec, if_pos (by omega)]
      exact .unnests howner (by omega)
  · rw [if_pos howner]
    exact .denied howner

theorem Coherent.osTickTimeout_does (h : s.Coherent) (ht : ∃ m, (s.tcb t).state = .pend m) :
    s.Does fuel (.timeout t) (s.osTickTimeout fuel t) := by
  obtain ⟨m, ht⟩ := ht
  unfold Mutexes.osTickTimeout
  simp only [ht]
  obtain ⟨u, howner⟩ := h.exists_owner ht
  rw [howner]
  exact .givesUp ht howner

/-- **What a call does.** -/
theorem Coherent.does (fuel : Nat) (h : s.Coherent) {e : MutexCall κ τ} (possible : e.Possible s) :
    s.Does fuel e ((mutexMachine fuel).step s e) := by
  cases e with
  | pend t m nonBlocking locked => exact h.osMutexPend_does possible nonBlocking locked
  | pendReturn t =>
      obtain ⟨m, r, ht⟩ := possible
      have hreturns : s.Does fuel (.pendReturn t) _ := .returns ht
      simpa [mutexMachine, osMutexPendReturn, ht] using hreturns
  | post t m => exact h.osMutexPost_does possible
  | timeout t => exact h.osTickTimeout_does possible
  | block t => exact .blocks possible
  | unblock t => exact .unblocks possible

/-! ### What every call keeps -/

omit [DecidableEq κ] [DecidableEq τ] in
theorem Coherent.record (h : s.Coherent) (o : MutexObs κ τ) : (s.record o).Coherent :=
  ⟨h.free, h.held, h.waiting, h.nodup, h.group, h.groupNodup, h.handed⟩

theorem Coherent.takes (h : s.Coherent) (hm : (s.mutex m).owner = none)
    (ht : (s.tcb t).state = .rdy) :
    ((s.setMutex m { s.mutex m with owner := some t, nesting := 1 }).osMutexGrpAdd t
      m).Coherent := by
  obtain ⟨free, held, waiting, nodup, group, groupNodup, handed⟩ := h
  constructor <;> simp only [setMutex, osMutexGrpAdd, setTcb, Function.update_apply] <;> grind

omit [DecidableEq τ] in
theorem Coherent.setNesting (h : s.Coherent) (hm : (s.mutex m).owner = some t)
    (ht : (s.tcb t).state = .rdy) {n : Nat} (hpos : 0 < n) (hle : n ≤ 255) :
    (s.setMutex m { s.mutex m with nesting := n }).Coherent := by
  obtain ⟨free, held, waiting, nodup, group, groupNodup, handed⟩ := h
  constructor <;> simp only [setMutex, Function.update_apply] <;> grind

theorem Coherent.osPend (h : s.Coherent) (hm : (s.mutex m).owner = some u) (hu : u ≠ t)
    (ht : (s.tcb t).state = .rdy) : (s.osPend t m).Coherent := by
  have hperm := perm_osPendListInsertPrio s.prio t (s.mutex m).pendList
  have hmem := fun v => hperm.mem_iff (a := v)
  have hnodup := hperm.nodup_iff
  obtain ⟨free, held, waiting, nodup, group, groupNodup, handed⟩ := h
  constructor <;> simp only [Mutexes.osPend, setPendList, setState, setMutex, setTcb,
    Function.update_apply] <;> grind

theorem Coherent.wake (h : s.Coherent) (ht : (s.tcb t).state = .pend m) :
    (s.wake t m .timeout).Coherent := by
  have hnodup := (h.nodup m).erase t
  obtain ⟨free, held, waiting, nodup, group, groupNodup, handed⟩ := h
  constructor <;> simp only [Mutexes.wake, setPendList, setState, setMutex, setTcb,
    Function.update_apply] <;> grind

omit [DecidableEq κ] in
/-- A task runs on, or stops for something else. -/
theorem Coherent.setState (h : s.Coherent) (ht : ∀ m, (s.tcb t).state ≠ .pend m)
    {w : MutexWait κ} (hw : w = .rdy ∨ w = .blocked) : (s.setState t w).Coherent := by
  obtain ⟨free, held, waiting, nodup, group, groupNodup, handed⟩ := h
  constructor <;> simp only [Mutexes.setState, setTcb, Function.update_apply] <;> grind

theorem Coherent.frees (h : s.Coherent) (hm : (s.mutex m).owner = some t)
    (hlist : (s.mutex m).pendList = []) (ht : (s.tcb t).state = .rdy) :
    ((s.leave t m).setMutex m ⟨none, 0, []⟩).Coherent := by
  have hnodup := (h.groupNodup t).erase m
  obtain ⟨free, held, waiting, nodup, group, groupNodup, handed⟩ := h
  constructor <;> simp only [leave, setMutex, setTcb, Function.update_apply] <;> grind

theorem handOver_log (s : Mutexes κ τ) (t head : τ) (ts : List τ) (m : κ) :
    (s.handOver t head ts m).log = s.log :=
  ((s.leave t m).osMutexDisinherit_reprioritised t).log

theorem handOver_mutex (s : Mutexes κ τ) (t head : τ) (ts : List τ) (m : κ) :
    (s.handOver t head ts m).mutex = Function.update s.mutex m ⟨some head, 1, ts⟩ := by
  have hmutex : ((s.leave t m).osMutexDisinherit t).mutex = s.mutex := by
    unfold osMutexDisinherit
    split <;> rfl
  simp only [handOver, setTcb, setMutex, hmutex]

theorem handOver_state (s : Mutexes κ τ) (t head : τ) (ts : List τ) (m : κ) (u : τ) :
    ((s.handOver t head ts m).tcb u).state =
      if u = head then .woken m .ok else (s.tcb u).state := by
  have hsame := (s.leave t m).osMutexDisinherit_reprioritised t
  by_cases hu : u = head
  · simp [handOver, setTcb, hu]
  · simp [handOver, setTcb, setMutex, hu, hsame.state, leave_state]

theorem handOver_mutexGrp (s : Mutexes κ τ) {t head : τ} (hne : head ≠ t) (ts : List τ) (m : κ)
    (u : τ) : ((s.handOver t head ts m).tcb u).mutexGrp =
      if u = head then m :: (s.tcb u).mutexGrp
      else if u = t then (s.tcb u).mutexGrp.erase m else (s.tcb u).mutexGrp := by
  have hsame := (s.leave t m).osMutexDisinherit_reprioritised t
  by_cases hu : u = head
  · simp [handOver, setTcb, setMutex, hu, hsame.mutexGrp, leave_mutexGrp, hne]
  · simp [handOver, setTcb, setMutex, hu, hsame.mutexGrp, leave_mutexGrp]

theorem Coherent.handOver (h : s.Coherent) {ts : List τ} (hm : (s.mutex m).owner = some t)
    (hlist : (s.mutex m).pendList = head :: ts) (ht : (s.tcb t).state = .rdy) :
    (s.handOver t head ts m).Coherent := by
  have hpend := (h.waiting m head).mp (hlist ▸ List.mem_cons_self)
  have hnodup := (h.groupNodup t).erase m
  have hne : head ≠ t := by
    rintro rfl
    rw [hpend] at ht
    cases ht
  obtain ⟨free, held, waiting, nodup, group, groupNodup, handed⟩ := h
  constructor <;> simp only [handOver_mutex, handOver_state, handOver_mutexGrp _ hne,
    Function.update_apply] <;> grind

/-- **Step.** A call keeps owners, groups and pend lists in step. -/
theorem Coherent.step (h : s.Coherent) {e : MutexCall κ τ} (possible : e.Possible s)
    (hstep : (mutexMachine fuel).step s e = some s') : s'.Coherent := by
  have hdoes := h.does fuel possible
  rw [hstep] at hdoes
  generalize hresult : some s' = result at hdoes
  cases hdoes with
  | takes hm ht =>
      cases hresult
      exact (h.takes hm ht).record _
  | nests hm hlt =>
      cases hresult
      exact (h.setNesting hm possible (Nat.succ_pos _) hlt).record _
  | refused _ _ _ | denied _ =>
      cases hresult
      exact h.record _
  | @waits t u m _ _ hm hu ht =>
      obtain ⟨s₁, hs₁, rfl⟩ := Option.map_eq_some_iff.mp hresult.symm
      have hsame := h.inherit hs₁
      exact (h.reprioritised hsame).osPend ((hsame.owner m).trans hm) hu ((hsame.state t).trans ht)
  | returns ht =>
      cases hresult
      exact (h.setState (by simp [ht]) (.inl rfl)).record _
  | unnests hm hlt =>
      cases hresult
      have hle := (h.held _ _ hm).2.1
      exact (h.setNesting hm possible (by omega) (by omega)).record _
  | frees hm _ hlist ht =>
      cases hresult
      exact (h.frees hm hlist ht).record _
  | handsOver hm _ hlist ht =>
      cases hresult
      exact (h.handOver hm hlist ht).record _
  | givesUp ht hm =>
      have hwake := h.wake ht
      split at hresult
      · exact hwake.reprioritised (hwake.osTaskChangePrio hresult.symm)
      · cases hresult
        exact hwake
  | blocks ht =>
      cases hresult
      exact h.setState (by simp [ht]) (.inr rfl)
  | unblocks ht =>
      cases hresult
      exact h.setState (by simp [ht]) (.inl rfl)

/-- Only a task itself gives a mutex back that it has. -/
theorem Coherent.owner_kept (h : s.Coherent) {e : MutexCall κ τ} (possible : e.Possible s)
    (hstep : (mutexMachine fuel).step s e = some s') (hm : (s.mutex m).owner = some t)
    (hne : e ≠ .post t m) : (s'.mutex m).owner = some t := by
  have hdoes := h.does fuel possible
  rw [hstep] at hdoes
  generalize hresult : some s' = result at hdoes
  cases hdoes with
  | @takes u m' _ _ hfree _ =>
      obtain rfl := Option.some.inj hresult
      simp only [Mutexes.record, osMutexGrpAdd, setMutex, setTcb, Function.update_apply]
      grind
  | @nests u m' _ _ _ _ =>
      obtain rfl := Option.some.inj hresult
      simp only [Mutexes.record, setMutex, Function.update_apply]
      grind
  | refused _ _ _ | denied _ =>
      obtain rfl := Option.some.inj hresult
      exact hm
  | waits _ _ _ =>
      obtain ⟨s₁, hs₁, rfl⟩ := Option.map_eq_some_iff.mp hresult.symm
      have hsame := h.inherit hs₁
      have howner := (hsame.owner m).trans hm
      simp only [Mutexes.osPend, Mutexes.setState, setPendList, setMutex, setTcb,
        Function.update_apply]
      grind
  | returns _ | blocks _ | unblocks _ =>
      obtain rfl := Option.some.inj hresult
      exact hm
  | @unnests u m' _ _ =>
      obtain rfl := Option.some.inj hresult
      simp only [Mutexes.record, setMutex, Function.update_apply]
      grind
  | @frees u m' hu _ _ _ =>
      obtain rfl := Option.some.inj hresult
      simp only [Mutexes.record, leave, setMutex, setTcb, Function.update_apply]
      grind
  | @handsOver u head m' ts hu _ _ _ =>
      obtain rfl := Option.some.inj hresult
      change ((s.handOver u head ts m').mutex m).owner = _
      simp only [handOver_mutex, Function.update_apply]
      grind
  | @givesUp u v m' hu _ =>
      have howner : ((s.wake u m' .timeout).mutex m).owner = some t := by
        simp only [Mutexes.wake, Mutexes.setState, setPendList, setMutex, setTcb,
          Function.update_apply]
        grind
      split at hresult
      · exact (((h.wake hu).osTaskChangePrio hresult.symm).owner m).trans howner
      · obtain rfl := Option.some.inj hresult
        exact howner

/-! ### The history of a mutex -/

/-- The call took or gave back `m`, once more or for good. -/
def lockEvent (m : κ) : MutexObs κ τ → Option (LockEvent τ)
  | .pended t m' r =>
      if m' = m ∧ (r = .ok ∨ r = .isOwner) then some (.acquire t) else none
  | .posted t m' r =>
      if m' = m ∧ (r = .ok ∨ r = .isOwner) then some (.release t) else none

/-- The calls of a log that took or gave back `m` -/
def lockHistory (m : κ) (log : List (MutexObs κ τ)) : List (LockEvent τ) :=
  log.filterMap (lockEvent m)

/-- The task that the mutex lets in: its owner, once the call has returned. -/
def inside (s : Mutexes κ τ) (m : κ) : Option (τ × Nat) :=
  match (s.mutex m).owner with
  | none => none
  | some t =>
      if (s.tcb t).state = .woken m .ok then none else some (t, (s.mutex m).nesting)

/-- The history of each mutex is one of a lock, which the task inside holds. -/
def Recorded (s : Mutexes κ τ) : Prop :=
  ∀ m, reentrantLock.run none (lockHistory m s.log) = some (s.inside m)

/-- The observation is what the lock does, if it is one of the mutex. -/
theorem Recorded.extend (h : s.Recorded) (o : MutexObs κ τ) (hlog : s'.log = s.log ++ [o])
    (hobs : ∀ m, match lockEvent m o with
      | none => s'.inside m = s.inside m
      | some e => reentrantLock.step (s.inside m) e = some (s'.inside m)) : s'.Recorded := by
  intro m
  have ho := hobs m
  rw [hlog, lockHistory, List.filterMap_append, Machine.run_append, ← lockHistory, h m]
  cases he : lockEvent m o with
  | none =>
      simp only [he] at ho
      simp [he, ho]
  | some e =>
      simp only [he] at ho
      simp [he, Machine.run, ho]

theorem Recorded.same (h : s.Recorded) (hlog : s'.log = s.log)
    (hinside : ∀ m, s'.inside m = s.inside m) : s'.Recorded := by
  intro m
  rw [hlog, hinside, h m]

omit [DecidableEq τ] in
theorem Reprioritised.inside (h : s.Reprioritised s') (m : κ) : s'.inside m = s.inside m := by
  simp only [Mutexes.inside, h.owner, h.nesting, h.state]

/-- **Step.** A task that takes a mutex finds it free or its own. -/
theorem Recorded.step (h : s.Recorded) (hs : s.Coherent) {e : MutexCall κ τ}
    (possible : e.Possible s) (hstep : (mutexMachine fuel).step s e = some s') :
    s'.Recorded := by
  have hdoes := hs.does fuel possible
  rw [hstep] at hdoes
  generalize hresult : some s' = result at hdoes
  cases hdoes with
  | @takes t m _ _ hm ht =>
      obtain rfl := Option.some.inj hresult
      refine h.extend (.pended t m .ok) rfl fun m' => ?_
      by_cases hm' : m' = m
      · subst hm'
        simp [lockEvent, inside, hm, Mutexes.record, osMutexGrpAdd, setMutex, setTcb, ht,
          reentrantLock]
      · simp only [lockEvent, inside, Mutexes.record, osMutexGrpAdd, setMutex, setTcb,
          Function.update_apply]
        grind
  | @nests t m _ _ hm hlt =>
      obtain rfl := Option.some.inj hresult
      refine h.extend (.pended t m .isOwner) rfl fun m' => ?_
      have ht : (s.tcb t).state = .rdy := possible
      by_cases hm' : m' = m
      · subst hm'
        simp [lockEvent, inside, hm, Mutexes.record, setMutex, ht, reentrantLock]
      · simp [lockEvent, inside, Mutexes.record, setMutex, hm', Ne.symm hm']
  | @refused t m _ _ r hok hown _ =>
      obtain rfl := Option.some.inj hresult
      refine h.extend (.pended t m r) rfl fun m' => ?_
      simp only [lockEvent, hok, hown, or_self, and_false, if_false]
      rfl
  | @waits t m _ _ u hm hu ht =>
      obtain ⟨s₁, hs₁, rfl⟩ := Option.map_eq_some_iff.mp hresult.symm
      have hsame := hs.inherit hs₁
      refine h.same hsame.log fun m' => ?_
      rw [← hsame.inside]
      have hrdy := (hsame.state t).trans ht
      simp only [inside, Mutexes.osPend, setState, setPendList, setMutex, setTcb,
        Function.update_apply]
      grind
  | @returns t m r ht =>
      obtain rfl := Option.some.inj hresult
      refine h.extend (.pended t m r) rfl fun m' => ?_
      have hhanded := hs.handed t m r ht
      simp only [lockEvent, inside, Mutexes.record, setState, setTcb, Function.update_apply,
        reentrantLock]
      grind
  | @denied t m _ =>
      obtain rfl := Option.some.inj hresult
      refine h.extend (.posted t m .ownership) rfl fun m' => ?_
      simp only [lockEvent, reduceCtorEq, or_self, and_false, if_false]
      rfl
  | @unnests t m hm hlt =>
      obtain rfl := Option.some.inj hresult
      refine h.extend (.posted t m .isOwner) rfl fun m' => ?_
      have ht : (s.tcb t).state = .rdy := possible
      by_cases hm' : m' = m
      · subst hm'
        simp [lockEvent, inside, hm, Mutexes.record, setMutex, ht, reentrantLock,
          Nat.not_le_of_lt hlt]
      · simp [lockEvent, inside, Mutexes.record, setMutex, hm', Ne.symm hm']
  | @frees t m hm hone hlist ht =>
      obtain rfl := Option.some.inj hresult
      refine h.extend (.posted t m .ok) rfl fun m' => ?_
      simp only [lockEvent, inside, Mutexes.record, leave, setMutex, setTcb,
        Function.update_apply, reentrantLock]
      grind
  | @handsOver t head m ts hm hone hlist ht =>
      obtain rfl := Option.some.inj hresult
      refine h.extend (.posted t m .ok) (congrArg (· ++ _) (s.handOver_log t head ts m))
        fun m' => ?_
      have hpend := (hs.waiting m head).mp (hlist ▸ List.mem_cons_self)
      change match lockEvent m' (.posted t m .ok) with
        | none => (s.handOver t head ts m).inside m' = s.inside m'
        | some e => reentrantLock.step (s.inside m') e = some ((s.handOver t head ts m).inside m')
      simp only [lockEvent, inside, handOver_mutex, handOver_state, Function.update_apply,
        reentrantLock]
      grind
  | @givesUp t u m ht hm =>
      have hwake : ∀ m', (s.wake t m .timeout).inside m' = s.inside m' := by
        intro m'
        simp only [inside, Mutexes.wake, setState, setPendList, setMutex, setTcb,
          Function.update_apply]
        grind
      split at hresult
      · have hsame := (hs.wake ht).osTaskChangePrio hresult.symm
        exact h.same hsame.log fun m' => (hsame.inside m').trans (hwake m')
      · obtain rfl := Option.some.inj hresult
        exact h.same rfl hwake
  | @blocks t ht =>
      obtain rfl := Option.some.inj hresult
      refine h.same rfl fun m' => ?_
      simp only [inside, setState, setTcb, Function.update_apply]
      grind
  | @unblocks t ht =>
      obtain rfl := Option.some.inj hresult
      refine h.same rfl fun m' => ?_
      simp only [inside, setState, setTcb, Function.update_apply]
      grind

/-- The mutexes and the tasks as they are created -/
structure Start (s : Mutexes κ τ) : Prop where
  mutex : ∀ m, s.mutex m = ⟨none, 0, []⟩
  prio : ∀ t, (s.tcb t).prio = (s.tcb t).basePrio
  basePrio : ∀ t, (s.tcb t).basePrio < osCfgPrioMax
  mutexGrp : ∀ t, (s.tcb t).mutexGrp = []
  state : ∀ t, (s.tcb t).state = .rdy ∨ (s.tcb t).state = .blocked
  log : s.log = []

omit [DecidableEq κ] [DecidableEq τ] in
theorem Start.coherent (h : s.Start) : s.Coherent := by
  obtain ⟨mutex, prio, basePrio, mutexGrp, state, log⟩ := h
  constructor <;> grind

theorem Start.recorded (h : s.Start) : s.Recorded := by
  intro m
  simp [h.log, lockHistory, inside, h.mutex m]

end Mutexes

variable [DecidableEq κ] [DecidableEq τ]

instance MutexCall.Possible.decidable (s : Mutexes κ τ) :
    ∀ e : MutexCall κ τ, Decidable (e.Possible s)
  | .pend t _ _ _ => inferInstanceAs (Decidable ((s.tcb t).state = .rdy))
  | .post t _ => inferInstanceAs (Decidable ((s.tcb t).state = .rdy))
  | .block t => inferInstanceAs (Decidable ((s.tcb t).state = .rdy))
  | .unblock t => inferInstanceAs (Decidable ((s.tcb t).state = .blocked))
  | .pendReturn t =>
      match h : (s.tcb t).state with
      | .woken m r => isTrue ⟨m, r, h⟩
      | .rdy | .blocked | .pend _ => isFalse (by simp [Possible, h])
  | .timeout t =>
      match h : (s.tcb t).state with
      | .pend m => isTrue ⟨m, h⟩
      | .rdy | .blocked | .woken _ _ => isFalse (by simp [Possible, h])

/-- **Mutual exclusion.** After any run, the calls that took and gave back a mutex are
the history of a lock, which is free between a hand-over and the return of the pend it
ends; a task that waits for the mutex waits for another task. -/
theorem mutex_history (fuel : Nat) {s₀ s : Mutexes κ τ} (start : s₀.Start)
    {es : List (MutexCall κ τ)}
    (possible : (mutexMachine fuel).Guarded (fun s e => e.Possible s) s₀ es)
    (run : (mutexMachine fuel).run s₀ es = some s) (m : κ) :
    reentrantLock.run none (Mutexes.lockHistory m s.log) = some (s.inside m) ∧
      ∀ t, (s.tcb t).state = .pend m → ∃ u, u ≠ t ∧ (s.mutex m).owner = some u := by
  have hend := Machine.run_invariant
    (fun (s : Mutexes κ τ) e s' (h : s.Coherent ∧ s.Recorded) hok hstep =>
      (⟨h.1.step hok hstep, h.2.step h.1 hok hstep⟩ : s'.Coherent ∧ s'.Recorded))
    ⟨start.coherent, start.recorded⟩ possible run
  exact ⟨hend.2 m, fun t ht => hend.1.pend_owned ht⟩

/-- Two tasks of priorities 5 and 3, and a mutex -/
def Mutexes.twoTasks : Mutexes Unit Bool where
  mutex _ := ⟨none, 0, []⟩
  tcb t := if t then ⟨5, 5, [], .rdy⟩ else ⟨3, 3, [], .rdy⟩
  log := []

theorem Mutexes.twoTasks_start : twoTasks.Start where
  mutex _ := rfl
  prio t := by cases t <;> rfl
  basePrio t := by cases t <;> simp [twoTasks, osCfgPrioMax]
  mutexGrp t := by cases t <;> rfl
  state t := by cases t <;> exact .inl rfl
  log := rfl

/-- The second task waits for a mutex that the first one has taken twice. -/
def Mutexes.twoTasksRun : List (MutexCall Unit Bool) :=
  [.pend true () false false, .pend true () false false, .pend false () false false,
    .post true (), .post true (), .pendReturn false]

theorem mutex_history_two :
    ∃ s, (mutexMachine 2).run Mutexes.twoTasks Mutexes.twoTasksRun = some s ∧
      reentrantLock.run none (Mutexes.lockHistory () s.log) = some (s.inside ()) := by
  have hsome : ((mutexMachine 2).run Mutexes.twoTasks Mutexes.twoTasksRun).isSome = true := rfl
  obtain ⟨s, hrun⟩ := Option.isSome_iff_exists.mp hsome
  have hpossible : (mutexMachine 2).Guarded (fun s e => e.Possible s) Mutexes.twoTasks
      Mutexes.twoTasksRun := by decide +kernel
  exact ⟨s, hrun, (mutex_history 2 Mutexes.twoTasks_start hpossible hrun ()).1⟩

end WifiExpander
