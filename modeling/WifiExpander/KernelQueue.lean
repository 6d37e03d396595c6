import WifiExpander.MsgQueue
import WifiExpander.Theory.Machine

/-!
Posting to and pending on message queues, as `os_q.c` computes it.

A task that pends on an empty queue goes on the queue's pend list, by priority;
a message posted to a queue with a waiting task is put into the task's control
block and never enters the queue. Each call is one critical section. The message
queues themselves are a parameter: the memory of `os_msg.c`, or the sequences
they stand for.

Suspended tasks and the deletion of queues are not modelled.
-/

namespace WifiExpander

open Theory

variable {σ κ τ α : Type}

/-- What `os_q.c` uses of the queues' messages. -/
structure MsgStore (σ κ α : Type) where
  put : PostOrder → Msg α → κ → σ → Option (Except RtosErr Unit × σ)
  get : κ → σ → Option (Option (Msg α) × σ)
  freeAll : κ → σ → Option (Nat × σ)

/-- What a call of `OSQPend` returns. -/
inductive PendResult (α : Type) where
  | msg (v : Msg α)
  | wouldBlock
  | schedLocked
  | abort
  | timeout
deriving DecidableEq

/-- `TaskState` of a task, with the `PendObjPtr` it waits for or, until `OSQPend`
returns, the `PendStatus` and `MsgPtr` it was readied with. -/
inductive TaskState (κ α : Type) where
  | rdy
  | pend (q : κ)
  | woken (r : PendResult α)
deriving DecidableEq

def TaskState.isWoken : TaskState κ α → Bool
  | .woken _ => true
  | _ => false

inductive QObs (κ τ α : Type) where
  /-- The message was accepted: by the queue or by a waiting task. -/
  | posted (q : κ) (v : Msg α)
  | refused (q : κ) (v : Msg α) (err : RtosErr)
  /-- The message left the queue for the task. -/
  | received (q : κ) (t : τ) (v : Msg α)
  /-- `OSQPend` returned. -/
  | returned (t : τ) (r : PendResult α)
deriving DecidableEq

/-- The tasks and the pend list of each queue -/
structure Tasks (κ τ α : Type) where
  pendList : κ → List τ
  task : τ → TaskState κ α
  log : List (QObs κ τ α)

/-- `OS_PendListInsertPrio`: before the first task of lower priority -/
def osPendListInsertPrio (prio : τ → Nat) (t : τ) : List τ → List τ
  | [] => [t]
  | u :: us => if prio t < prio u then t :: u :: us else u :: osPendListInsertPrio prio t us

namespace Tasks

variable [DecidableEq κ] [DecidableEq τ]

def record (k : Tasks κ τ α) (obs : List (QObs κ τ α)) : Tasks κ τ α :=
  { k with log := k.log ++ obs }

/-- A waiting task is taken off its pend list and readied. -/
def wake (t : τ) (r : PendResult α) (k : Tasks κ τ α) : Tasks κ τ α :=
  match k.task t with
  | .pend q =>
      { k with
        pendList := Function.update k.pendList q ((k.pendList q).erase t)
        task := Function.update k.task t (.woken r) }
  | _ => k

/-- `OS_Post`, which does nothing for a task that does not wait -/
def osPost (q : κ) (v : Msg α) (t : τ) (k : Tasks κ τ α) : Tasks κ τ α :=
  match k.task t with
  | .pend _ => (k.wake t (.msg v)).record [.posted q v, .received q t v]
  | _ => k

/-- `OS_Pend` -/
def osPend (prio : τ → Nat) (q : κ) (t : τ) (k : Tasks κ τ α) : Tasks κ τ α :=
  { k with
    pendList := Function.update k.pendList q (osPendListInsertPrio prio t (k.pendList q))
    task := Function.update k.task t (.pend q) }

end Tasks

/-- The queues and the tasks -/
structure Kernel (σ κ τ α : Type) where
  store : σ
  tasks : Tasks κ τ α

namespace Kernel

variable [DecidableEq κ] [DecidableEq τ] (S : MsgStore σ κ α)

/-- `OSQPost`; `all` is `OS_OPT_POST_ALL`. -/
def osqPost (q : κ) (v : Msg α) (opt : PostOrder) (all : Bool) (k : Kernel σ κ τ α) :
    Option (Kernel σ κ τ α) :=
  match k.tasks.pendList q with
  | [] => do
      let (r, store) ← S.put opt v q k.store
      match r with
      | .ok () => some ⟨store, k.tasks.record [.posted q v]⟩
      | .error err => some ⟨store, k.tasks.record [.refused q v err]⟩
  | t :: ts =>
      if all then some ⟨k.store, (t :: ts).foldl (fun k t => k.osPost q v t) k.tasks⟩
      else some ⟨k.store, k.tasks.osPost q v t⟩

/-- `OSQPend` until it returns or blocks; `locked` is `OSSchedLockNestingCtr > 0`. -/
def osqPend (prio : τ → Nat) (q : κ) (t : τ) (nonBlocking locked : Bool)
    (k : Kernel σ κ τ α) : Option (Kernel σ κ τ α) := do
  let (r, store) ← S.get q k.store
  match r with
  | some v => some ⟨store, k.tasks.record [.received q t v, .returned t (.msg v)]⟩
  | none =>
      if nonBlocking then some ⟨store, k.tasks.record [.returned t .wouldBlock]⟩
      else if locked then some ⟨store, k.tasks.record [.returned t .schedLocked]⟩
      else some ⟨store, k.tasks.osPend prio q t⟩

/-- The rest of `OSQPend`, when the task runs again -/
def osqPendReturn (t : τ) (k : Kernel σ κ τ α) : Option (Kernel σ κ τ α) :=
  match k.tasks.task t with
  | .woken r =>
      some ⟨k.store,
        { k.tasks with task := Function.update k.tasks.task t .rdy }.record [.returned t r]⟩
  | _ => none

/-- `OSQFlush` -/
def osqFlush (q : κ) (k : Kernel σ κ τ α) : Option (Kernel σ κ τ α) := do
  let (_, store) ← S.freeAll q k.store
  some ⟨store, k.tasks⟩

/-- `OSQPendAbort`; `all` is `opt == OS_OPT_PEND_ABORT_ALL`. -/
def osqPendAbort (q : κ) (all : Bool) (k : Kernel σ κ τ α) : Kernel σ κ τ α :=
  match k.tasks.pendList q with
  | [] => k
  | t :: ts =>
      if all then ⟨k.store, (t :: ts).foldl (fun k t => k.wake t .abort) k.tasks⟩
      else ⟨k.store, k.tasks.wake t .abort⟩

end Kernel

/-- The calls, and the timeout that the tick task finds -/
inductive QCall (κ τ α : Type) where
  | post (q : κ) (v : Msg α) (opt : PostOrder) (all : Bool)
  | pend (q : κ) (t : τ) (nonBlocking locked : Bool)
  | pendReturn (t : τ)
  | flush (q : κ)
  | pendAbort (q : κ) (all : Bool)
  | timeout (t : τ)

namespace QCall

/-- The call can be made: it is made by a task that runs. -/
def Possible (k : Kernel σ κ τ α) : QCall κ τ α → Prop
  | .pend _ t _ _ => k.tasks.task t = .rdy
  | .pendReturn t => ∃ r, k.tasks.task t = .woken r
  | _ => True

/-- The call keeps queue `q` first in, first out. -/
def Fifo (q : κ) : QCall κ τ α → Prop
  | .post q' _ opt _ => q' = q → opt = .fifo
  | .flush q' => q' ≠ q
  | _ => True

end QCall

namespace QCall

instance Possible.decidable [DecidableEq κ] [DecidableEq α] (k : Kernel σ κ τ α) :
    ∀ e : QCall κ τ α, Decidable (e.Possible k)
  | .pend _ t _ _ => inferInstanceAs (Decidable (k.tasks.task t = .rdy))
  | .pendReturn t =>
      decidable_of_iff ((k.tasks.task t).isWoken = true) (by
        cases h : k.tasks.task t <;> simp [Possible, TaskState.isWoken, h])
  | .post _ _ _ _ => isTrue trivial
  | .flush _ => isTrue trivial
  | .pendAbort _ _ => isTrue trivial
  | .timeout _ => isTrue trivial

instance Fifo.decidable [DecidableEq κ] (q : κ) : ∀ e : QCall κ τ α, Decidable (e.Fifo q)
  | .post q' _ opt _ => inferInstanceAs (Decidable (q' = q → opt = .fifo))
  | .flush q' => inferInstanceAs (Decidable (q' ≠ q))
  | .pend _ _ _ _ => isTrue trivial
  | .pendReturn _ => isTrue trivial
  | .pendAbort _ _ => isTrue trivial
  | .timeout _ => isTrue trivial

end QCall

/-- The message queues with the tasks that use them -/
def osqMachine [DecidableEq κ] [DecidableEq τ] (S : MsgStore σ κ α) (prio : τ → Nat) :
    Machine (Kernel σ κ τ α) (QCall κ τ α) where
  step k
    | .post q v opt all => k.osqPost S q v opt all
    | .pend q t nonBlocking locked => k.osqPend S prio q t nonBlocking locked
    | .pendReturn t => k.osqPendReturn t
    | .flush q => k.osqFlush S q
    | .pendAbort q all => some (k.osqPendAbort q all)
    | .timeout t => some ⟨k.store, k.tasks.wake t .timeout⟩

/-! ### The two stores -/

/-- The elements, the pool and the `MsgQ` of each queue -/
structure MsgQueues (κ α : Type) where
  mem : MsgMem α
  msgQ : κ → OsMsgQ

section Stores

variable [DecidableEq κ]

/-- A call for queue `q` on the memory -/
def MsgQueues.call {β : Type} (f : OsMsgQ → MsgMem α → Option (β × OsMsgQ × MsgMem α)) (q : κ)
    (s : MsgQueues κ α) : Option (β × MsgQueues κ α) := do
  let (r, mq, mem) ← f (s.msgQ q) s.mem
  some (r, ⟨mem, Function.update s.msgQ q mq⟩)

/-- `os_msg.c` -/
def msgStore : MsgStore (MsgQueues κ α) κ α where
  put opt v q s := s.call (fun mq m => m.osMsgQPut opt v mq) q
  get q s := s.call (fun mq m => m.osMsgQGet mq) q
  freeAll q s := s.call (fun mq m => m.osMsgQFreeAll mq) q

def seqStore : MsgStore (MsgSeqs κ α) κ α where
  put opt v q s := some (s.put opt v q)
  get q s := some (s.get q)
  freeAll q s := some (s.freeAll q)

end Stores

/-! ### The history of a queue -/

namespace QObs

variable [DecidableEq κ] [DecidableEq τ]

/-- The messages that were accepted for queue `q`, in order -/
def accepted (q : κ) (log : List (QObs κ τ α)) : List (Msg α) :=
  log.filterMap fun
    | .posted q' v => if q' = q then some v else none
    | _ => none

/-- The messages that left queue `q` for a task, in order -/
def taken (q : κ) (log : List (QObs κ τ α)) : List (Msg α) :=
  log.filterMap fun
    | .received q' _ v => if q' = q then some v else none
    | _ => none

/-- The messages that left any queue for task `t` -/
def takenBy (t : τ) (log : List (QObs κ τ α)) : List (Msg α) :=
  log.filterMap fun
    | .received _ t' v => if t' = t then some v else none
    | _ => none

/-- The messages that calls of `OSQPend` returned to task `t` -/
def returnedTo (t : τ) (log : List (QObs κ τ α)) : List (Msg α) :=
  log.filterMap fun
    | .returned t' (.msg v) => if t' = t then some v else none
    | _ => none

omit [DecidableEq τ] in
@[simp] theorem accepted_append (q : κ) (log log' : List (QObs κ τ α)) :
    accepted q (log ++ log') = accepted q log ++ accepted q log' :=
  List.filterMap_append

omit [DecidableEq τ] in
@[simp] theorem taken_append (q : κ) (log log' : List (QObs κ τ α)) :
    taken q (log ++ log') = taken q log ++ taken q log' :=
  List.filterMap_append

omit [DecidableEq κ] in
@[simp] theorem takenBy_append (t : τ) (log log' : List (QObs κ τ α)) :
    takenBy t (log ++ log') = takenBy t log ++ takenBy t log' :=
  List.filterMap_append

omit [DecidableEq κ] in
@[simp] theorem returnedTo_append (t : τ) (log log' : List (QObs κ τ α)) :
    returnedTo t (log ++ log') = returnedTo t log ++ returnedTo t log' :=
  List.filterMap_append

end QObs

/-- The message a task was readied with. -/
def TaskState.message : TaskState κ α → List (Msg α)
  | .woken (.msg v) => [v]
  | _ => []

/-! ### The pend lists -/

section PendList

variable {prio : τ → Nat} {t u : τ} {ts : List τ}

theorem perm_osPendListInsertPrio (prio : τ → Nat) (t : τ) (ts : List τ) :
    (osPendListInsertPrio prio t ts).Perm (t :: ts) := by
  induction ts with
  | nil => exact List.Perm.refl _
  | cons u us ih =>
      rw [osPendListInsertPrio]
      by_cases hprio : prio t < prio u
      · rw [if_pos hprio]
      · rw [if_neg hprio]
        exact (ih.cons u).trans (List.Perm.swap t u us)

/-- The first waiting task has the highest priority, equal ones in order of arrival. -/
theorem pairwise_osPendListInsertPrio (h : ts.Pairwise fun a b => prio a ≤ prio b) (t : τ) :
    (osPendListInsertPrio prio t ts).Pairwise fun a b => prio a ≤ prio b := by
  induction ts with
  | nil => exact List.pairwise_singleton _ t
  | cons u us ih =>
      rw [List.pairwise_cons] at h
      rw [osPendListInsertPrio]
      by_cases hprio : prio t < prio u
      · rw [if_pos hprio, List.pairwise_cons]
        constructor
        · intro b hb
          rcases List.mem_cons.mp hb with rfl | hb
          · exact Nat.le_of_lt hprio
          · exact (Nat.le_of_lt hprio).trans (h.1 b hb)
        · exact List.pairwise_cons.mpr h
      · rw [if_neg hprio, List.pairwise_cons]
        constructor
        · intro b hb
          rw [(perm_osPendListInsertPrio prio t us).mem_iff, List.mem_cons] at hb
          rcases hb with rfl | hb
          · exact Nat.le_of_not_lt hprio
          · exact h.1 b hb
        · exact ih h.2

end PendList

variable [DecidableEq κ] [DecidableEq τ]

/-- The pend lists hold the waiting tasks, by priority. -/
structure Tasks.Listed (prio : τ → Nat) (k : Tasks κ τ α) : Prop where
  waiting : ∀ q t, t ∈ k.pendList q ↔ k.task t = .pend q
  nodup : ∀ q, (k.pendList q).Nodup
  sorted : ∀ q, (k.pendList q).Pairwise fun a b => prio a ≤ prio b

namespace Tasks

variable {prio : τ → Nat} {k : Tasks κ τ α} {q : κ} {t : τ} {v : Msg α} {r : PendResult α}

omit [DecidableEq κ] [DecidableEq τ] in
theorem Listed.record (h : k.Listed prio) (obs : List (QObs κ τ α)) :
    (k.record obs).Listed prio :=
  ⟨h.waiting, h.nodup, h.sorted⟩

theorem wake_of_pend (h : k.task t = .pend q) (r : PendResult α) :
    k.wake t r =
      { k with
        pendList := Function.update k.pendList q ((k.pendList q).erase t)
        task := Function.update k.task t (.woken r) } := by
  simp only [wake, h]

theorem Listed.wake (h : k.Listed prio) (t : τ) (r : PendResult α) :
    (k.wake t r).Listed prio := by
  cases ht : k.task t with
  | rdy => simpa only [Tasks.wake, ht] using h
  | woken r' => simpa only [Tasks.wake, ht] using h
  | pend q =>
      rw [wake_of_pend ht]
      constructor
      · intro q' u
        by_cases hq : q' = q
        · subst hq
          simp only [Function.update_self]
          rw [(h.nodup q').mem_erase_iff]
          by_cases hu : u = t
          · subst hu
            simp
          · simpa [hu] using h.waiting q' u
        · simp only [Function.update_of_ne hq]
          by_cases hu : u = t
          · subst hu
            rw [h.waiting, ht]
            simp [Ne.symm hq]
          · simpa [hu] using h.waiting q' u
      · intro q'
        by_cases hq : q' = q
        · subst hq
          simp only [Function.update_self]
          exact (h.nodup q').erase t
        · simp only [Function.update_of_ne hq]
          exact h.nodup q'
      · intro q'
        by_cases hq : q' = q
        · subst hq
          simp only [Function.update_self]
          exact (h.sorted q').sublist List.erase_sublist
        · simp only [Function.update_of_ne hq]
          exact h.sorted q'

theorem Listed.osPost (h : k.Listed prio) (q : κ) (v : Msg α) (t : τ) :
    (k.osPost q v t).Listed prio := by
  unfold Tasks.osPost
  cases k.task t with
  | rdy => exact h
  | woken r => exact h
  | pend q' => exact (h.wake t _).record _

theorem Listed.osPend (h : k.Listed prio) (ht : k.task t = .rdy) (q : κ) :
    (k.osPend prio q t).Listed prio := by
  have hnot : ∀ q, t ∉ k.pendList q := by
    intro q' hmem
    rw [h.waiting, ht] at hmem
    cases hmem
  constructor
  · intro q' u
    by_cases hq : q' = q
    · subst hq
      simp only [Tasks.osPend, Function.update_self]
      rw [(perm_osPendListInsertPrio prio t _).mem_iff, List.mem_cons]
      by_cases hu : u = t
      · subst hu
        simp
      · simpa [hu] using h.waiting q' u
    · simp only [Tasks.osPend, Function.update_of_ne hq]
      by_cases hu : u = t
      · subst hu
        simp [hnot q', Ne.symm hq]
      · simpa [hu] using h.waiting q' u
  · intro q'
    by_cases hq : q' = q
    · subst hq
      simp only [Tasks.osPend, Function.update_self]
      rw [(perm_osPendListInsertPrio prio t _).nodup_iff]
      exact List.nodup_cons.mpr ⟨hnot q', h.nodup q'⟩
    · simp only [Tasks.osPend, Function.update_of_ne hq]
      exact h.nodup q'
  · intro q'
    by_cases hq : q' = q
    · subst hq
      simp only [Tasks.osPend, Function.update_self]
      exact pairwise_osPendListInsertPrio (h.sorted q') t
    · simp only [Tasks.osPend, Function.update_of_ne hq]
      exact h.sorted q'

end Tasks

/-! ### What a queue does with its messages -/

/-- The laws of the queues with `entries` in them. -/
structure Tasks.Lawful (fifo : κ → Prop) (entries : κ → List (Msg α)) (k : Tasks κ τ α) :
    Prop where
  /-- A task waits on an empty queue only. -/
  idle : ∀ q, k.pendList q ≠ [] → entries q = []
  /-- No message is made up, and none leaves the queue twice. -/
  once : ∀ q, (QObs.taken q k.log ++ entries q).Subperm (QObs.accepted q k.log)
  inOrder : ∀ q, fifo q → QObs.accepted q k.log = QObs.taken q k.log ++ entries q
  /-- Each task gets from `OSQPend` what left a queue for it. -/
  handed : ∀ t, QObs.takenBy t k.log = QObs.returnedTo t k.log ++ (k.task t).message

namespace Tasks.Lawful

variable {fifo : κ → Prop} {entries : κ → List (Msg α)} {k : Tasks κ τ α} {q : κ} {t : τ}
  {v : Msg α} {r : PendResult α}

/-- Observations that concern no message. -/
theorem record_other (h : k.Lawful fifo entries) {obs : List (QObs κ τ α)}
    (ha : ∀ q, QObs.accepted q obs = []) (ht : ∀ q, QObs.taken q obs = [])
    (hb : ∀ t, QObs.takenBy t obs = []) (hr : ∀ t, QObs.returnedTo t obs = []) :
    (k.record obs).Lawful fifo entries := by
  constructor
  · exact h.idle
  · intro q
    simpa [Tasks.record, ha, ht] using h.once q
  · intro q hq
    simpa [Tasks.record, ha, ht] using h.inOrder q hq
  · intro t
    simpa [Tasks.record, hb, hr] using h.handed t

/-- A task readied without a message. -/
theorem wake (h : k.Lawful fifo entries) (t : τ)
    (hr : (TaskState.woken r : TaskState κ α).message = []) : (k.wake t r).Lawful fifo entries := by
  cases ht : k.task t with
  | rdy => simpa only [Tasks.wake, ht] using h
  | woken r' => simpa only [Tasks.wake, ht] using h
  | pend q =>
      rw [wake_of_pend ht]
      constructor
      · intro q' hne
        by_cases hq : q' = q
        · subst hq
          apply h.idle
          rintro hnil
          simp [hnil] at hne
        · exact h.idle q' (by simpa [hq] using hne)
      · exact h.once
      · exact h.inOrder
      · intro u
        have hu := h.handed u
        by_cases hut : u = t
        · subst hut
          simp only [Function.update_self]
          rw [hr]
          simpa [ht, TaskState.message] using hu
        · simpa [hut] using hu

/-- A message put into the control block of a task that waits for `q`. -/
theorem osPost (h : k.Lawful fifo entries) (hempty : entries q = []) (v : Msg α)
    (ht : ∀ q', k.task t = .pend q' → q' = q) : (k.osPost q v t).Lawful fifo entries := by
  unfold Tasks.osPost
  cases hpend : k.task t with
  | rdy => exact h
  | woken r => exact h
  | pend q' =>
      obtain rfl := ht q' hpend
      change ((k.wake t (.msg v)).record [.posted q' v, .received q' t v]).Lawful fifo entries
      rw [wake_of_pend hpend]
      constructor
      · intro p hne
        by_cases hp : p = q'
        · rw [hp, hempty]
        · exact h.idle p (by simpa [Tasks.record, hp] using hne)
      · intro p
        by_cases hp : p = q'
        · subst hp
          have honce := h.once p
          rw [hempty, List.append_nil] at honce
          simpa [Tasks.record, QObs.accepted, QObs.taken, hempty] using
            (List.subperm_append_right [v]).mpr honce
        · simpa [Tasks.record, QObs.accepted, QObs.taken, Ne.symm hp] using h.once p
      · intro p hfifo
        by_cases hp : p = q'
        · subst hp
          have horder := h.inOrder p hfifo
          simpa [Tasks.record, QObs.accepted, QObs.taken, hempty] using horder
        · simpa [Tasks.record, QObs.accepted, QObs.taken, Ne.symm hp] using h.inOrder p hfifo
      · intro u
        have hu := h.handed u
        by_cases hut : u = t
        · subst hut
          rw [hpend] at hu
          simpa [Tasks.record, QObs.takenBy, QObs.returnedTo, TaskState.message] using hu
        · simpa [Tasks.record, QObs.takenBy, QObs.returnedTo, hut, Ne.symm hut] using hu

/-- A message put into the queue, on which no task waits. -/
theorem put (h : k.Lawful fifo entries) {opt : PostOrder} (hfifo : fifo q → opt = .fifo)
    (hnone : k.pendList q = []) (v : Msg α) :
    (k.record [.posted q v]).Lawful fifo
      (Function.update entries q (MsgSeqs.putEntry opt v (entries q))) := by
  constructor
  · intro p hne
    by_cases hp : p = q
    · subst hp
      exact absurd hnone hne
    · simpa [hp] using h.idle p hne
  · intro p
    by_cases hp : p = q
    · subst hp
      have honce := (List.subperm_append_right [v]).mpr (h.once p)
      have hperm : (QObs.taken p k.log ++ MsgSeqs.putEntry opt v (entries p)).Perm
          (QObs.taken p k.log ++ entries p ++ [v]) := by
        rw [List.append_assoc]
        apply List.Perm.append_left
        cases opt with
        | fifo => exact List.Perm.refl _
        | lifo => exact (List.perm_append_singleton v (entries p)).symm
      simpa [Tasks.record, QObs.accepted, QObs.taken] using hperm.subperm_right.mpr honce
    · simpa [Tasks.record, QObs.accepted, QObs.taken, hp, Ne.symm hp] using h.once p
  · intro p hp
    by_cases hpq : p = q
    · subst hpq
      have horder := h.inOrder p hp
      simp [Tasks.record, QObs.accepted, QObs.taken, hfifo hp, MsgSeqs.putEntry] at horder ⊢
      simp [horder]
    · simpa [Tasks.record, QObs.accepted, QObs.taken, hpq, Ne.symm hpq] using h.inOrder p hp
  · intro u
    simpa [Tasks.record, QObs.takenBy, QObs.returnedTo] using h.handed u

/-- A message taken out of the queue by a call that returns at once. -/
theorem get (h : k.Lawful fifo entries) {vs : List (Msg α)} (hq : entries q = v :: vs)
    (ht : k.task t = .rdy) :
    (k.record [.received q t v, .returned t (.msg v)]).Lawful fifo
      (Function.update entries q vs) := by
  constructor
  · intro p hne
    by_cases hp : p = q
    · subst hp
      have := h.idle p hne
      rw [hq] at this
      cases this
    · simpa [hp] using h.idle p hne
  · intro p
    by_cases hp : p = q
    · subst hp
      simpa [Tasks.record, QObs.accepted, QObs.taken, hq] using h.once p
    · simpa [Tasks.record, QObs.accepted, QObs.taken, hp, Ne.symm hp] using h.once p
  · intro p hfifo
    by_cases hp : p = q
    · subst hp
      simpa [Tasks.record, QObs.accepted, QObs.taken, hq] using h.inOrder p hfifo
    · simpa [Tasks.record, QObs.accepted, QObs.taken, hp, Ne.symm hp] using h.inOrder p hfifo
  · intro u
    have hu := h.handed u
    by_cases hut : u = t
    · subst hut
      rw [ht] at hu
      simpa [Tasks.record, QObs.takenBy, QObs.returnedTo, ht, TaskState.message] using hu
    · simpa [Tasks.record, QObs.takenBy, QObs.returnedTo, Ne.symm hut] using hu

/-- A task goes on the pend list of an empty queue. -/
theorem osPend (h : k.Lawful fifo entries) (prio : τ → Nat) (hq : entries q = [])
    (ht : k.task t = .rdy) : (k.osPend prio q t).Lawful fifo entries := by
  constructor
  · intro p hne
    by_cases hp : p = q
    · rw [hp, hq]
    · exact h.idle p (by simpa [Tasks.osPend, hp] using hne)
  · exact h.once
  · exact h.inOrder
  · intro u
    have hu := h.handed u
    by_cases hut : u = t
    · subst hut
      rw [ht] at hu
      simpa [Tasks.osPend, TaskState.message] using hu
    · simpa [Tasks.osPend, hut] using hu

/-- `OSQPend` returns to the task what it was readied with. -/
theorem pendReturn (h : k.Lawful fifo entries) (ht : k.task t = .woken r) :
    ({ k with task := Function.update k.task t .rdy }.record [.returned t r]).Lawful fifo
      entries := by
  constructor
  · exact h.idle
  · intro q
    simpa [Tasks.record, QObs.accepted, QObs.taken] using h.once q
  · intro q hq
    simpa [Tasks.record, QObs.accepted, QObs.taken] using h.inOrder q hq
  · intro u
    have hu := h.handed u
    by_cases hut : u = t
    · subst hut
      rw [ht] at hu
      cases r <;> simpa [Tasks.record, QObs.takenBy, QObs.returnedTo, TaskState.message] using hu
    · cases r <;>
        simpa [Tasks.record, QObs.takenBy, QObs.returnedTo, hut, Ne.symm hut] using hu

/-- The messages of a queue are thrown away. -/
theorem flush (h : k.Lawful fifo entries) (hfifo : ¬ fifo q) :
    k.Lawful fifo (Function.update entries q []) := by
  constructor
  · intro p hne
    by_cases hp : p = q
    · simp [hp]
    · simpa [hp] using h.idle p hne
  · intro p
    by_cases hp : p = q
    · subst hp
      rw [Function.update_self, List.append_nil]
      exact (List.sublist_append_left _ (entries p)).subperm.trans (h.once p)
    · simpa [hp] using h.once p
  · intro p hp
    have hpq : p ≠ q := by
      rintro rfl
      exact hfifo hp
    simpa [hpq] using h.inOrder p hp
  · exact h.handed

end Tasks.Lawful

end WifiExpander
