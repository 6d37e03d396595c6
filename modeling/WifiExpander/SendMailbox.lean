import WifiExpander.KernelRuns
import WifiExpander.SendQueue

/-!
The message queue of the send path, against the kernel's.

`SendVars` keeps `app_uart_send_msg` as a list of buffers, the pool as a number
and the wait of `App_Uart_Send_Task` as a state of that task. Here the two run
side by side: the calls of the poll task and the send task on the kernel, and on
`SendVars`, while every other task uses the other queues as it likes. They stay
in step, so what is proved of the send path holds with the kernel's queue.
-/

namespace WifiExpander

open Theory

variable {κ τ : Type} [DecidableEq κ] [DecidableEq τ]

/-- A step of the send path that concerns its queue, or a call of another task -/
inductive SendCall (κ τ : Type) where
  /-- `OSQPost` of `App_Uart_Poll_Task` -/
  | post (b : BufId) (cmdLen : Nat)
  /-- `OSQPend` of `App_Uart_Send_Task`, and its return after a wait -/
  | pend
  | pendReturn
  | transmit
  | txCallback
  | inspect
  | elsewhere (e : QCall κ τ BufId)

/-- The call is not about queue `q` and not made by task `t`. -/
def QCall.Elsewhere (q : κ) (t : τ) : QCall κ τ BufId → Prop
  | .post q' _ _ _ => q' ≠ q
  | .pend q' t' _ _ => q' ≠ q ∧ t' ≠ t
  | .pendReturn t' => t' ≠ t
  | .flush q' => q' ≠ q
  | .pendAbort q' _ => q' ≠ q
  | .timeout t' => t' ≠ t

instance QCall.Elsewhere.decidable (q : κ) (t : τ) :
    ∀ e : QCall κ τ BufId, Decidable (e.Elsewhere q t)
  | .post q' _ _ _ => inferInstanceAs (Decidable (q' ≠ q))
  | .pend q' t' _ _ => inferInstanceAs (Decidable (q' ≠ q ∧ t' ≠ t))
  | .pendReturn t' => inferInstanceAs (Decidable (t' ≠ t))
  | .flush q' => inferInstanceAs (Decidable (q' ≠ q))
  | .pendAbort q' _ => inferInstanceAs (Decidable (q' ≠ q))
  | .timeout t' => inferInstanceAs (Decidable (t' ≠ t))

namespace SendVars

/-- `App_Uart_Send_Task` goes back to `OSQPend`. -/
def inspected (s : SendVars) : SendVars :=
  match s.sendTask with
  | .inspecting _ => { s with sendTask := .ready }
  | _ => s

/-- The buffers that the send task has had, in order -/
def handedOver (s : SendVars) : List BufId :=
  s.log.filterMap (fun
    | .transmitted b _ _ => some b
    | _ => none) ++
    match s.sendTask with
    | .received b => [b]
    | _ => []

end SendVars

/-- The kernel and the send path's variables -/
structure Mailbox (κ τ : Type) where
  kernel : Kernel (MsgQueues κ BufId) κ τ BufId
  vars : SendVars

namespace Mailbox

variable (q : κ) (t : τ)

/-- When the step can be taken: the send task calls `OSQPend` only when it is done
with a buffer, and goes on only after `OSQPend` has returned. -/
def Possible (s : Mailbox κ τ) : SendCall κ τ → Prop
  | .pend => s.vars.sendTask = .ready
  | .pendReturn => ∃ r, s.kernel.tasks.task t = .woken r
  | .transmit => s.kernel.tasks.task t = .rdy
  | .elsewhere e => e.Possible s.kernel ∧ e.Elsewhere q t
  | _ => True

instance Possible.decidable (s : Mailbox κ τ) : ∀ e : SendCall κ τ, Decidable (s.Possible q t e)
  | .pend => inferInstanceAs (Decidable (s.vars.sendTask = .ready))
  | .pendReturn => inferInstanceAs (Decidable ((QCall.pendReturn t).Possible s.kernel))
  | .transmit => inferInstanceAs (Decidable (s.kernel.tasks.task t = .rdy))
  | .elsewhere e => inferInstanceAs (Decidable (e.Possible s.kernel ∧ e.Elsewhere q t))
  | .post _ _ => isTrue trivial
  | .txCallback => isTrue trivial
  | .inspect => isTrue trivial

/-- The kernel's call, and what the send path makes of it -/
def machine (prio : τ → Nat) : Machine (Mailbox κ τ) (SendCall κ τ) where
  step s
    | .post b cmdLen => do
        let kernel ← s.kernel.osqPost msgStore q ⟨some b, cmdLen⟩ .fifo false
        some ⟨kernel, s.vars.osqPost b⟩
    | .pend => do
        let kernel ← s.kernel.osqPend msgStore prio q t false false
        some ⟨kernel, s.vars.osqPend⟩
    | .pendReturn => do
        let kernel ← s.kernel.osqPendReturn t
        some ⟨kernel, s.vars⟩
    | .transmit => some ⟨s.kernel, s.vars.appUsartTransmit⟩
    | .txCallback => some ⟨s.kernel, s.vars.uartTxCallback⟩
    | .inspect => some ⟨s.kernel, s.vars.inspected⟩
    | .elsewhere e => do
        let kernel ← (osqMachine msgStore prio).step s.kernel e
        some ⟨kernel, s.vars.otherMsgs (s.vars.msgPoolSize - s.vars.appUartSendMsg.length -
          kernel.store.mem.pool.nbrFree)⟩

end Mailbox

/-- The send path's variables describe the kernel's queue and task. -/
structure SendVars.Describes (q : κ) (t : τ) (v : SendVars)
    (a : Kernel (MsgSeqs κ BufId) κ τ BufId) : Prop where
  size : a.store.size q = appUartSendMsgSize
  entries : (a.store.entries q).map Msg.pVoid = v.appUartSendMsg.map some
  nbrFree : a.store.nbrFree = v.nbrFree
  room : v.msgElsewhere + v.appUartSendMsg.length ≤ v.msgPoolSize
  waits : a.tasks.pendList q = if v.sendTask = .pending then [t] else []
  task : match v.sendTask with
    | .pending => a.tasks.task t = .pend q
    | .received b => a.tasks.task t = .rdy ∨ ∃ n, a.tasks.task t = .woken (.msg ⟨some b, n⟩)
    | _ => a.tasks.task t = .rdy
  handed : (QObs.takenBy t a.tasks.log).map Msg.pVoid = v.handedOver.map some

/-! ### Calls elsewhere -/

/-- What queue `q` and task `t` see of the tasks is the same. -/
structure Tasks.Same (q : κ) (t : τ) (k k' : Tasks κ τ BufId) : Prop where
  pendList : k'.pendList q = k.pendList q
  task : k'.task t = k.task t
  taken : QObs.takenBy t k'.log = QObs.takenBy t k.log

namespace Tasks

variable {q : κ} {t u : τ} {k k' : Tasks κ τ BufId}

omit [DecidableEq κ] in
theorem Same.refl (q : κ) (t : τ) (k : Tasks κ τ BufId) : k.Same q t k := ⟨rfl, rfl, rfl⟩

omit [DecidableEq κ] in
theorem Same.trans {k'' : Tasks κ τ BufId} (h : k.Same q t k') (h' : k'.Same q t k'') :
    k.Same q t k'' :=
  ⟨h'.pendList.trans h.pendList, h'.task.trans h.task, h'.taken.trans h.taken⟩

omit [DecidableEq κ] in
theorem same_record {obs : List (QObs κ τ BufId)} (h : QObs.takenBy t obs = []) :
    k.Same q t (k.record obs) :=
  ⟨rfl, rfl, by simp [record, h]⟩

/-- A task that neither is `t` nor waits for `q` is readied. -/
theorem same_wake (hut : u ≠ t) (hu : k.task u ≠ .pend q) (r : PendResult BufId) :
    k.Same q t (k.wake u r) := by
  cases hk : k.task u with
  | rdy => simpa only [wake, hk] using Same.refl q t k
  | woken r' => simpa only [wake, hk] using Same.refl q t k
  | pend p =>
      have hqp : q ≠ p := by
        rintro rfl
        exact hu hk
      rw [wake_of_pend hk]
      exact ⟨by simp [hqp], by simp [Ne.symm hut], rfl⟩

theorem same_osPost (hut : u ≠ t) (hu : k.task u ≠ .pend q) (p : κ) (v : Msg BufId) :
    k.Same q t (k.osPost p v u) := by
  unfold osPost
  cases k.task u with
  | rdy => exact Same.refl q t k
  | woken r => exact Same.refl q t k
  | pend p' => exact (same_wake hut hu _).trans (same_record (by simp [QObs.takenBy, hut]))

/-- No other task starts to wait when one is readied. -/
theorem task_wake_ne {w : τ} (hw : k.task w ≠ .pend q) (r : PendResult BufId) :
    (k.wake u r).task w ≠ .pend q := by
  cases hk : k.task u with
  | rdy => simpa only [wake, hk] using hw
  | woken r' => simpa only [wake, hk] using hw
  | pend p =>
      rw [wake_of_pend hk]
      by_cases hwu : w = u
      · simp [hwu]
      · simpa [hwu] using hw

theorem task_osPost_ne {w : τ} (hw : k.task w ≠ .pend q) (p : κ) (v : Msg BufId) :
    (k.osPost p v u).task w ≠ .pend q := by
  unfold osPost
  cases k.task u with
  | rdy => exact hw
  | woken r => exact hw
  | pend p' => exact task_wake_ne hw _

omit [DecidableEq κ] in
theorem same_foldl {f : Tasks κ τ BufId → τ → Tasks κ τ BufId}
    (same : ∀ (k : Tasks κ τ BufId) u, u ≠ t → k.task u ≠ .pend q → k.Same q t (f k u))
    (keep : ∀ (k : Tasks κ τ BufId) u w, k.task w ≠ .pend q → (f k u).task w ≠ .pend q)
    (us : List τ) (hus : ∀ u ∈ us, u ≠ t ∧ k.task u ≠ .pend q) : k.Same q t (us.foldl f k) := by
  induction us generalizing k with
  | nil => exact Same.refl q t k
  | cons u us ih =>
      obtain ⟨hut, hu⟩ := hus u List.mem_cons_self
      apply (same k u hut hu).trans
      apply ih
      intro w hw
      obtain ⟨hwt, hw'⟩ := hus w (List.mem_cons_of_mem u hw)
      exact ⟨hwt, keep k u w hw'⟩

end Tasks

/-- A call of another task about another queue. -/
theorem Kernel.Inv.same_of_elsewhere {prio : τ → Nat} {sizes : κ → Nat} {fifo : κ → Prop}
    {q : κ} {t : τ} {a a' : Kernel (MsgSeqs κ BufId) κ τ BufId} {e : QCall κ τ BufId}
    (h : a.Inv prio sizes fifo) (htask : ∀ p, a.tasks.task t = .pend p → p = q)
    (hwaits : ∀ u, a.tasks.task u = .pend q → u = t) (he : e.Elsewhere q t)
    (hstep : (osqMachine seqStore prio).step a e = some a') :
    a.tasks.Same q t a'.tasks ∧ a'.store.size = a.store.size ∧
      a'.store.entries q = a.store.entries q := by
  have hlisted : ∀ p, p ≠ q → ∀ u ∈ a.tasks.pendList p, u ≠ t ∧ a.tasks.task u ≠ .pend q := by
    intro p hp u hu
    rw [h.listed.waiting] at hu
    constructor
    · rintro rfl
      exact hp (htask p hu)
    · rw [hu]
      simpa using hp
  cases e with
  | post p v opt all =>
      simp only [osqMachine, Kernel.osqPost] at hstep
      cases hlist : a.tasks.pendList p with
      | nil =>
          simp only [hlist, seqStore, MsgSeqs.put, Option.bind_eq_bind, Option.bind_some] at hstep
          have hrefused : ∀ err, a.tasks.Same q t (a.tasks.record [.refused p v err]) :=
            fun err => Tasks.same_record rfl
          by_cases hfull : (a.store.entries p).length ≥ a.store.size p
          · simp only [if_pos hfull, Option.some.injEq] at hstep
            subst hstep
            exact ⟨hrefused _, rfl, rfl⟩
          · simp only [if_neg hfull] at hstep
            by_cases hnone : a.store.nbrFree = 0
            · simp only [if_pos hnone, Option.some.injEq] at hstep
              subst hstep
              exact ⟨hrefused _, rfl, rfl⟩
            · simp only [if_neg hnone, Option.some.injEq] at hstep
              subst hstep
              exact ⟨Tasks.same_record rfl, rfl, by simp [Ne.symm he]⟩
      | cons u us =>
          have hus := hlisted p he
          rw [hlist] at hus
          simp only [hlist] at hstep
          cases all with
          | true =>
              simp only [if_true, Option.some.injEq] at hstep
              subst hstep
              refine ⟨?_, rfl, rfl⟩
              exact Tasks.same_foldl (fun k u hut hu => Tasks.same_osPost hut hu p v)
                (fun k u w hw => Tasks.task_osPost_ne hw p v) (u :: us) hus
          | false =>
              simp only [Bool.false_eq_true, if_false, Option.some.injEq] at hstep
              subst hstep
              obtain ⟨hut, hu⟩ := hus u List.mem_cons_self
              exact ⟨Tasks.same_osPost hut hu p v, rfl, rfl⟩
  | pend p u nonBlocking locked =>
      obtain ⟨hpq, hut⟩ := he
      have hother : ∀ obs : List (QObs κ τ BufId), QObs.takenBy t obs = [] →
          a.tasks.Same q t (a.tasks.record obs) := fun obs => Tasks.same_record
      simp only [osqMachine, Kernel.osqPend, seqStore, MsgSeqs.get, Option.bind_eq_bind,
        Option.bind_some] at hstep
      cases hentries : a.store.entries p with
      | cons v vs =>
          simp only [hentries, Option.some.injEq] at hstep
          subst hstep
          exact ⟨hother _ (by simp [QObs.takenBy, hut]), rfl, by simp [Ne.symm hpq]⟩
      | nil =>
          simp only [hentries] at hstep
          cases nonBlocking with
          | true =>
              simp only [if_true, Option.some.injEq] at hstep
              subst hstep
              exact ⟨hother _ rfl, rfl, rfl⟩
          | false =>
              cases locked with
              | true =>
                  simp only [Bool.false_eq_true, if_false, if_true, Option.some.injEq] at hstep
                  subst hstep
                  exact ⟨hother _ rfl, rfl, rfl⟩
              | false =>
                  simp only [Bool.false_eq_true, if_false, Option.some.injEq] at hstep
                  subst hstep
                  exact ⟨⟨by simp [Tasks.osPend, Ne.symm hpq], by simp [Tasks.osPend, Ne.symm hut],
                    rfl⟩, rfl, rfl⟩
  | pendReturn u =>
      simp only [osqMachine, Kernel.osqPendReturn] at hstep
      cases hu : a.tasks.task u with
      | rdy => simp only [hu, reduceCtorEq] at hstep
      | pend p => simp only [hu, reduceCtorEq] at hstep
      | woken r =>
          simp only [hu, Option.some.injEq] at hstep
          subst hstep
          exact ⟨⟨rfl, by simp [Tasks.record, Ne.symm he], by simp [Tasks.record, QObs.takenBy]⟩,
            rfl, rfl⟩
  | flush p =>
      simp only [osqMachine, Kernel.osqFlush, seqStore, MsgSeqs.freeAll, Option.bind_eq_bind,
        Option.bind_some, Option.some.injEq] at hstep
      subst hstep
      exact ⟨Tasks.Same.refl q t _, rfl, by simp [Ne.symm he]⟩
  | pendAbort p all =>
      simp only [osqMachine, Kernel.osqPendAbort, Option.some.injEq] at hstep
      have hus := hlisted p he
      cases hlist : a.tasks.pendList p with
      | nil =>
          simp only [hlist] at hstep
          subst hstep
          exact ⟨Tasks.Same.refl q t _, rfl, rfl⟩
      | cons u us =>
          rw [hlist] at hus
          simp only [hlist] at hstep
          subst hstep
          cases all with
          | true =>
              refine ⟨?_, rfl, rfl⟩
              exact Tasks.same_foldl (fun k u hut hu => Tasks.same_wake hut hu .abort)
                (fun k u w hw => Tasks.task_wake_ne hw .abort) (u :: us) hus
          | false =>
              obtain ⟨hut, hu⟩ := hus u List.mem_cons_self
              exact ⟨Tasks.same_wake hut hu .abort, rfl, rfl⟩
  | timeout u =>
      simp only [osqMachine, Option.some.injEq] at hstep
      subst hstep
      exact ⟨Tasks.same_wake he (fun hu => he (hwaits u hu)) .timeout, rfl, rfl⟩

/-! ### The send path's own steps -/

/-- A post while the send task does not wait. -/
theorem SendVars.osqPost_of_ne {v : SendVars} (hsend : v.sendTask ≠ .pending) (b : BufId) :
    v.osqPost b =
      match osMsgQPut appUartSendMsgSize v.nbrFree v.appUartSendMsg b with
      | .ok entries =>
          { v.record (.posted b (v.mem b).poll.type (v.mem b).frame) with
            appUartSendMsg := entries }
      | .error _ => v.record (.posted b (v.mem b).poll.type (v.mem b).frame) := by
  unfold SendVars.osqPost
  exact if_neg hsend

namespace SendVars.Describes

variable {prio : τ → Nat} {sizes : κ → Nat} {fifo : κ → Prop} {q : κ} {t : τ} {v : SendVars}
  {a a' : Kernel (MsgSeqs κ BufId) κ τ BufId}

section

omit [DecidableEq κ]

theorem length_entries (h : v.Describes q t a) :
    (a.store.entries q).length = v.appUartSendMsg.length := by
  have hlen := congrArg List.length h.entries
  simpa using hlen

theorem pend_eq (h : v.Describes q t a) {p : κ} (hp : a.tasks.task t = .pend p) : p = q := by
  have htask := h.task
  cases hsend : v.sendTask with
  | pending =>
      simp only [hsend] at htask
      exact TaskState.pend.inj (hp.symm.trans htask)
  | received b =>
      simp only [hsend] at htask
      rcases htask with htask | ⟨n, htask⟩
      · cases hp.symm.trans htask
      · cases hp.symm.trans htask
  | ready => simp only [hsend] at htask; cases hp.symm.trans htask
  | transmitting b => simp only [hsend] at htask; cases hp.symm.trans htask
  | inspecting b => simp only [hsend] at htask; cases hp.symm.trans htask

theorem waits_eq (h : v.Describes q t a) (listed : a.tasks.Listed prio) {u : τ}
    (hu : a.tasks.task u = .pend q) : u = t := by
  rw [← listed.waiting, h.waits] at hu
  by_cases hsend : v.sendTask = .pending
  · rw [if_pos hsend] at hu
    exact List.mem_singleton.mp hu
  · rw [if_neg hsend] at hu
    cases hu

/-- A wait of the send task is over. -/
theorem osqPendReturn (h : v.Describes q t a) {r : PendResult BufId}
    (hr : a.tasks.task t = .woken r) :
    ∃ a', a.osqPendReturn t = some a' ∧ v.Describes q t a' := by
  have htask := h.task
  unfold Kernel.osqPendReturn
  simp only [hr]
  refine ⟨_, rfl, h.size, h.entries, h.nbrFree, h.room, h.waits, ?_, ?_⟩
  · cases hsend : v.sendTask with
    | received b => exact .inl (by simp [Tasks.record])
    | ready => simp [Tasks.record]
    | transmitting b => simp [Tasks.record]
    | inspecting b => simp [Tasks.record]
    | pending =>
        simp only [hsend, hr, reduceCtorEq] at htask
  · simpa [Tasks.record, QObs.takenBy] using h.handed

/-- The send task goes on with its buffer. -/
theorem appUsartTransmit (h : v.Describes q t a) (ht : a.tasks.task t = .rdy) :
    v.appUsartTransmit.Describes q t a := by
  unfold SendVars.appUsartTransmit
  cases hsend : v.sendTask with
  | received b =>
      refine ⟨h.size, h.entries, h.nbrFree, h.room, ?_, ht, ?_⟩
      · simpa [hsend] using h.waits
      · have hhanded := h.handed
        simpa [SendVars.handedOver, SendVars.record, hsend] using hhanded
  | ready => exact h
  | pending => exact h
  | transmitting b => exact h
  | inspecting b => exact h

theorem uartTxCallback (h : v.Describes q t a) : v.uartTxCallback.Describes q t a := by
  have htask := h.task
  unfold SendVars.uartTxCallback
  cases hsend : v.sendTask with
  | transmitting b =>
      simp only [hsend] at htask
      refine ⟨h.size, h.entries, h.nbrFree, h.room, ?_, htask, ?_⟩
      · simpa [hsend] using h.waits
      · simpa [SendVars.handedOver, hsend] using h.handed
  | ready => exact h
  | pending => exact h
  | received b => exact h
  | inspecting b => exact h

theorem inspected (h : v.Describes q t a) : v.inspected.Describes q t a := by
  have htask := h.task
  unfold SendVars.inspected
  cases hsend : v.sendTask with
  | inspecting b =>
      simp only [hsend] at htask
      refine ⟨h.size, h.entries, h.nbrFree, h.room, ?_, htask, ?_⟩
      · simpa [hsend] using h.waits
      · simpa [SendVars.handedOver, hsend] using h.handed
  | ready => exact h
  | pending => exact h
  | received b => exact h
  | transmitting b => exact h

/-- Other tasks have used other queues. -/
theorem otherMsgs (h : v.Describes q t a) (same : a.tasks.Same q t a'.tasks)
    (hsize : a'.store.size = a.store.size) (hentries : a'.store.entries q = a.store.entries q)
    (hroom : a'.store.nbrFree + v.appUartSendMsg.length ≤ v.msgPoolSize) :
    (v.otherMsgs (v.msgPoolSize - v.appUartSendMsg.length - a'.store.nbrFree)).Describes q t
      a' := by
  unfold SendVars.otherMsgs
  rw [if_pos (by omega)]
  refine ⟨?_, ?_, ?_, ?_, ?_, ?_, ?_⟩
  · rw [hsize]
    exact h.size
  · rw [hentries]
    exact h.entries
  · simp only [SendVars.nbrFree]
    omega
  · simp only
    omega
  · rw [same.pendList]
    exact h.waits
  · simp only [same.task]
    exact h.task
  · rw [same.taken]
    exact h.handed

end

/-- A post by the poll task. -/
theorem osqPost (h : v.Describes q t a) (b : BufId) (cmdLen : Nat) :
    ∃ a', a.osqPost seqStore q ⟨some b, cmdLen⟩ .fifo false = some a' ∧
      (v.osqPost b).Describes q t a' := by
  have htask := h.task
  have hwaits := h.waits
  have hhanded := h.handed
  unfold Kernel.osqPost
  by_cases hsend : v.sendTask = .pending
  · -- to the waiting task
    simp only [hsend] at htask
    rw [if_pos hsend] at hwaits
    have hhad : v.handedOver = v.log.filterMap (fun
        | .transmitted b _ _ => some b
        | _ => none) := by
      simp [SendVars.handedOver, hsend]
    rw [hhad] at hhanded
    simp only [hwaits, Bool.false_eq_true, if_false]
    refine ⟨_, rfl, ?_⟩
    simp only [SendVars.osqPost, SendVars.record, hsend, if_true]
    unfold Tasks.osPost
    simp only [htask, Tasks.wake_of_pend htask]
    constructor
    · exact h.size
    · exact h.entries
    · exact h.nbrFree
    · exact h.room
    · simp [Tasks.record, hwaits]
    · exact .inr ⟨cmdLen, by simp [Tasks.record]⟩
    · simp [Tasks.record, QObs.takenBy, SendVars.handedOver] at hhanded ⊢
      exact hhanded
  · -- into the queue
    rw [if_neg hsend] at hwaits
    have hlen := h.length_entries
    have hsame : ∀ obs, v.handedOver = (v.record (.posted b obs (v.mem b).frame)).handedOver := by
      intro obs
      simp [SendVars.handedOver, SendVars.record]
    have hkept : ∀ obs : QObs κ τ BufId, QObs.takenBy t [obs] = [] →
        QObs.takenBy t (a.tasks.record [obs]).log = QObs.takenBy t a.tasks.log := by
      intro obs hobs
      simp [Tasks.record, hobs]
    simp only [hwaits, seqStore, MsgSeqs.put, hlen, h.size, h.nbrFree, Option.bind_eq_bind,
      Option.bind_some]
    rw [SendVars.osqPost_of_ne hsend, osMsgQPut]
    by_cases hfull : v.appUartSendMsg.length ≥ appUartSendMsgSize
    · simp only [if_pos hfull]
      refine ⟨_, rfl, h.size, h.entries, h.nbrFree, h.room, h.waits, h.task, ?_⟩
      rw [hkept _ rfl, ← hsame]
      exact hhanded
    · simp only [if_neg hfull]
      by_cases hnone : v.nbrFree = 0
      · simp only [if_pos hnone]
        refine ⟨_, rfl, h.size, h.entries, h.nbrFree, h.room, h.waits, h.task, ?_⟩
        rw [hkept _ rfl, ← hsame]
        exact hhanded
      · simp only [if_neg hnone]
        simp only [SendVars.nbrFree] at hnone
        refine ⟨_, rfl, h.size, ?_, ?_, ?_, h.waits, h.task, ?_⟩
        · simpa [MsgSeqs.putEntry] using h.entries
        · simp [SendVars.nbrFree, SendVars.record]
          omega
        · simp [SendVars.record]
          omega
        · rw [hkept _ rfl]
          exact hhanded.trans (congrArg (List.map some) (hsame _))

/-- The send task asks for the next message. -/
theorem osqPend (h : v.Describes q t a) (prio : τ → Nat) (hready : v.sendTask = .ready) :
    ∃ a', a.osqPend seqStore prio q t false false = some a' ∧ v.osqPend.Describes q t a' := by
  have htask := h.task
  have hwaits := h.waits
  have hhanded := h.handed
  have hentries := h.entries
  simp only [hready] at htask
  rw [if_neg (by simp [hready])] at hwaits
  unfold Kernel.osqPend SendVars.osqPend
  simp only [seqStore, MsgSeqs.get, Option.bind_eq_bind, Option.bind_some, hready]
  cases hmsg : v.appUartSendMsg with
  | nil =>
      have hnil : a.store.entries q = [] := by simpa [hmsg] using hentries
      simp only [hnil, Bool.false_eq_true, if_false]
      refine ⟨_, rfl, h.size, ?_, ?_, ?_, ?_, ?_, ?_⟩
      · simp [hnil]
      · simpa [SendVars.nbrFree, hmsg] using h.nbrFree
      · simpa [hmsg] using h.room
      · simp [Tasks.osPend, hwaits, osPendListInsertPrio]
      · simp [Tasks.osPend]
      · simpa [Tasks.osPend, SendVars.handedOver, hready] using hhanded
  | cons b bs =>
      rw [hmsg, List.map_cons] at hentries
      obtain ⟨m, ms, hm, hb, hbs⟩ := List.map_eq_cons_iff.mp hentries
      have hroom := h.room
      have hfree := h.nbrFree
      rw [hmsg, List.length_cons] at hroom
      simp only [hm]
      refine ⟨_, rfl, h.size, ?_, ?_, ?_, ?_, ?_, ?_⟩
      · simpa using hbs
      · simp only [SendVars.nbrFree, hmsg, List.length_cons] at hfree ⊢
        omega
      · simp
        omega
      · simpa [Tasks.record] using hwaits
      · exact .inl htask
      · simp [Tasks.record, QObs.takenBy, SendVars.handedOver, hready, hb] at hhanded ⊢
        exact hhanded

end SendVars.Describes

/-! ### Runs -/

namespace Mailbox

variable {q : κ} {t : τ} {prio : τ → Nat} {sizes : κ → Nat} {size : Nat}

/-- The kernel's memory stands for sequences that the send path's variables describe. -/
structure Agrees (q : κ) (t : τ) (prio : τ → Nat) (sizes : κ → Nat) (size : Nat)
    (s : Mailbox κ τ) (a : Kernel (MsgSeqs κ BufId) κ τ BufId) : Prop where
  rep : Kernel.Rep size s.kernel a
  inv : a.Inv prio sizes fun _ => False
  describes : s.vars.Describes q t a
  poolSize : s.vars.msgPoolSize = size

/-- A call on the sequences, made by the kernel on its memory. -/
private theorem Agrees.call {s : Mailbox κ τ} {a a' : Kernel (MsgSeqs κ BufId) κ τ BufId}
    {v : SendVars} {e : QCall κ τ BufId} (h : s.Agrees q t prio sizes size a)
    (hstep : (osqMachine seqStore prio).step a e = some a')
    (hkeeps : e.Keeps (fun _ => False) a) (hv : v.Describes q t a')
    (hpool : v.msgPoolSize = s.vars.msgPoolSize) :
    ∃ kernel, (osqMachine msgStore prio).step s.kernel e = some kernel ∧
      Agrees q t prio sizes size ⟨kernel, v⟩ a' := by
  obtain ⟨kernel, hkernel, hrep⟩ := h.rep.step hstep
  obtain ⟨a'', ha'', hinv⟩ := h.inv.step hkeeps
  obtain rfl := Option.some.inj (hstep.symm.trans ha'')
  exact ⟨kernel, hkernel, hrep, hinv, hv, hpool.trans h.poolSize⟩

omit [DecidableEq κ] [DecidableEq τ] in
theorem msgPoolSize_osqPost (v : SendVars) (b : BufId) :
    (v.osqPost b).msgPoolSize = v.msgPoolSize := by
  by_cases hsend : v.sendTask = .pending
  · simp [SendVars.osqPost, SendVars.record, hsend]
  · rw [SendVars.osqPost_of_ne hsend]
    cases osMsgQPut appUartSendMsgSize v.nbrFree v.appUartSendMsg b with
    | ok entries => rfl
    | error err => rfl

omit [DecidableEq κ] [DecidableEq τ] in
theorem msgPoolSize_osqPend (v : SendVars) : v.osqPend.msgPoolSize = v.msgPoolSize := by
  unfold SendVars.osqPend
  cases v.sendTask with
  | ready => cases v.appUartSendMsg <;> rfl
  | _ => rfl

/-- Each step keeps the two sides together. -/
theorem Agrees.step {s : Mailbox κ τ} {a : Kernel (MsgSeqs κ BufId) κ τ BufId}
    (h : s.Agrees q t prio sizes size a) {e : SendCall κ τ} (he : s.Possible q t e) :
    ∃ s', (machine q t prio).step s e = some s' ∧ ∃ a', s'.Agrees q t prio sizes size a' := by
  obtain ⟨htasks, nodes, hrep⟩ := h.rep
  have hno : ∀ e : QCall κ τ BufId, e.Possible a → e.Keeps (fun _ => False) a :=
    fun e he => ⟨he, fun q hq => hq.elim⟩
  cases e with
  | post b cmdLen =>
      obtain ⟨a', ha', hdescribes⟩ := h.describes.osqPost b cmdLen
      obtain ⟨kernel, hkernel, hagrees⟩ := h.call (e := .post q ⟨some b, cmdLen⟩ .fifo false)
        ha' (hno _ trivial) hdescribes (msgPoolSize_osqPost s.vars b)
      simp only [osqMachine] at hkernel
      exact ⟨_, by simp only [machine, hkernel]; rfl, a', hagrees⟩
  | pend =>
      obtain ⟨a', ha', hdescribes⟩ := h.describes.osqPend prio he
      have hrdy : a.tasks.task t = .rdy := by
        have htask := h.describes.task
        simp only [Possible] at he
        simpa only [he] using htask
      obtain ⟨kernel, hkernel, hagrees⟩ := h.call (e := .pend q t false false)
        ha' (hno _ hrdy) hdescribes (msgPoolSize_osqPend s.vars)
      simp only [osqMachine] at hkernel
      exact ⟨_, by simp only [machine, hkernel]; rfl, a', hagrees⟩
  | pendReturn =>
      obtain ⟨r, hr⟩ := he
      rw [htasks] at hr
      obtain ⟨a', ha', hdescribes⟩ := h.describes.osqPendReturn hr
      obtain ⟨kernel, hkernel, hagrees⟩ := h.call (e := .pendReturn t)
        ha' (hno _ ⟨r, hr⟩) hdescribes rfl
      simp only [osqMachine] at hkernel
      exact ⟨_, by simp only [machine, hkernel]; rfl, a', hagrees⟩
  | transmit =>
      simp only [Possible, htasks] at he
      refine ⟨_, rfl, a, h.rep, h.inv, h.describes.appUsartTransmit he, ?_⟩
      unfold SendVars.appUsartTransmit
      cases s.vars.sendTask <;> exact h.poolSize
  | txCallback =>
      refine ⟨_, rfl, a, h.rep, h.inv, h.describes.uartTxCallback, ?_⟩
      unfold SendVars.uartTxCallback
      cases s.vars.sendTask <;> exact h.poolSize
  | inspect =>
      refine ⟨_, rfl, a, h.rep, h.inv, h.describes.inspected, ?_⟩
      unfold SendVars.inspected
      cases s.vars.sendTask <;> exact h.poolSize
  | elsewhere e =>
      obtain ⟨hpossible, helsewhere⟩ := he
      have hpossible' : e.Possible a := by
        cases e with
        | pend p u nonBlocking locked =>
            simp only [QCall.Possible] at hpossible ⊢
            rwa [← htasks]
        | pendReturn u =>
            simp only [QCall.Possible] at hpossible ⊢
            rwa [← htasks]
        | _ => trivial
      obtain ⟨a', ha', hinv⟩ := h.inv.step (hno e hpossible')
      obtain ⟨kernel, hkernel, htasks', nodes', hrep'⟩ := h.rep.step ha'
      obtain ⟨hsame, hsize, hentries⟩ := h.inv.same_of_elsewhere
        (fun p hp => h.describes.pend_eq hp) (fun u hu => h.describes.waits_eq h.inv.listed hu)
        helsewhere ha'
      have hroom : a'.store.nbrFree + s.vars.appUartSendMsg.length ≤ s.vars.msgPoolSize := by
        have hused := hrep'.nbrEntries_le_nbrUsed q
        have htotal := hrep'.total
        rw [hrep'.length_entries, hentries, h.describes.length_entries] at hused
        rw [hrep'.free] at htotal
        have hpool := h.poolSize
        omega
      have hdescribes := h.describes.otherMsgs hsame hsize hentries hroom
      rw [← hrep'.free] at hdescribes
      refine ⟨_, by simp only [machine, hkernel]; rfl, a', ⟨htasks', nodes', hrep'⟩, hinv,
        hdescribes, ?_⟩
      unfold SendVars.otherMsgs
      have hpool := h.poolSize
      split
      · exact hpool
      · exact hpool

/-- The send path and the kernel as they start -/
def boot (sizes : κ → Nat) (size : Nat) (m : MsgMem BufId) (mem : BufId → UartSendFormat) :
    Mailbox κ τ :=
  ⟨Kernel.boot (MsgQueues.boot sizes size m), (Pool.boot mem size).toSendVars⟩

theorem Agrees.boot (hq : sizes q = appUartSendMsgSize) (size : Nat) (m : MsgMem BufId)
    (mem : BufId → UartSendFormat) :
    (Mailbox.boot sizes size m mem : Mailbox κ τ).Agrees q t prio sizes size
      (Kernel.boot (MsgSeqs.empty sizes size)) := by
  constructor
  · exact ⟨rfl, poolNodes size, MsgRep.boot sizes size m⟩
  · exact Kernel.Inv.boot prio sizes _ size
  · constructor
    · exact hq
    · rfl
    · rfl
    · exact Nat.zero_le size
    · rfl
    · rfl
    · rfl
  · rfl

end Mailbox

/-- **The send path's queue is the kernel's.** However the poll task posts, the
send task runs and other tasks use other queues, the list that the send path
keeps is what the kernel's memory holds, its number of free elements that of
`OSMsgPool`, it waits when the kernel says so, and the buffers it transmitted or
is about to are those that `OSQPost` and `OSQPend` gave its task, in order. -/
theorem send_queue_of_kernel {q : κ} {t : τ} {prio : τ → Nat} {sizes : κ → Nat}
    (hq : sizes q = appUartSendMsgSize) (size : Nat) (m : MsgMem BufId)
    (mem : BufId → UartSendFormat) (es : List (SendCall κ τ))
    (guarded : (Mailbox.machine q t prio).Guarded (fun s e => s.Possible q t e)
      (Mailbox.boot sizes size m mem) es) :
    ∃ s, (Mailbox.machine q t prio).run (Mailbox.boot sizes size m mem) es = some s ∧
      (s.kernel.store.contents q).map Msg.pVoid = s.vars.appUartSendMsg.map some ∧
      s.kernel.store.mem.pool.nbrFree = s.vars.nbrFree ∧
      (s.kernel.tasks.task t = .pend q ↔ s.vars.sendTask = .pending) ∧
      (QObs.takenBy t s.kernel.tasks.log).map Msg.pVoid = s.vars.handedOver.map some := by
  obtain ⟨s, hrun, a, h⟩ := Machine.run_progress
    (fun s => ∃ a, s.Agrees q t prio sizes size a)
    (fun s e ⟨a, h⟩ he => h.step he) ⟨_, Mailbox.Agrees.boot hq size m mem⟩ guarded
  obtain ⟨htasks, nodes, hrep⟩ := h.rep
  refine ⟨s, hrun, ?_, ?_, ?_, ?_⟩
  · rw [hrep.contents_eq]
    exact h.describes.entries
  · rw [hrep.free]
    exact h.describes.nbrFree
  · rw [htasks, ← h.inv.listed.waiting, h.describes.waits]
    by_cases hsend : s.vars.sendTask = .pending
    · simp [hsend]
    · simp [hsend]
  · rw [htasks]
    exact h.describes.handed

/-- A post to the waiting send task, two more while it transmits, one of them refused. -/
def sendCalls : List (SendCall Bool Bool) :=
  [.pend, .post 0 9, .pendReturn, .transmit, .elsewhere (.post true ⟨none, 2⟩ .fifo false),
    .post 1 9, .post 2 9, .txCallback, .inspect, .pend, .transmit]

theorem send_queue_of_kernel_two :
    ∃ s, (Mailbox.machine false false fun _ : Bool => 0).run
        (Mailbox.boot (fun _ => appUartSendMsgSize) 2 ⟨fun _ => ⟨none, none, 0⟩, ⟨none, 0, 0⟩⟩
          fun _ => ⟨none, .zero, fun _ => 0, 0⟩) sendCalls = some s ∧
      (s.kernel.store.contents false).map Msg.pVoid = s.vars.appUartSendMsg.map some ∧
      s.kernel.store.mem.pool.nbrFree = s.vars.nbrFree ∧
      (s.kernel.tasks.task false = .pend false ↔ s.vars.sendTask = .pending) ∧
      (QObs.takenBy false s.kernel.tasks.log).map Msg.pVoid = s.vars.handedOver.map some :=
  send_queue_of_kernel (by rfl) 2 _ _ sendCalls (by decide +kernel)

end WifiExpander
