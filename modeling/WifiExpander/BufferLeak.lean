import WifiExpander.Ownership

/-!
Is every buffer still reachable?

With `MsgPoolSize` 0 a post reaches the send task only while it waits. A type-0
entry is unlinked whatever becomes of its post, so its buffer is lost when the
send task is not waiting. As long as no such post is lost, and buffers are not
confused, every buffer can be accounted for.
-/

namespace WifiExpander

open WifiExpander.Theory

/-- The buffer is free, with a producer that will link it, on the send list, in
the message queue, or with the send task, which will recycle it. -/
def Sys.Accounted (s : Sys Tx) (b : BufId) : Prop :=
  b ∈ s.st.freeBufs ∨ (∃ t, s.WillLink t b) ∨ b ∈ s.st.linkedBufs ∨ b ∈ s.st.appUartSendMsg ∨
    s.st.sendTask.buf = some b ∧ (s.st.mem b).poll.type = 0 ∧ (s.st.mem b).poll.freeFlag ≠ 0

instance (s : Sys Tx) (b : BufId) : Decidable (s.Accounted b) :=
  inferInstanceAs (Decidable (_ ∨ _))

/-- A type-0 entry is posted only while the send task waits, or while it still
has that buffer in its hands. -/
def NoDrop (task : SendTask) (_queue : List BufId) (e : PollVerdict × BufId) : Prop :=
  e.1 = .release → task = .pending ∨ task.buf = some e.2

instance (task : SendTask) (queue : List BufId) (e : PollVerdict × BufId) :
    Decidable (NoDrop task queue e) :=
  inferInstanceAs (Decidable (_ → _))

namespace Pool

/-- The send task will recycle the buffer in its hands. -/
def WillRecycle (v : Pool) (b : BufId) : Prop :=
  v.sendTask.buf = some b ∧ (v.mem b).poll.type = 0 ∧ (v.mem b).poll.freeFlag ≠ 0

/-- Every buffer is somewhere from where it comes back. -/
structure Covered (v : Pool) (held : BufId → Prop) : Prop extends v.Separate held where
  noPool : v.msgPoolSize = 0
  noMsg : v.appUartSendMsg = []
  covered : ∀ b, b ∈ v.free ∨ b ∈ v.linked ∨ held b ∨ v.WillRecycle b

namespace Covered

variable {v w : Pool} {held : BufId → Prop} {b : BufId}

/-- An operation on one buffer leaves the others where they are. -/
theorem willRecycle_congr {c : BufId} (h : v.WillRecycle c)
    (htask : w.sendTask.buf = v.sendTask.buf) (hpoll : (w.mem c).poll = (v.mem c).poll) :
    w.WillRecycle c := by
  unfold WillRecycle at *
  rwa [htask, hpoll]

theorem congr (h : v.Covered held) (free : w.free = v.free) (linked : w.linked = v.linked)
    (noPool : w.msgPoolSize = v.msgPoolSize) (noMsg : w.appUartSendMsg = v.appUartSendMsg)
    (recycle : ∀ c, v.WillRecycle c → w.WillRecycle c) : w.Covered held where
  toSeparate := h.toSeparate.congr free linked
  noPool := noPool.trans h.noPool
  noMsg := noMsg.trans h.noMsg
  covered c := by
    rw [free, linked]
    exact (h.covered c).imp_right (.imp_right (.imp_right (recycle c)))

theorem take {rest : List BufId} (x : Static) (h : v.Covered held) (hfree : v.free = b :: rest) :
    (v.takeAt x b rest).Covered fun c => held c ∨ c = b where
  toSeparate := h.toSeparate.take hfree
  noPool := h.noPool
  noMsg := h.noMsg
  covered c := by
    have hpoll : ((v.takeAt x b rest).mem c).poll = (v.mem c).poll := by
      simp only [takeAt, Function.update_apply]
      split <;> simp_all
    rcases h.covered c with hc | hc | hc | hc
    · rw [hfree] at hc
      rcases List.mem_cons.mp hc with rfl | hc
      · exact .inr (.inr (.inl (.inr rfl)))
      · exact .inl hc
    · exact .inr (.inl hc)
    · exact .inr (.inr (.inl (.inl hc)))
    · exact .inr (.inr (.inr (willRecycle_congr hc rfl hpoll)))

theorem fill (call : Call) (h : v.Covered held) (hb : held b) : (v.fillAt call b).Covered held where
  toSeparate := h.toSeparate.congr rfl rfl
  noPool := h.noPool
  noMsg := h.noMsg
  covered c := by
    by_cases hcb : c = b
    · exact .inr (.inr (.inl (hcb ▸ hb)))
    · have hpoll : ((v.fillAt call b).mem c).poll = (v.mem c).poll := by
        simp [fillAt, SendVars.setMem, hcb]
      refine (h.covered c).imp_right (.imp_right (.imp_right fun hc => ?_))
      exact willRecycle_congr (v := v) hc rfl hpoll

theorem link (h : v.Covered held) (hb : held b) :
    (v.linkAt b).Covered fun c => held c ∧ c ≠ b where
  toSeparate := h.toSeparate.link hb
  noPool := h.noPool
  noMsg := h.noMsg
  covered c := by
    rcases h.covered c with hc | hc | hc | hc
    · exact .inl hc
    · exact .inr (.inl (List.mem_append_left _ hc))
    · by_cases hcb : c = b
      · exact .inr (.inl (by simp [linkAt, hcb]))
      · exact .inr (.inr (.inl ⟨hc, hcb⟩))
    · exact .inr (.inr (.inr hc))

/-- Without message elements a post either reaches the waiting task or changes
nothing but the log. -/
theorem osqPost_cases {s : SendVars} (hpool : s.msgPoolSize = 0) (b : BufId) :
    (s.sendTask = .pending ∧ (s.osqPost b).sendTask = .received b ∨
      s.sendTask ≠ .pending ∧ (s.osqPost b).sendTask = s.sendTask) ∧
    (s.osqPost b).appUartSendMsg = s.appUartSendMsg ∧
    (s.osqPost b).msgPoolSize = s.msgPoolSize := by
  by_cases hpend : s.sendTask = .pending
  · rw [SendVars.osqPost_pending s b hpend]
    exact ⟨.inl ⟨hpend, rfl⟩, rfl, rfl⟩
  · rw [SendVars.osqPost_noMsg s b hpool hpend]
    exact ⟨.inr ⟨hpend, rfl⟩, rfl, rfl⟩

/-- A post of an entry that stays on the list, after its counters changed. -/
theorem post (h : v.Covered held) (b : BufId) {p : UartPoll} (htype : p.type = (v.mem b).poll.type)
    (hflag : p.freeFlag = (v.mem b).poll.freeFlag) :
    (v.withVars ((v.setPoll b p).osqPost b)).Covered held := by
  obtain ⟨htask, hmsg, hpool⟩ := osqPost_cases (s := v.setPoll b p) h.noPool b
  refine h.congr rfl rfl hpool hmsg ?_
  intro c hc
  have hbuf : ((v.setPoll b p).osqPost b).sendTask.buf = v.sendTask.buf := by
    rcases htask with ⟨hpend, -⟩ | ⟨-, hsame⟩
    · have : v.sendTask = .pending := hpend
      simp [WillRecycle, this, SendTask.buf] at hc
    · rw [hsame]; rfl
  refine ⟨hbuf.trans hc.1, ?_⟩
  simp only [withVars_vars, SendVars.osqPost_mem, SendVars.setPoll_poll]
  split
  · rename_i hcb
    subst hcb
    rw [htype, hflag]
    exact hc.2
  · exact hc.2

theorem visit {l r : List BufId} (h : v.Covered held) (hl : v.linked = l ++ b :: r)
    (hP : NoDrop v.sendTask v.appUartSendMsg (pollVerdict (v.mem b).poll, b))
    (hw : v.pollStep (pollVerdict (v.mem b).poll, b) = some w) : w.Covered held := by
  have hmem : b ∈ v.linked := by simp [hl]
  have hsep : w.Separate held := h.toSeparate.of_pollStep hmem hw
  generalize hk : pollVerdict (v.mem b).poll = k at hw hP
  cases k with
  | skip => cases hw; exact h
  | wait =>
      obtain rfl := Option.some.inj hw
      refine h.congr rfl rfl rfl rfl fun c hc => ⟨hc.1, ?_⟩
      simp only [withVars_vars, SendVars.setPoll_poll]
      split
      · rename_i hcb
        exact hcb ▸ hc.2
      · exact hc.2
  | answered | expired =>
      obtain ⟨-, rfl⟩ := recycle_eq hw
      refine ⟨hsep, h.noPool, h.noMsg, ?_⟩
      intro c
      by_cases hcb : c = b
      · exact .inl (by simp [hcb])
      · rcases h.covered c with hc | hc | hc | hc
        · exact .inl (List.mem_append_left _ hc)
        · exact .inr (.inl ((List.mem_erase_of_ne hcb).mpr hc))
        · exact .inr (.inr (.inl hc))
        · refine .inr (.inr (.inr (willRecycle_congr hc rfl ?_)))
          simp [SendVars.setPoll_poll, hcb]
  | release =>
      obtain rfl := Option.some.inj hw
      have htype : (v.mem b).poll.type = 0 := pollVerdict_eq_release.mp hk
      obtain ⟨htask, hmsg, hpool⟩ := osqPost_cases
        (s := v.setPoll b { (v.mem b).poll with freeFlag := 1 }) h.noPool b
      refine ⟨hsep, hpool.trans h.noPool, hmsg.trans h.noMsg, ?_⟩
      intro c
      by_cases hcb : c = b
      · -- the post reached the send task, or the send task has the buffer already
        subst hcb
        refine .inr (.inr (.inr ⟨?_, ?_⟩))
        · rcases htask with ⟨-, hrecv⟩ | ⟨hnot, hsame⟩
          · simp [hrecv, SendTask.buf]
          · rcases hP rfl with hpend | hbuf
            · exact absurd hpend hnot
            · rw [withVars_vars, hsame]
              exact hbuf
        · simp [SendVars.setPoll_poll, htype]
      · rcases h.covered c with hc | hc | hc | hc
        · exact .inl hc
        · exact .inr (.inl ((List.mem_erase_of_ne hcb).mpr hc))
        · exact .inr (.inr (.inl hc))
        · refine .inr (.inr (.inr (willRecycle_congr hc ?_ ?_)))
          · rcases htask with ⟨hpend, -⟩ | ⟨-, hsame⟩
            · have : v.sendTask = .pending := hpend
              simp [WillRecycle, this, SendTask.buf] at hc
            · rw [withVars_vars, hsame]
              rfl
          · simp [SendVars.setPoll_poll, hcb]
  | first =>
      obtain rfl := Option.some.inj hw
      exact h.post b rfl rfl
  | again =>
      obtain rfl := Option.some.inj hw
      exact h.post b rfl rfl

theorem inspect (h : v.Covered held) (hfresh : v.Fresh held) (hw : v.sendInspect = some w) :
    w.Covered held := by
  obtain ⟨b, hb, hflag, htype, hfree, rfl⟩ | ⟨b, hb, hcond, rfl⟩ | rfl := sendInspect_cases hw
  · obtain ⟨-, hlinked, hheld⟩ := hfresh b hb hflag htype
    refine ⟨h.toSeparate.recycled hfree hlinked hheld rfl rfl, h.noPool, h.noMsg, ?_⟩
    intro c
    rcases h.covered c with hc | hc | hc | hc
    · exact .inl (List.mem_append_left _ hc)
    · exact .inr (.inl hc)
    · exact .inr (.inr (.inl hc))
    · obtain rfl : b = c := by simpa [WillRecycle, hb, SendTask.buf] using hc.1
      exact .inl (by simp)
  · refine ⟨h.toSeparate.congr rfl rfl, h.noPool, h.noMsg, ?_⟩
    intro c
    refine (h.covered c).imp_right (.imp_right (.imp_right fun hc => ?_))
    obtain rfl : b = c := by simpa [WillRecycle, hb, SendTask.buf] using hc.1
    exact absurd ⟨hc.2.2, hc.2.1⟩ hcond
  · exact h

theorem closed : Closed Covered NoDrop where
  separate h := h.toSeparate
  take x h hfree := h.take x hfree
  fill call h hb := h.fill call hb
  link h hb := h.link hb
  visit h hl _ hP _ hw := h.visit hl hP hw
  inspect h hfresh _ hw := h.inspect hfresh hw
  pend {v held} h := by
    refine h.congr rfl rfl ?_ ?_ fun c hc => willRecycle_congr hc ?_ (by simp)
    all_goals
      simp only [withVars_vars, SendVars.osqPend, h.noMsg]
      split <;> simp_all [SendTask.buf, h.noMsg]
  transmit {v held} h := by
    refine h.congr rfl rfl ?_ ?_ fun c hc => willRecycle_congr hc ?_ (by simp)
    all_goals
      simp only [withVars_vars, SendVars.appUsartTransmit]
      split <;> simp_all [SendTask.buf, SendVars.record]
  complete {v held} h := by
    refine h.congr rfl rfl ?_ ?_ fun c hc => willRecycle_congr hc ?_ (by simp)
    all_goals
      simp only [withVars_vars, SendVars.uartTxCallback]
      split <;> simp_all [SendTask.buf]
  answer {v held} sn h := by
    unfold markAnswered
    split
    · rename_i b _
      refine h.congr rfl rfl rfl rfl fun c hc => ⟨hc.1, ?_⟩
      simp only [withVars_vars, SendVars.setPoll_poll]
      split
      · rename_i hcb
        exact ⟨hcb ▸ hc.2.1, by simp⟩
      · exact hc.2
    · exact h
  otherMsgs {v held} n h := by
    refine h.congr rfl rfl ?_ ?_ fun c hc => willRecycle_congr hc ?_ (by simp)
    all_goals
      simp only [withVars_vars, SendVars.otherMsgs]
      split <;> rfl

theorem boot (mem : BufId → UartSendFormat) : (Pool.boot mem 0).Covered fun _ => False where
  toSeparate := Separate.boot mem 0
  noPool := rfl
  noMsg := rfl
  covered b := .inl (List.mem_finRange b)

end Covered

end Pool

/-- Where every event is clean and no type-0 post is dropped, the code runs on
and **every buffer is accounted for**. -/
theorem every_buffer_accounted (heap : Heap) (mem : BufId → UartSendFormat) (es : List Event)
    (guarded : Sys.GuardedFrom (fun s e => s.Clean NoDrop e) heap mem 0 es) :
    ∃ s, Sys.runFrom heap mem 0 es = some s ∧ ∀ b, s.Accounted b := by
  obtain ⟨s, v, hrun, hrep, hok⟩ := Sys.run_ok Pool.Covered.closed
    (fun _ _ _ hrep _ h => hrep.clean h) (Pool.Covered.boot mem) guarded
  refine ⟨s, hrun, ?_⟩
  intro b
  unfold Sys.Accounted
  rw [hrep.st.freeBufs, hrep.st.linkedBufs, hrep.st.vars]
  rcases hok.pool.covered b with hb | hb | ⟨t, ht⟩ | hb
  · exact .inl hb
  · exact .inr (.inr (.inl hb))
  · refine .inr (.inl ⟨t, hrep.holds.mpr ht, ?_⟩)
    have hbuf : (s.pc t).buf = some b := hrep.holds.mpr ht
    obtain ⟨c, hc⟩ : ∃ c, (s.pc t).call = some c := by
      cases hpc : s.pc t <;> simp_all [Pc.buf, Pc.call]
    have hstatic := hok.static t c (hrep.pc ▸ hc)
    rw [hc, Option.bind_some, hrep.vars]
    exact hstatic.trans (hrep.pc ▸ hbuf)
  · exact .inr (.inr (.inr (.inr hb)))

/-- The answers' buffers are free again, and the requests for data on the list. -/
theorem every_buffer_accounted_mixedReplies :
    ∃ s, Sys.runFrom Sys.blankHeap Sys.blankMem 0 Sys.mixedReplies = some s ∧
      SendOps.linkedBufs s.st = [0, 2] ∧ ∀ b, s.Accounted b := by
  obtain ⟨s, hrun, hlinked⟩ := Sys.exists_run 0 Sys.mixedReplies
    (fun s => decide (SendOps.linkedBufs s.st = [0, 2])) (by decide +kernel)
  obtain ⟨s', hrun', haccounted⟩ :=
    every_buffer_accounted Sys.blankHeap Sys.blankMem Sys.mixedReplies (by decide +kernel)
  obtain rfl : s = s' := Option.some.inj (hrun.symm.trans hrun')
  exact ⟨s, hrun, of_decide_eq_true hlinked, haccounted⟩

/-- The second answer is posted while the first one is on the wire: its buffer is
unlinked and nobody has it. -/
theorem second_reply_leaks :
    ¬ ∀ heap mem es s, Sys.runFrom heap mem 0 es = some s → ∀ b, s.Accounted b := by
  intro h
  obtain ⟨s, hrun, hleak⟩ := Sys.exists_run 0 Sys.twoReplies
    (fun s => decide (¬ s.Accounted 1)) (by decide +kernel)
  exact of_decide_eq_true hleak (h _ _ _ s hrun 1)

end WifiExpander
