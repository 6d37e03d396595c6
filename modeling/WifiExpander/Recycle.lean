import WifiExpander.Ownership

/-!
Is a recycled buffer still in use?

A polled entry is on the send list and with the send task at the same time. The
poll task recycles it when it is answered or has been posted three times,
whether or not the send task is done with it. Where it never does so while the
buffer is posted or in the send task's hands, a free buffer is in use nowhere,
whatever becomes of each post.
-/

namespace WifiExpander

open WifiExpander.Theory

/-- No free buffer is on the send list, in the message queue or with the send
task, and none is free twice. -/
def Sys.NoReuse (s : Sys Tx) : Prop :=
  s.st.freeBufs.Nodup ∧ ∀ b ∈ s.st.freeBufs,
    b ∉ s.st.linkedBufs ∧ b ∉ s.st.appUartSendMsg ∧ s.st.sendTask.buf ≠ some b

instance (s : Sys Tx) : Decidable s.NoReuse := inferInstanceAs (Decidable (_ ∧ _))

/-- The poll task retires no entry whose buffer is posted or with the send task. -/
def RetiresIdle (task : SendTask) (queue : List BufId) (e : PollVerdict × BufId) : Prop :=
  e.1 = .answered ∨ e.1 = .expired → task.buf ≠ some e.2 ∧ e.2 ∉ queue

instance (task : SendTask) (queue : List BufId) (e : PollVerdict × BufId) :
    Decidable (RetiresIdle task queue e) :=
  inferInstanceAs (Decidable (_ → _))

/-- A post adds the buffer to those in flight, or is lost. -/
theorem SendVars.osqPost_inFlight (s : SendVars) (b : BufId) :
    (s.osqPost b).inFlight = s.inFlight ∨ (s.osqPost b).inFlight.Perm (b :: s.inFlight) := by
  unfold osqPost
  dsimp only
  split
  · rename_i hpend
    have hpend' : s.sendTask = .pending := hpend
    exact .inr (by simp [inFlight, SendTask.buf, hpend', record])
  · split
    · rename_i entries hput
      have hentries : entries = s.appUartSendMsg ++ [b] := by
        unfold osMsgQPut at hput
        split at hput
        · cases hput
        · split at hput
          · cases hput
          · exact (Except.ok.inj hput).symm
      refine .inr ?_
      simp only [inFlight, record, hentries]
      rw [← List.append_assoc]
      exact List.perm_append_singleton b _
    · exact .inl rfl

namespace Pool

structure InUse (v : Pool) (held : BufId → Prop) : Prop extends v.Separate held where
  apart : ∀ b ∈ v.inFlight, b ∉ v.free ∧ ¬ held b
  polled : ∀ b ∈ v.inFlight, b ∈ v.linked → (v.mem b).poll.type ≠ 0
  once : ∀ b ∈ v.inFlight, b ∉ v.linked → v.inFlight.count b = 1

namespace InUse

variable {v w : Pool} {held : BufId → Prop} {b : BufId}

theorem mem_inFlight : b ∈ v.inFlight ↔ v.sendTask.buf = some b ∨ b ∈ v.appUartSendMsg := by
  simp [SendVars.inFlight, Option.mem_toList]

/-- What the send task recycles is nowhere else. -/
theorem fresh (h : v.InUse held) : v.Fresh held := by
  intro b htask _ htype
  have hb : b ∈ v.inFlight := mem_inFlight.mpr (.inl (by rw [htask]; rfl))
  exact ⟨(h.apart b hb).1, fun hl => h.polled b hb hl htype, (h.apart b hb).2⟩

theorem congr (h : v.InUse held) (free : w.free = v.free) (linked : w.linked = v.linked)
    (flight : w.inFlight = v.inFlight)
    (type : ∀ c ∈ v.inFlight, (w.mem c).poll.type = (v.mem c).poll.type) : w.InUse held := by
  refine ⟨h.toSeparate.congr free linked, ?_, ?_, ?_⟩
  · rw [free, flight]
    exact h.apart
  · rw [linked, flight]
    intro c hc hl
    rw [type c hc]
    exact h.polled c hc hl
  · rw [linked, flight]
    exact h.once

theorem take {rest : List BufId} (x : Static) (h : v.InUse held) (hfree : v.free = b :: rest) :
    (v.takeAt x b rest).InUse fun c => held c ∨ c = b := by
  have hne : ∀ c ∈ v.inFlight, c ≠ b := by
    rintro c hc rfl
    exact (h.apart c hc).1 (by rw [hfree]; exact List.mem_cons_self)
  refine ⟨h.toSeparate.take hfree, fun c hc => ⟨?_, ?_⟩, ?_, h.once⟩
  · intro hr
    exact (h.apart c hc).1 (by rw [hfree]; exact List.mem_cons_of_mem _ hr)
  · exact fun hh => hh.elim (h.apart c hc).2 (hne c hc)
  · intro c hc hl
    simpa [takeAt, hne c hc] using h.polled c hc hl

theorem fill (call : Call) (h : v.InUse held) (hb : held b) : (v.fillAt call b).InUse held := by
  refine h.congr rfl rfl rfl ?_
  intro c hc
  have hcb : c ≠ b := fun heq => (h.apart c hc).2 (heq ▸ hb)
  simp [fillAt, SendVars.setMem, hcb]

theorem link (h : v.InUse held) (hb : held b) : (v.linkAt b).InUse fun c => held c ∧ c ≠ b := by
  have hne : ∀ c ∈ v.inFlight, c ≠ b := fun c hc heq => (h.apart c hc).2 (heq ▸ hb)
  refine ⟨h.toSeparate.link hb, fun c hc => ⟨(h.apart c hc).1, fun hh => (h.apart c hc).2 hh.1⟩,
    fun c hc hl => h.polled c hc ?_, fun c hc hl => h.once c hc fun hmem => hl ?_⟩
  · simpa [linkAt, hne c hc] using hl
  · exact List.mem_append_left _ hmem

/-- A post of a linked entry, which may be unlinked with it. -/
theorem post (h : v.InUse held) (hsep : w.Separate held) (hb : b ∈ v.linked) {s : SendVars}
    (hvars : w.toSendVars = s.osqPost b) (hflight : s.inFlight = v.inFlight)
    (free : w.free = v.free) (type : ∀ c, (s.mem c).poll.type = (v.mem c).poll.type)
    (linked : w.linked = v.linked ∧ (v.mem b).poll.type ≠ 0 ∨
      w.linked = v.linked.erase b ∧ (v.mem b).poll.type = 0) : w.InUse held := by
  have hfree : b ∉ v.free := fun hf => h.free_linked b hf hb
  have hheld : ¬ held b := fun hh => (h.held_apart b hh).2 hb
  have hmem : ∀ c, (w.mem c).poll.type = (v.mem c).poll.type := by
    intro c
    rw [hvars, SendVars.osqPost_mem, type]
  -- a type-0 entry on the list is not in flight yet
  have hnew : (v.mem b).poll.type = 0 → b ∉ v.inFlight := fun h0 hf => h.polled b hf hb h0
  have hsub : ∀ c, c ≠ b → (c ∈ w.linked ↔ c ∈ v.linked) := by
    intro c hc
    rcases linked with ⟨hl, -⟩ | ⟨hl, -⟩
    · rw [hl]
    · rw [hl, List.mem_erase_of_ne hc]
  have hself : b ∈ w.linked → (v.mem b).poll.type ≠ 0 := by
    intro hl
    rcases linked with ⟨-, ht⟩ | ⟨hl', -⟩
    · exact ht
    · rw [hl'] at hl
      exact absurd hl h.linked_nodup.not_mem_erase
  have hflight' : w.inFlight = v.inFlight ∨ w.inFlight.Perm (b :: v.inFlight) := by
    have := s.osqPost_inFlight b
    rw [hflight] at this
    rwa [← hvars] at this
  have hcount : ∀ c ∈ w.inFlight, c ≠ b →
      c ∈ v.inFlight ∧ w.inFlight.count c = v.inFlight.count c := by
    intro c hc hne
    rcases hflight' with heq | hperm
    · exact ⟨heq ▸ hc, by rw [heq]⟩
    · refine ⟨?_, by rw [hperm.count_eq, List.count_cons_of_ne (Ne.symm hne)]⟩
      simpa [hne] using hperm.mem_iff.mp hc
  refine ⟨hsep, ?_, ?_, ?_⟩
  · intro c hc
    rw [free]
    by_cases hcb : c = b
    · exact hcb ▸ ⟨hfree, hheld⟩
    · exact h.apart c (hcount c hc hcb).1
  · intro c hc hl
    rw [hmem]
    by_cases hcb : c = b
    · exact hcb ▸ hself (hcb ▸ hl)
    · exact h.polled c (hcount c hc hcb).1 ((hsub c hcb).mp hl)
  · intro c hc hl
    by_cases hcb : c = b
    · subst hcb
      have h0 : (v.mem c).poll.type = 0 := by
        rcases linked with ⟨hl', -⟩ | ⟨-, ht⟩
        · exact absurd (hl' ▸ hb) hl
        · exact ht
      rcases hflight' with heq | hperm
      · exact absurd (heq ▸ hc) (hnew h0)
      · rw [hperm.count_eq, List.count_cons_self, List.count_eq_zero_of_not_mem (hnew h0)]
    · obtain ⟨hcf, heq⟩ := hcount c hc hcb
      rw [heq]
      exact h.once c hcf fun hl' => hl ((hsub c hcb).mpr hl')

theorem retire (h : v.InUse held) {o : Obs} (hsep : (v.retired b o).Separate held)
    (hidle : b ∉ v.inFlight) : (v.retired b o).InUse held := by
  have hne : ∀ c ∈ v.inFlight, c ≠ b := fun c hc heq => hidle (heq ▸ hc)
  refine ⟨hsep, fun c hc => ⟨?_, (h.apart c hc).2⟩, ?_, ?_⟩
  · simpa [retired, hne c hc] using (h.apart c hc).1
  · intro c hc hl
    rw [retired_mem (hne c hc)]
    exact h.polled c hc (List.mem_of_mem_erase hl)
  · intro c hc hl
    exact h.once c hc fun hl' => hl ((List.mem_erase_of_ne (hne c hc)).mpr hl')

theorem visit {l r : List BufId} (h : v.InUse held) (hl : v.linked = l ++ b :: r)
    (hP : RetiresIdle v.sendTask v.appUartSendMsg (pollVerdict (v.mem b).poll, b))
    (hw : v.pollStep (pollVerdict (v.mem b).poll, b) = some w) : w.InUse held := by
  have hb : b ∈ v.linked := by simp [hl]
  have hsep : w.Separate held := h.toSeparate.of_pollStep hb hw
  have htype := pollVerdict_eq_release (p := (v.mem b).poll)
  generalize hk : pollVerdict (v.mem b).poll = k at hw hP htype
  have hidle : k = .answered ∨ k = .expired → b ∉ v.inFlight := by
    intro hret hflight
    exact (mem_inFlight.mp hflight).elim (hP hret).1 (hP hret).2
  cases k with
  | skip => cases hw; exact h
  | wait =>
      obtain rfl := Option.some.inj hw
      exact h.congr rfl rfl rfl fun c _ => SendVars.setPoll_type rfl
  | answered =>
      obtain ⟨-, rfl⟩ := retire_eq hw
      exact h.retire hsep (hidle (.inl rfl))
  | expired =>
      obtain ⟨-, rfl⟩ := retire_eq hw
      exact h.retire hsep (hidle (.inr rfl))
  | release =>
      obtain rfl := Option.some.inj hw
      exact h.post hsep hb rfl rfl rfl (fun c => SendVars.setPoll_type rfl)
        (.inr ⟨rfl, htype.mp rfl⟩)
  | first =>
      obtain rfl := Option.some.inj hw
      exact h.post hsep hb rfl rfl rfl (fun c => SendVars.setPoll_type rfl)
        (.inl ⟨rfl, fun h0 => by cases htype.mpr h0⟩)
  | again =>
      obtain rfl := Option.some.inj hw
      exact h.post hsep hb rfl rfl rfl (fun c => SendVars.setPoll_type rfl)
        (.inl ⟨rfl, fun h0 => by cases htype.mpr h0⟩)

/-- The send task is done with its buffer. -/
theorem done (h : v.InUse held) (htask : v.sendTask = .inspecting b) {s : SendVars}
    (hs : s.inFlight = v.appUartSendMsg) : s.inFlight ⊆ v.inFlight ∧
      ∀ c ∈ s.inFlight, c ∉ v.linked → c ≠ b ∧ s.inFlight.count c = 1 := by
  have hflight : v.inFlight = b :: v.appUartSendMsg := by
    simp [SendVars.inFlight, htask, SendTask.buf]
  rw [hs, hflight]
  refine ⟨List.subset_cons_self b _, ?_⟩
  intro c hc hl
  have hcount := h.once c (by rw [hflight]; exact List.mem_cons_of_mem _ hc) hl
  rw [hflight] at hcount
  have hne : c ≠ b := by
    rintro rfl
    rw [List.count_cons_self] at hcount
    exact absurd hc (List.count_eq_zero.mp (by omega))
  exact ⟨hne, by rwa [List.count_cons_of_ne (Ne.symm hne)] at hcount⟩

theorem inspect (h : v.InUse held) (hw : v.sendInspect = some w) : w.InUse held := by
  obtain ⟨b, hb, hflag, htype, hfree, rfl⟩ | ⟨b, hb, -, rfl⟩ | rfl := sendInspect_cases hw
  · obtain ⟨-, hlinked, hheld⟩ := h.fresh b hb hflag htype
    obtain ⟨hsub, hcount⟩ := h.done (s := { v.setPoll b .zero with sendTask := .ready }) hb rfl
    have hne : ∀ c ∈ v.appUartSendMsg, c ≠ b := by
      rintro c hc rfl
      exact (hcount c hc hlinked).1 rfl
    refine ⟨h.toSeparate.recycled hfree hlinked hheld rfl rfl, fun c hc => ⟨?_, ?_⟩, ?_,
      fun c hc hl => (hcount c hc hl).2⟩
    · simpa [hne c hc] using (h.apart c (hsub hc)).1
    · exact (h.apart c (hsub hc)).2
    · intro c hc hl
      have := h.polled c (hsub hc) hl
      simpa [SendVars.setPoll_poll, hne c hc] using this
  · obtain ⟨hsub, hcount⟩ := h.done (s := { v.toSendVars with sendTask := .ready }) hb rfl
    exact ⟨h.toSeparate.congr rfl rfl, fun c hc => h.apart c (hsub hc),
      fun c hc hl => h.polled c (hsub hc) hl, fun c hc hl => (hcount c hc hl).2⟩
  · exact h

theorem closed : Closed InUse RetiresIdle where
  separate h := h.toSeparate
  take x h hfree := h.take x hfree
  fill call h hb := h.fill call hb
  link h hb := h.link hb
  visit h hl _ hP _ hw := h.visit hl hP hw
  inspect h _ _ hw := h.inspect hw
  pend {v held} h := by
    refine h.congr rfl rfl ?_ fun c _ => by simp
    rw [withVars_vars]
    unfold SendVars.osqPend
    split
    · rename_i htask
      split
      · rename_i hmsg
        simp [SendVars.inFlight, htask, SendTask.buf]
      · rename_i b entries hmsg
        simp [SendVars.inFlight, htask, hmsg, SendTask.buf]
    · rfl
  transmit {v held} h := by
    refine h.congr rfl rfl ?_ fun c _ => by simp
    rw [withVars_vars]
    unfold SendVars.appUsartTransmit
    split
    · rename_i b htask
      simp [SendVars.inFlight, htask, SendTask.buf, SendVars.record]
    · rfl
  complete {v held} h := by
    refine h.congr rfl rfl ?_ fun c _ => by simp
    rw [withVars_vars]
    unfold SendVars.uartTxCallback
    split
    · rename_i b htask
      simp [SendVars.inFlight, htask, SendTask.buf]
    · rfl
  answer {v held} sn h := by
    unfold markAnswered
    split
    · exact h.congr rfl rfl rfl fun c _ => SendVars.setPoll_type rfl
    · exact h
  otherMsgs {v held} n h := by
    unfold SendVars.otherMsgs
    split
    · exact h.congr rfl rfl rfl fun _ _ => rfl
    · exact h

theorem boot (mem : BufId → UartSendFormat) (msgPoolSize : Nat) :
    (Pool.boot mem msgPoolSize).InUse fun _ => False where
  toSeparate := Separate.boot mem msgPoolSize
  apart := by simp [Pool.boot, SendVars.inFlight, SendTask.buf]
  polled := by simp [Pool.boot, SendVars.inFlight, SendTask.buf]
  once := by simp [Pool.boot, SendVars.inFlight, SendTask.buf]

end InUse

end Pool

/-- Buffers are taken for `uart_protocol_dispose` without overlap, and entries are
retired only when the send task is done with them. -/
def Sys.Retires (s : Sys Tx) (e : Event) : Prop := s.NoOverlap e ∧ s.Visits RetiresIdle e

instance (s : Sys Tx) (e : Event) : Decidable (s.Retires e) := inferInstanceAs (Decidable (_ ∧ _))

/-- Where entries are retired only when the send task is done with them, **no free
buffer is in use**, for any message pool and whatever becomes of each post. -/
theorem no_reuse (heap : Heap) (mem : BufId → UartSendFormat) (msgPoolSize : Nat) (es : List Event)
    (guarded : Sys.GuardedFrom Sys.Retires heap mem msgPoolSize es) :
    ∃ s, Sys.runFrom heap mem msgPoolSize es = some s ∧ s.NoReuse := by
  have hclean : ∀ (s : Sys Tx) (v : Sys Pool) e, s.Rep v → Sys.Ok Pool.InUse v → s.Retires e →
      v.Clean RetiresIdle e := by
    intro s v e hrep hok h
    refine ⟨(hrep.noOverlap e).mp h.1, ?_, (hrep.visits e).mp h.2⟩
    cases e with
    | inspect => exact hok.pool.fresh
    | _ => trivial
  obtain ⟨s, v, hrun, hrep, hok⟩ := Sys.run_ok Pool.InUse.closed hclean
    (Pool.InUse.boot mem msgPoolSize) guarded
  refine ⟨s, hrun, ?_⟩
  unfold Sys.NoReuse
  rw [hrep.st.freeBufs, hrep.st.linkedBufs, hrep.st.vars]
  refine ⟨hok.pool.free_nodup, fun b hb => ⟨hok.pool.free_linked b hb, ?_, ?_⟩⟩
  · intro hq
    exact (hok.pool.apart b (Pool.InUse.mem_inFlight.mpr (.inr hq))).1 hb
  · intro ht
    exact (hok.pool.apart b (Pool.InUse.mem_inFlight.mpr (.inl ht))).1 hb

theorem no_reuse_answeredRequest :
    ∃ s, Sys.runFrom Sys.blankHeap Sys.blankMem 0 Sys.answeredRequest = some s ∧ s.NoReuse :=
  no_reuse _ _ _ _ (by decide +kernel)

/-- The late answer lets the poll task recycle a buffer whose bytes are on the
wire. -/
theorem late_answer_reuse :
    ¬ ∀ heap mem msgPoolSize es s, Sys.runFrom heap mem msgPoolSize es = some s → s.NoReuse := by
  intro h
  obtain ⟨s, hrun, hreuse⟩ := Sys.exists_run 0 Sys.lateAnswer
    (fun s => decide (¬ s.NoReuse)) (by decide +kernel)
  exact of_decide_eq_true hreuse (h _ _ _ _ s hrun)

end WifiExpander
