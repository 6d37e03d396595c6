import WifiExpander.Fill

/-!
Who has a buffer.

`Pool.Separate` says that no buffer is in two places. `Pool.Closed` collects what
an invariant of the pool must satisfy at each operation, and `Sys.run_keeps`
turns it into a statement about every interleaving of the code, under the
conditions that keep the static pointers and the recycle decision from
confusing two buffers.
-/

namespace WifiExpander

open WifiExpander.Theory

/-! ### Operations on known buffers -/

/-- What has been linked: buffer, type and frame. -/
def linkObs (log : List Obs) : List (BufId × Nat × List UInt8) :=
  log.filterMap fun
    | .linked b type f => some (b, type, f)
    | _ => none

namespace Pool

variable {v w : Pool} {b c : BufId} {x : Static}

def takeAt (x : Static) (b : BufId) (rest : List BufId) (v : Pool) : Pool :=
  { v with
    free := rest
    statics := Function.update v.statics x (some b)
    mem := Function.update v.mem b { v.mem b with buf := some b } }

def fillAt (call : Call) (b : BufId) (v : Pool) : Pool :=
  ⟨{ v.setMem b (call.fill v.uartSendSn (v.mem b)) with uartSendSn := call.nextSn v.uartSendSn },
    v.free, v.linked, Function.update v.owned b true⟩

def linkAt (b : BufId) (v : Pool) : Pool :=
  ⟨v.record (.linked b (v.mem b).poll.type (v.mem b).frame), v.free, v.linked ++ [b], v.owned⟩

theorem takeBuf_nil (h : v.free = []) : v.takeBuf x = (none, v) := by
  simp [takeBuf, h]

theorem takeBuf_cons {rest : List BufId} (h : v.free = b :: rest) :
    v.takeBuf x = (some b, v.takeAt x b rest) := by
  simp only [takeBuf, h, takeAt]

theorem fillCall_eq {call : Call} (h : v.statics call.static = some b) :
    Sys.fillCall call v = some (v.fillAt call b) := by
  cases call with
  | dispose info =>
      have h' : v.statics .disSendpdata = some b := h
      simp [Sys.fillCall, SendOps.fillDispose, fillDispose, fillBuf, h', fillAt, Call.fill,
        Call.nextSn, SendVars.setMem]
  | ask cmdId req ans =>
      have h' : v.statics .sendpdata = some b := h
      simp [Sys.fillCall, SendOps.fillBuf, fillBuf, h', fillAt, Call.fill, Call.nextSn,
        SendVars.setMem]
  | forward bleRecvBuf =>
      have h' : v.statics .bleSendpdata = some b := h
      simp [Sys.fillCall, SendOps.fillBuf, fillBuf, h', fillAt, Call.fill, Call.nextSn,
        SendVars.setMem]

theorem linkEntry_eq (h : v.statics x = some b) (hb : b ∉ v.linked) (howned : v.owned b = true) :
    v.linkEntry x = some (v.linkAt b) := by
  simp [linkEntry, h, hb, howned, linkAt]

/-- The recycle decision on a buffer it lets go. -/
theorem sendInspect_recycle (htask : v.sendTask = .inspecting b)
    (hcond : (v.mem b).poll.freeFlag ≠ 0 ∧ (v.mem b).poll.type = 0) (hb : b ∉ v.free) :
    v.sendInspect =
      some ⟨{ v.setPoll b .zero with sendTask := .ready }, v.free ++ [b], v.linked, v.owned⟩ := by
  simp only [sendInspect, htask, if_pos hcond, recycle_of_notMem hb, Option.bind_eq_bind,
    Option.bind_some]

theorem sendInspect_keep (htask : v.sendTask = .inspecting b)
    (hcond : ¬ ((v.mem b).poll.freeFlag ≠ 0 ∧ (v.mem b).poll.type = 0)) :
    v.sendInspect = some (v.withVars { v.toSendVars with sendTask := .ready }) := by
  simp only [sendInspect, htask, if_neg hcond, withVars]

theorem sendInspect_idle (htask : ∀ b, v.sendTask ≠ .inspecting b) : v.sendInspect = some v := by
  unfold sendInspect
  split
  · exact absurd ‹_› (htask _)
  · rfl

/-- All that the recycle decision can do. -/
theorem sendInspect_cases (h : v.sendInspect = some w) :
    (∃ b, v.sendTask = .inspecting b ∧ (v.mem b).poll.freeFlag ≠ 0 ∧ (v.mem b).poll.type = 0 ∧
      b ∉ v.free ∧
      w = ⟨{ v.setPoll b .zero with sendTask := .ready }, v.free ++ [b], v.linked, v.owned⟩) ∨
    (∃ b, v.sendTask = .inspecting b ∧
      ¬ ((v.mem b).poll.freeFlag ≠ 0 ∧ (v.mem b).poll.type = 0) ∧
      w = v.withVars { v.toSendVars with sendTask := .ready }) ∨
    w = v := by
  unfold sendInspect at h
  split at h
  · rename_i b htask
    split at h
    · rename_i hcond
      obtain ⟨u, hu, hw⟩ := Option.bind_eq_some_iff.mp h
      obtain ⟨hfree, rfl⟩ := recycle_eq hu
      obtain rfl := Option.some.inj hw
      exact .inl ⟨b, htask, hcond.1, hcond.2, hfree, rfl⟩
    · rename_i hcond
      exact .inr (.inl ⟨b, htask, hcond, (Option.some.inj h).symm⟩)
  · exact .inr (.inr (Option.some.inj h).symm)

/-! ### Separation -/

/-- No buffer is free, on the send list or with a producer (`held`) twice. -/
structure Separate (v : Pool) (held : BufId → Prop) : Prop where
  free_nodup : v.free.Nodup
  linked_nodup : v.linked.Nodup
  free_linked : ∀ b ∈ v.free, b ∉ v.linked
  held_apart : ∀ b, held b → b ∉ v.free ∧ b ∉ v.linked

/-- The buffer that the send task is about to recycle is nowhere else. -/
def Fresh (v : Pool) (held : BufId → Prop) : Prop :=
  ∀ b, v.sendTask = .inspecting b → (v.mem b).poll.freeFlag ≠ 0 → (v.mem b).poll.type = 0 →
    b ∉ v.free ∧ b ∉ v.linked ∧ ¬ held b

namespace Separate

variable {held : BufId → Prop}

theorem congr (h : v.Separate held) (free : w.free = v.free) (linked : w.linked = v.linked) :
    w.Separate held := by
  obtain ⟨h₁, h₂, h₃, h₄⟩ := h
  exact ⟨free ▸ h₁, linked ▸ h₂, free ▸ linked ▸ h₃, free ▸ linked ▸ h₄⟩

theorem take {rest : List BufId} (h : v.Separate held) (hfree : v.free = b :: rest) :
    (v.takeAt x b rest).Separate fun c => held c ∨ c = b := by
  have hnd := h.free_nodup
  rw [hfree, List.nodup_cons] at hnd
  refine ⟨hnd.2, h.linked_nodup, fun c hc => h.free_linked c ?_, ?_⟩
  · rw [hfree]
    exact List.mem_cons_of_mem _ hc
  · intro c hc
    rcases hc with hc | rfl
    · have := h.held_apart c hc
      rw [hfree] at this
      exact ⟨fun hr => this.1 (List.mem_cons_of_mem _ hr), this.2⟩
    · exact ⟨hnd.1, h.free_linked c (by rw [hfree]; exact List.mem_cons_self)⟩

theorem link (h : v.Separate held) (hb : held b) :
    (v.linkAt b).Separate fun c => held c ∧ c ≠ b := by
  obtain ⟨hfree, hlinked⟩ := h.held_apart b hb
  refine ⟨h.free_nodup, ?_, ?_, fun c hc => ⟨(h.held_apart c hc.1).1, ?_⟩⟩
  · exact List.nodup_append.mpr ⟨h.linked_nodup, by simp, by rintro a ha _ hb' rfl; simp_all⟩
  · intro c hc hmem
    rcases List.mem_append.mp hmem with hmem | hmem
    · exact h.free_linked c hc hmem
    · exact hfree (List.mem_singleton.mp hmem ▸ hc)
  · intro hmem
    rcases List.mem_append.mp hmem with hmem | hmem
    · exact (h.held_apart c hc.1).2 hmem
    · exact hc.2 (List.mem_singleton.mp hmem)

/-- A buffer that is nowhere becomes free. -/
theorem recycled (h : v.Separate held) (hfree : b ∉ v.free) (hlinked : b ∉ v.linked)
    (hheld : ¬ held b) (free : w.free = v.free ++ [b]) (linked : w.linked = v.linked) :
    w.Separate held := by
  refine ⟨?_, linked ▸ h.linked_nodup, ?_, fun c hc => ⟨?_, ?_⟩⟩
  · rw [free]
    exact List.nodup_append.mpr ⟨h.free_nodup, by simp, by rintro a ha _ hb rfl; simp_all⟩
  · intro c hc hmem
    rw [free] at hc
    rw [linked] at hmem
    rcases List.mem_append.mp hc with hc | hc
    · exact h.free_linked c hc hmem
    · exact hlinked (List.mem_singleton.mp hc ▸ hmem)
  · intro hmem
    rw [free] at hmem
    rcases List.mem_append.mp hmem with hmem | hmem
    · exact (h.held_apart c hc).1 hmem
    · exact hheld (List.mem_singleton.mp hmem ▸ hc)
  · rw [linked]
    exact (h.held_apart c hc).2

theorem unlink (h : v.Separate held) (b : BufId) : (v.unlink b).Separate held :=
  ⟨h.free_nodup, h.linked_nodup.erase b,
    fun c hc hmem => h.free_linked c hc (List.mem_of_mem_erase hmem),
    fun c hc => ⟨(h.held_apart c hc).1, fun hmem =>
      (h.held_apart c hc).2 (List.mem_of_mem_erase hmem)⟩⟩

/-- A visit to a linked entry can be carried out, and moves its buffer to the
free list at most. -/
theorem pollStep (h : v.Separate held) (hb : b ∈ v.linked) (k : PollVerdict) :
    ∃ w, v.pollStep (k, b) = some w ∧ w.Separate held := by
  have hfree : b ∉ v.free := fun hf => h.free_linked b hf hb
  have hretired : ∀ {w : Pool}, w.free = v.free ++ [b] → w.linked = v.linked.erase b →
      w.Separate held := fun {w} hwf hwl =>
    (h.unlink b).recycled hfree h.linked_nodup.not_mem_erase
      (fun hheld => (h.held_apart b hheld).2 hb) hwf hwl
  cases k with
  | skip => exact ⟨v, rfl, h⟩
  | answered | expired => exact ⟨_, recycle_of_notMem hfree, hretired rfl rfl⟩
  | release => exact ⟨_, rfl, (h.unlink b).congr rfl rfl⟩
  | wait | first | again => exact ⟨_, rfl, h.congr rfl rfl⟩

theorem of_pollStep {k : PollVerdict} (h : v.Separate held) (hb : b ∈ v.linked)
    (hw : v.pollStep (k, b) = some w) : w.Separate held := by
  obtain ⟨w', hw', hsep⟩ := h.pollStep hb k
  obtain rfl := Option.some.inj (hw.symm.trans hw')
  exact hsep

end Separate

/-! ### Closed invariants -/

/-- What an invariant of a pool and of the buffers its producers hold must
satisfy at each operation; `P` is the condition on the visits of a period. -/
structure Closed (Inv : Pool → (BufId → Prop) → Prop)
    (P : SendTask → List BufId → PollVerdict × BufId → Prop) : Prop where
  separate : ∀ {v held}, Inv v held → v.Separate held
  take : ∀ {v held b rest} (x), Inv v held → v.free = b :: rest →
    Inv (v.takeAt x b rest) fun c => held c ∨ c = b
  fill : ∀ {v held b} (call), Inv v held → held b → Inv (v.fillAt call b) held
  link : ∀ {v held b}, Inv v held → held b → Inv (v.linkAt b) fun c => held c ∧ c ≠ b
  visit : ∀ {v held l b r}, Inv v held → v.linked = l ++ b :: r →
    (∀ c ∈ l, (v.mem c).poll.type ≠ 0) →
    P v.sendTask v.appUartSendMsg (pollVerdict (v.mem b).poll, b) →
    ∀ {w}, v.pollStep (pollVerdict (v.mem b).poll, b) = some w → Inv w held
  inspect : ∀ {v held}, Inv v held → v.Fresh held → ∀ {w}, v.sendInspect = some w → Inv w held
  pend : ∀ {v held}, Inv v held → Inv (v.withVars v.osqPend) held
  transmit : ∀ {v held}, Inv v held → Inv (v.withVars v.appUsartTransmit) held
  complete : ∀ {v held}, Inv v held → Inv (v.withVars v.uartTxCallback) held
  answer : ∀ {v held} (sn), Inv v held → Inv (v.markAnswered sn rspUpgData) held
  otherMsgs : ∀ {v held} (n), Inv v held → Inv (v.withVars (v.otherMsgs n)) held

/-- A closed invariant holds after a period whose visits meet the condition. -/
theorem Closed.pollTick {Inv : Pool → (BufId → Prop) → Prop}
    {P : SendTask → List BufId → PollVerdict × BufId → Prop} {held : BufId → Prop}
    (hc : Closed Inv P) (h : Inv v held)
    (planned : ∀ e ∈ pollPlan v.mem v.linked, P v.sendTask v.appUartSendMsg e) :
    ∃ w, v.pollTick = some w ∧ Inv w held := by
  refine pollTick_rule (fun v => Inv v held) P ?_ ?_ planned h
  · intro v l b r hv hl htypes hP
    obtain ⟨w, hstep, -⟩ := (hc.separate hv).pollStep (b := b) (by simp [hl])
      (pollVerdict (v.mem b).poll)
    exact ⟨w, hstep, hc.visit hv hl htypes hP hstep⟩
  · intro v hv
    exact (hc.separate hv).linked_nodup

theorem Separate.closed : Closed Separate fun _ _ _ => True where
  separate h := h
  take _ h hfree := h.take hfree
  fill _ h _ := h.congr rfl rfl
  link h hb := h.link hb
  visit h hl _ _ _ hw := h.of_pollStep (by simp [hl]) hw
  inspect {v held} h hfresh w hw := by
    obtain ⟨b, hb, hflag, htype, hfree, rfl⟩ | ⟨b, hb, -, rfl⟩ | rfl := sendInspect_cases hw
    · obtain ⟨-, hlinked, hheld⟩ := hfresh b hb hflag htype
      exact h.recycled hfree hlinked hheld rfl rfl
    · exact h.congr rfl rfl
    · exact h
  pend h := h.congr rfl rfl
  transmit h := h.congr rfl rfl
  complete h := h.congr rfl rfl
  answer {v held} sn h := by
    unfold markAnswered
    split
    · exact h.congr rfl rfl
    · exact h
  otherMsgs n h := h.congr rfl rfl

theorem Separate.boot (mem : BufId → UartSendFormat) (msgPoolSize : Nat) :
    (Pool.boot mem msgPoolSize).Separate fun _ => False where
  free_nodup := List.nodup_finRange _
  linked_nodup := List.nodup_nil
  free_linked := by simp [Pool.boot]
  held_apart := by simp

/-- `w` is `v` after a step that no producer takes: what only producers write is
unchanged, and so are the buffers in `keep`. -/
structure SameProducers (keep : BufId → Prop) (v w : Pool) : Prop where
  statics : w.statics = v.statics
  owned : w.owned = v.owned
  sn : w.uartSendSn = v.uartSendSn
  mem : ∀ b, keep b → w.mem b = v.mem b
  links : linkObs w.log = linkObs v.log

namespace SameProducers

variable {keep : BufId → Prop}

theorem refl (v : Pool) : SameProducers keep v v := ⟨rfl, rfl, rfl, fun _ _ => rfl, rfl⟩

theorem trans {u : Pool} (h : SameProducers keep u v) (h' : SameProducers keep v w) :
    SameProducers keep u w :=
  ⟨h'.statics.trans h.statics, h'.owned.trans h.owned, h'.sn.trans h.sn,
    fun b hb => (h'.mem b hb).trans (h.mem b hb), h'.links.trans h.links⟩

theorem osqPost (s : SendVars) (b : BufId) :
    (s.osqPost b).statics = s.statics ∧ (s.osqPost b).uartSendSn = s.uartSendSn ∧
      linkObs (s.osqPost b).log = linkObs s.log := by
  refine ⟨?_, ?_, by simp [linkObs]⟩ <;>
  · unfold SendVars.osqPost
    dsimp only
    split
    · rfl
    · split <;> rfl

theorem pollStep {k : PollVerdict} (h : v.pollStep (k, b) = some w) (hb : ¬ keep b) :
    SameProducers keep v w := by
  have hmem : ∀ c, keep c → w.mem c = v.mem c := fun c hc =>
    pollStep_mem h fun heq => hb (heq ▸ hc)
  cases k with
  | skip => cases h; exact refl _
  | answered | expired =>
      obtain ⟨-, rfl⟩ := retire_eq h
      exact ⟨rfl, rfl, rfl, hmem, by simp [retired, SendVars.record, SendVars.setPoll,
        SendVars.setMem, linkObs]⟩
  | wait => obtain rfl := Option.some.inj h; exact ⟨rfl, rfl, rfl, hmem, rfl⟩
  | release | first | again =>
      obtain rfl := Option.some.inj h
      obtain ⟨h₁, h₂, h₃⟩ := osqPost (v.setPoll b _) b
      exact ⟨h₁, rfl, h₂, hmem, h₃⟩

theorem pollRun {es : List (PollVerdict × BufId)} (hes : ∀ e ∈ es, ¬ keep e.2)
    (h : polls.run v es = some w) : SameProducers keep v w := by
  induction es generalizing v with
  | nil => exact Option.some.inj h ▸ refl v
  | cons e es ih =>
      obtain ⟨u, hstep, hrun⟩ := polls_cons.mp h
      exact (pollStep hstep (hes e List.mem_cons_self)).trans
        (ih (fun e he => hes e (List.mem_cons_of_mem _ he)) hrun)

theorem pollTick (h : v.pollTick = some w) (hkeep : ∀ b, keep b → b ∉ v.linked) :
    SameProducers keep v w :=
  pollRun (fun e he hk => hkeep e.2 hk (mem_of_mem_pollPlan he)) h

theorem sendInspect (h : v.sendInspect = some w) (hkeep : ∀ b, v.sendTask = .inspecting b →
    (v.mem b).poll.freeFlag ≠ 0 → (v.mem b).poll.type = 0 → ¬ keep b) : SameProducers keep v w := by
  obtain ⟨b, hb, hflag, htype, -, rfl⟩ | ⟨b, -, -, rfl⟩ | rfl := sendInspect_cases h
  · refine ⟨rfl, rfl, rfl, ?_, rfl⟩
    intro c hc
    have hcb : c ≠ b := fun heq => hkeep b hb hflag htype (heq ▸ hc)
    simp [SendVars.setPoll, SendVars.setMem, hcb]
  · exact ⟨rfl, rfl, rfl, fun _ _ => rfl, rfl⟩
  · exact refl _

theorem markAnswered (sn cmdId : UInt8) (hkeep : ∀ b, keep b → b ∉ v.linked) :
    SameProducers keep v (v.markAnswered sn cmdId) := by
  unfold Pool.markAnswered
  split
  · rename_i b hfind
    refine ⟨rfl, rfl, rfl, ?_, rfl⟩
    intro c hc
    have hcb : c ≠ b := fun heq => hkeep c hc (heq ▸ List.mem_of_find?_eq_some hfind)
    simp [SendVars.setPoll, SendVars.setMem, hcb]
  · exact refl v

theorem osqPend : SameProducers keep v (v.withVars v.osqPend) := by
  unfold SendVars.osqPend
  split
  · split <;> exact ⟨rfl, rfl, rfl, fun _ _ => rfl, rfl⟩
  · exact refl v

theorem appUsartTransmit : SameProducers keep v (v.withVars v.appUsartTransmit) := by
  unfold SendVars.appUsartTransmit
  split
  · exact ⟨rfl, rfl, rfl, fun _ _ => rfl, by simp [SendVars.record, linkObs]⟩
  · exact refl v

theorem uartTxCallback : SameProducers keep v (v.withVars v.uartTxCallback) := by
  unfold SendVars.uartTxCallback
  split
  · exact ⟨rfl, rfl, rfl, fun _ _ => rfl, rfl⟩
  · exact refl v

theorem otherMsgs (n : Nat) : SameProducers keep v (v.withVars (v.otherMsgs n)) := by
  unfold SendVars.otherMsgs
  split
  · exact ⟨rfl, rfl, rfl, fun _ _ => rfl, rfl⟩
  · exact refl v

end SameProducers

/-- With the buffer fresh the recycle decision always goes through. -/
theorem Fresh.sendInspect (held : BufId → Prop) (h : v.Fresh held) :
    ∃ w, v.sendInspect = some w := by
  by_cases htask : ∃ b, v.sendTask = .inspecting b
  · obtain ⟨b, hb⟩ := htask
    by_cases hcond : (v.mem b).poll.freeFlag ≠ 0 ∧ (v.mem b).poll.type = 0
    · exact ⟨_, sendInspect_recycle hb hcond (h b hb hcond.1 hcond.2).1⟩
    · exact ⟨_, sendInspect_keep hb hcond⟩
  · exact ⟨v, sendInspect_idle fun b hb => htask ⟨b, hb⟩⟩

end Pool

/-! ### Every interleaving -/

namespace Sys

variable {σ : Type} [SendOps σ]

/-- A buffer is taken for `uart_protocol_dispose` only while no other call of it
is between its take and its link. -/
def NoOverlap (s : Sys σ) : Event → Prop
  | .take t c => c.static = .disSendpdata → SendOps.freeBufs s.st ≠ [] →
      ∀ t', s.Disposing t' → t' = t
  | _ => True

/-- What the send task is about to recycle is neither free nor linked nor with a
producer. -/
def InspectFresh (s : Sys σ) : Event → Prop
  | .inspect => ∀ b, (SendOps.vars s.st).sendTask = .inspecting b →
      ((SendOps.vars s.st).mem b).poll.freeFlag ≠ 0 →
      ((SendOps.vars s.st).mem b).poll.type = 0 →
      b ∉ SendOps.freeBufs s.st ∧ b ∉ SendOps.linkedBufs s.st ∧ ¬ ∃ t, s.Holds t b
  | _ => True

/-- Each visit of a period meets `P`, which may speak of the send task and the
message queue. -/
def Visits (P : SendTask → List BufId → PollVerdict × BufId → Prop) (s : Sys σ) : Event → Prop
  | .tick => ∀ e ∈ s.plan, P (SendOps.vars s.st).sendTask (SendOps.vars s.st).appUartSendMsg e
  | _ => True

instance (s : Sys σ) : ∀ e, Decidable (s.NoOverlap e)
  | .take _ _ => inferInstanceAs (Decidable (_ → _))
  | .fill _ | .link _ | .tick | .pend | .transmit | .complete | .inspect | .answer _
  | .otherMsgs _ => isTrue trivial

instance (s : Sys σ) : ∀ e, Decidable (s.InspectFresh e)
  | .inspect => inferInstanceAs (Decidable (∀ _, _ → _))
  | .take _ _ | .fill _ | .link _ | .tick | .pend | .transmit | .complete | .answer _
  | .otherMsgs _ => isTrue trivial

instance (P : SendTask → List BufId → PollVerdict × BufId → Prop) [∀ t q e, Decidable (P t q e)]
    (s : Sys σ) : ∀ e, Decidable (s.Visits P e)
  | .tick => inferInstanceAs (Decidable (∀ e ∈ s.plan, _))
  | .take _ _ | .fill _ | .link _ | .inspect | .pend | .transmit | .complete | .answer _
  | .otherMsgs _ => isTrue trivial

/-- Some producer holds the buffer. -/
def Held (s : Sys σ) (b : BufId) : Prop := ∃ t, s.Holds t b

/-- The producers are in order, and their pool satisfies `Inv`. -/
structure Ok (Inv : Pool → (BufId → Prop) → Prop) (s : Sys Pool) : Prop where
  pool : Inv s.st s.Held
  holder : ∀ t t' b, s.Holds t b → s.Holds t' b → t = t'
  static : ∀ t c, (s.pc t).call = some c → s.st.statics c.static = (s.pc t).buf
  makes : ∀ t c, (s.pc t).call = some c → t.makes c = true
  one : ∀ t t', s.Disposing t → s.Disposing t' → t = t'
  owned : ∀ t c b sn, s.pc t = .filled c b sn → s.st.owned b = true

/-- What a step of the system can do. -/
inductive Moves (s : Sys Pool) : Sys Pool → Prop where
  | none : Moves s s
  | take {t : Task} {c : Call} {b : BufId} {rest : List BufId} (idle : s.pc t = .idle)
      (makes : t.makes c = true) (free : s.st.free = b :: rest)
      (noOverlap : s.NoOverlap (.take t c)) :
      Moves s { s.setPc t (.taken c b) with
        st := s.st.takeAt c.static b rest, obtained := s.obtained ++ [(t, c, b)] }
  | fill {t : Task} {c : Call} {b : BufId} (taken : s.pc t = .taken c b) :
      Moves s { s.setPc t (.filled c b s.st.uartSendSn) with st := s.st.fillAt c b }
  | link {t : Task} {c : Call} {b : BufId} {sn : UInt8} (filled : s.pc t = .filled c b sn) :
      Moves s { s.setPc t .idle with
        st := s.st.linkAt b, completed := s.completed ++ [⟨t, c, b, sn⟩] }
  | pool {w : Pool} (same : Pool.SameProducers s.Held s.st w) : Moves s { s with st := w }

/-- Only the static pointer of `uart_protocol_dispose` is shared by tasks. -/
theorem makes_static {t t' : Task} {c c' : Call} (h : t.makes c = true) (h' : t'.makes c' = true)
    (heq : c'.static = c.static) (hne : c.static ≠ .disSendpdata) : t' = t := by
  cases c <;> cases c' <;> cases t <;> cases t' <;> simp_all [Call.static, Task.makes]

namespace Ok

variable {Inv : Pool → (BufId → Prop) → Prop} {s : Sys Pool} {t : Task} {c : Call} {b : BufId}
  {P : SendTask → List BufId → PollVerdict × BufId → Prop}

/-- A step of the pool that no producer takes. -/
theorem withPool (h : Ok Inv s) {w : Pool} (hw : Pool.SameProducers s.Held s.st w)
    (hinv : Inv w s.Held) : Ok Inv { s with st := w } :=
  ⟨hinv, h.holder, fun t c hc => by rw [hw.statics]; exact h.static t c hc, h.makes, h.one,
    fun t c b sn hpc => by rw [hw.owned]; exact h.owned t c b sn hpc⟩

/-- The producers hold one buffer more. -/
theorem held_take {st : Pool} (obtained : List (Task × Call × BufId)) (hpc : s.pc t = .idle) :
    Held { s.setPc t (.taken c b) with st, obtained } = fun b' => s.Held b' ∨ b' = b := by
  funext b'
  refine propext ⟨?_, ?_⟩
  · rintro ⟨t', ht'⟩
    by_cases heq : t' = t
    · subst heq
      exact .inr (by simpa [Holds, setPc, Pc.buf] using ht'.symm)
    · exact .inl ⟨t', by simpa [Holds, setPc, heq] using ht'⟩
  · rintro (⟨t', ht'⟩ | rfl)
    · have hne : t' ≠ t := by
        rintro rfl
        simp [Holds, hpc, Pc.buf] at ht'
      exact ⟨t', by simpa [Holds, setPc, hne] using ht'⟩
    · exact ⟨t, by simp [Holds, setPc, Pc.buf]⟩

/-- Another task in a call of the same kind would share the static pointer. -/
theorem static_ne (h : Ok Inv s) (hmakes : t.makes c = true) (hfree : s.st.free ≠ [])
    (hover : s.NoOverlap (.take t c)) {t' : Task} {c' : Call} (hne : t' ≠ t)
    (hcall : (s.pc t').call = some c') : c'.static ≠ c.static := by
  intro heq
  by_cases hdis : c.static = .disSendpdata
  · refine hne (hover hdis hfree t' ?_)
    simp [Disposing, hcall, heq, hdis]
  · exact hne (makes_static hmakes (h.makes t' c' hcall) heq hdis)

theorem take (hc : Pool.Closed Inv P) (h : Ok Inv s) (hpc : s.pc t = .idle)
    (hmakes : t.makes c = true) {rest : List BufId} (hfree : s.st.free = b :: rest)
    (hover : s.NoOverlap (.take t c)) (obtained : List (Task × Call × BufId)) :
    Ok Inv { s.setPc t (.taken c b) with st := s.st.takeAt c.static b rest, obtained } := by
  have hne : s.st.free ≠ [] := by simp [hfree]
  have hapart : ∀ t', ¬ s.Holds t' b := fun t' ht =>
    ((hc.separate h.pool).held_apart b ⟨t', ht⟩).1 (by simp [hfree])
  refine ⟨held_take obtained hpc ▸ hc.take c.static h.pool hfree, ?_, ?_, ?_, ?_, ?_⟩
  · intro t₁ t₂ b' h₁ h₂
    by_cases e₁ : t₁ = t <;> by_cases e₂ : t₂ = t
    · rw [e₁, e₂]
    · subst e₁
      obtain rfl : b = b' := by simpa [Holds, setPc, Pc.buf] using h₁
      exact absurd (by simpa [Holds, setPc, e₂] using h₂) (hapart t₂)
    · subst e₂
      obtain rfl : b = b' := by simpa [Holds, setPc, Pc.buf] using h₂
      exact absurd (by simpa [Holds, setPc, e₁] using h₁) (hapart t₁)
    · exact h.holder t₁ t₂ b' (by simpa [Holds, setPc, e₁] using h₁)
        (by simpa [Holds, setPc, e₂] using h₂)
  · intro t' c' hcall
    by_cases heq : t' = t
    · subst heq
      obtain rfl : c = c' := by simpa [setPc, Pc.call] using hcall
      simp [Pool.takeAt, setPc, Pc.buf]
    · have hcall' : (s.pc t').call = some c' := by simpa [setPc, heq] using hcall
      simp only [Pool.takeAt, setPc, Function.update_of_ne heq]
      rw [Function.update_of_ne (h.static_ne hmakes hne hover heq hcall')]
      exact h.static t' c' hcall'
  · intro t' c' hcall
    by_cases heq : t' = t
    · subst heq
      obtain rfl : c = c' := by simpa [setPc, Pc.call] using hcall
      exact hmakes
    · exact h.makes t' c' (by simpa [setPc, heq] using hcall)
  · intro t₁ t₂ h₁ h₂
    have hdis : ∀ t', Disposing { s.setPc t (.taken c b) with
        st := s.st.takeAt c.static b rest, obtained } t' → t' ≠ t → s.Disposing t' := by
      intro t' ht' hne
      simpa [Disposing, setPc, hne] using ht'
    have hself : Disposing { s.setPc t (.taken c b) with
        st := s.st.takeAt c.static b rest, obtained } t → c.static = .disSendpdata := by
      intro ht
      simpa [Disposing, setPc, Pc.call] using ht
    have hnone : c.static = .disSendpdata → ∀ t', s.Disposing t' → t' = t :=
      fun hstatic => hover hstatic hne
    by_cases e₁ : t₁ = t <;> by_cases e₂ : t₂ = t
    · rw [e₁, e₂]
    · subst e₁
      exact (hnone (hself h₁) t₂ (hdis t₂ h₂ e₂)).symm
    · subst e₂
      exact hnone (hself h₂) t₁ (hdis t₁ h₁ e₁)
    · exact h.one t₁ t₂ (hdis t₁ h₁ e₁) (hdis t₂ h₂ e₂)
  · intro t' c' b' sn hpc'
    by_cases heq : t' = t
    · subst heq
      simp [setPc] at hpc'
    · exact h.owned t' c' b' sn (by simpa [setPc, heq] using hpc')

theorem fill (hc : Pool.Closed Inv P) (h : Ok Inv s) (hpc : s.pc t = .taken c b) (sn : UInt8) :
    Ok Inv { s.setPc t (.filled c b sn) with st := s.st.fillAt c b } := by
  have hbuf : ∀ t', ((s.setPc t (.filled c b sn)).pc t').buf = (s.pc t').buf := by
    intro t'
    by_cases heq : t' = t
    · subst heq; simp [setPc, hpc, Pc.buf]
    · simp [setPc, heq]
  have hcall : ∀ t', ((s.setPc t (.filled c b sn)).pc t').call = (s.pc t').call := by
    intro t'
    by_cases heq : t' = t
    · subst heq; simp [setPc, hpc, Pc.call]
    · simp [setPc, heq]
  have hheld : Held { s.setPc t (.filled c b sn) with st := s.st.fillAt c b } = s.Held := by
    funext b'
    simp only [Held, Holds, hbuf]
  refine ⟨hheld ▸ hc.fill c h.pool ⟨t, by simp [Holds, hpc, Pc.buf]⟩, ?_, ?_, ?_, ?_, ?_⟩
  · intro t₁ t₂ b'
    simp only [Holds, hbuf]
    exact h.holder t₁ t₂ b'
  · intro t' c'
    simp only [hcall, hbuf]
    exact h.static t' c'
  · intro t' c'
    simp only [hcall]
    exact h.makes t' c'
  · intro t₁ t₂
    simp only [Disposing, hcall]
    exact h.one t₁ t₂
  · intro t' c' b' sn' hpc'
    by_cases heq : t' = t
    · subst heq
      obtain ⟨-, rfl, -⟩ : c = c' ∧ b = b' ∧ sn = sn' := by simpa [setPc] using hpc'
      simp [Pool.fillAt]
    · have howned := h.owned t' c' b' sn' (by simpa [setPc, heq] using hpc')
      simp only [Pool.fillAt, Function.update_apply]
      split
      · rfl
      · exact howned

theorem link (hc : Pool.Closed Inv P) (h : Ok Inv s) {sn : UInt8} (hpc : s.pc t = .filled c b sn)
    (completed : List Completed) :
    Ok Inv { s.setPc t .idle with st := s.st.linkAt b, completed } := by
  have hold : ∀ t' b', Holds { s.setPc t .idle with st := s.st.linkAt b, completed } t' b' ↔
      s.Holds t' b' ∧ t' ≠ t := by
    intro t' b'
    by_cases heq : t' = t
    · subst heq; simp [Holds, setPc, Pc.buf]
    · simp [Holds, setPc, heq]
  have hcall : ∀ t' c', ((s.setPc t .idle).pc t').call = some c' →
      (s.pc t').call = some c' ∧ t' ≠ t := by
    intro t' c' ht'
    by_cases heq : t' = t
    · subst heq; simp [setPc, Pc.call] at ht'
    · exact ⟨by simpa [setPc, heq] using ht', heq⟩
  have hself : s.Holds t b := by simp [Holds, hpc, Pc.buf]
  have hheld : Held { s.setPc t .idle with st := s.st.linkAt b, completed } =
      fun b' => s.Held b' ∧ b' ≠ b := by
    funext b'
    refine propext ⟨?_, ?_⟩
    · rintro ⟨t', ht'⟩
      obtain ⟨hb', hne⟩ := (hold t' b').mp ht'
      exact ⟨⟨t', hb'⟩, fun heq => hne (h.holder t' t b (heq ▸ hb') hself)⟩
    · rintro ⟨⟨t', ht'⟩, hne⟩
      refine ⟨t', (hold t' b').mpr ⟨ht', ?_⟩⟩
      rintro rfl
      exact hne (Option.some.inj (ht'.symm.trans hself))
  refine ⟨hheld ▸ hc.link h.pool ⟨t, hself⟩, ?_, ?_, ?_, ?_, ?_⟩
  · intro t₁ t₂ b' h₁ h₂
    exact h.holder t₁ t₂ b' ((hold t₁ b').mp h₁).1 ((hold t₂ b').mp h₂).1
  · intro t' c' ht'
    obtain ⟨hc', hne⟩ := hcall t' c' ht'
    simpa [setPc, hne, Pool.linkAt, SendVars.record] using h.static t' c' hc'
  · exact fun t' c' ht' => h.makes t' c' (hcall t' c' ht').1
  · intro t₁ t₂ h₁ h₂
    have hdis : ∀ t', Disposing { s.setPc t .idle with st := s.st.linkAt b, completed } t' →
        s.Disposing t' := by
      intro t' ht'
      obtain ⟨c', hc', hstatic⟩ := Option.map_eq_some_iff.mp ht'
      simp [Disposing, (hcall t' c' hc').1, hstatic]
    exact h.one t₁ t₂ (hdis t₁ h₁) (hdis t₂ h₂)
  · intro t' c' b' sn' hpc'
    by_cases heq : t' = t
    · subst heq; simp [setPc] at hpc'
    · exact h.owned t' c' b' sn' (by simpa [setPc, heq] using hpc')

/-- **Every step can be taken and keeps the invariant.** -/
theorem step (hc : Pool.Closed Inv P) (h : Ok Inv s) {e : Event} (hover : s.NoOverlap e)
    (hfresh : s.InspectFresh e) (hvisits : s.Visits P e) :
    ∃ s', s.step e = some s' ∧ s.Moves s' ∧ Ok Inv s' := by
  have hapart : ∀ b, s.Held b → b ∉ s.st.linked := fun b hb =>
    ((hc.separate h.pool).held_apart b hb).2
  cases e with
  | take t c =>
      cases hpc : s.pc t with
      | idle =>
          by_cases hmakes : t.makes c = true
          · cases hfree : s.st.free with
            | nil =>
                refine ⟨s, ?_, .none, h⟩
                simp [Sys.step, hpc, hmakes, SendOps.takeBuf, Pool.takeBuf_nil hfree]
            | cons b rest =>
                refine ⟨_, ?_, .take hpc hmakes hfree hover,
                  h.take hc hpc hmakes hfree hover (s.obtained ++ [(t, c, b)])⟩
                simp [Sys.step, hpc, hmakes, SendOps.takeBuf, Pool.takeBuf_cons hfree]
          · exact ⟨s, by simp [Sys.step, hpc, hmakes], .none, h⟩
      | taken | filled => exact ⟨s, by simp [Sys.step, hpc], .none, h⟩
  | fill t =>
      cases hpc : s.pc t with
      | taken c b =>
          have hstatic := h.static t c (by simp [hpc, Pc.call])
          rw [hpc] at hstatic
          refine ⟨_, ?_, .fill hpc, h.fill hc hpc s.st.uartSendSn⟩
          simp [Sys.step, hpc, Pool.fillCall_eq hstatic, SendOps.vars]
      | idle | filled => exact ⟨s, by simp [Sys.step, hpc], .none, h⟩
  | link t =>
      cases hpc : s.pc t with
      | filled c b sn =>
          have hstatic := h.static t c (by simp [hpc, Pc.call])
          rw [hpc] at hstatic
          have hb := hapart b ⟨t, by simp [Holds, hpc, Pc.buf]⟩
          refine ⟨_, ?_, .link hpc, h.link hc hpc (s.completed ++ [⟨t, c, b, sn⟩])⟩
          simp [Sys.step, hpc, SendOps.linkEntry,
            Pool.linkEntry_eq hstatic hb (h.owned t c b sn hpc)]
      | idle | taken => exact ⟨s, by simp [Sys.step, hpc], .none, h⟩
  | tick =>
      obtain ⟨w, htick, hw⟩ := hc.pollTick h.pool hvisits
      have hsame := Pool.SameProducers.pollTick htick hapart
      refine ⟨{ s with st := w }, ?_, .pool hsame, h.withPool hsame hw⟩
      simp [Sys.step, SendOps.pollTick, htick]
  | inspect =>
      obtain ⟨w, hinspect⟩ := Pool.Fresh.sendInspect (v := s.st) s.Held hfresh
      have hsame := Pool.SameProducers.sendInspect hinspect
        fun b htask hflag htype => (hfresh b htask hflag htype).2.2
      refine ⟨{ s with st := w }, ?_, .pool hsame,
        h.withPool hsame (hc.inspect h.pool hfresh hinspect)⟩
      simp [Sys.step, SendOps.sendInspect, hinspect]
  | answer sn =>
      have hsame := Pool.SameProducers.markAnswered sn rspUpgData hapart
      exact ⟨_, rfl, .pool hsame, h.withPool hsame (hc.answer sn h.pool)⟩
  | pend => exact ⟨_, rfl, .pool .osqPend, h.withPool .osqPend (hc.pend h.pool)⟩
  | transmit =>
      exact ⟨_, rfl, .pool .appUsartTransmit, h.withPool .appUsartTransmit (hc.transmit h.pool)⟩
  | complete =>
      exact ⟨_, rfl, .pool .uartTxCallback, h.withPool .uartTxCallback (hc.complete h.pool)⟩
  | otherMsgs n =>
      exact ⟨_, rfl, .pool (.otherMsgs n), h.withPool (.otherMsgs n) (hc.otherMsgs n h.pool)⟩

end Ok

/-- The conditions under which an interleaving keeps an invariant closed for `P`. -/
structure Clean (P : SendTask → List BufId → PollVerdict × BufId → Prop) (s : Sys σ) (e : Event) :
    Prop where
  noOverlap : s.NoOverlap e
  inspectFresh : s.InspectFresh e
  visits : s.Visits P e

instance (P : SendTask → List BufId → PollVerdict × BufId → Prop) [∀ t q e, Decidable (P t q e)]
    (s : Sys σ) (e : Event) : Decidable (s.Clean P e) :=
  decidable_of_iff (s.NoOverlap e ∧ s.InspectFresh e ∧ s.Visits P e)
    ⟨fun h => ⟨h.1, h.2.1, h.2.2⟩, fun h => ⟨h.1, h.2, h.3⟩⟩

theorem Rep.noOverlap {s : Sys Tx} {v : Sys Pool} (h : s.Rep v) (e : Event) :
    s.NoOverlap e ↔ v.NoOverlap e := by
  cases e with
  | take t c => simp only [NoOverlap, h.freeBufs, h.disposing]
  | _ => exact Iff.rfl

theorem Rep.inspectFresh {s : Sys Tx} {v : Sys Pool} (h : s.Rep v) (e : Event) :
    s.InspectFresh e ↔ v.InspectFresh e := by
  cases e with
  | inspect =>
      simp only [InspectFresh, h.vars, h.freeBufs, h.linkedBufs, h.holds]
  | _ => exact Iff.rfl

theorem Rep.visits {P : SendTask → List BufId → PollVerdict × BufId → Prop} {s : Sys Tx}
    {v : Sys Pool} (h : s.Rep v) (e : Event) : s.Visits P e ↔ v.Visits P e := by
  cases e with
  | tick => simp only [Visits, h.vars, h.plan]
  | _ => exact Iff.rfl

theorem Rep.clean {P : SendTask → List BufId → PollVerdict × BufId → Prop} {s : Sys Tx}
    {v : Sys Pool} (h : s.Rep v) {e : Event} (hclean : s.Clean P e) : v.Clean P e :=
  ⟨(h.noOverlap e).mp hclean.noOverlap, (h.inspectFresh e).mp hclean.inspectFresh,
    (h.visits e).mp hclean.visits⟩

/-- The tasks start with no call in progress. -/
theorem Ok.start {Inv : Pool → (BufId → Prop) → Prop} {v : Pool} (h : Inv v fun _ => False) :
    Ok Inv (Sys.start v) := by
  have hheld : Held (Sys.start v) = fun _ => False := by
    funext b
    simp [Held, Holds, Sys.start, Pc.buf]
  refine ⟨hheld ▸ h, ?_, ?_, ?_, ?_, ?_⟩ <;>
    simp [Sys.start, Holds, Disposing, Pc.buf, Pc.call]

/-- **Every interleaving of the code.** From `uart_context_init` on, while every
event meets `ok`, the code neither follows a null pointer nor loops, and what it
implements satisfies the closed invariant `Inv` and whatever else (`More`) each
move keeps. `ok` need only imply the conditions for states that satisfy these. -/
theorem run_keeps {Inv : Pool → (BufId → Prop) → Prop}
    {P : SendTask → List BufId → PollVerdict × BufId → Prop} (hc : Pool.Closed Inv P)
    (More : Sys Pool → Prop)
    (hmore : ∀ v v' : Sys Pool, Ok Inv v → Ok Inv v' → v.Moves v' → More v → More v')
    {ok : Sys Tx → Event → Prop}
    (hok : ∀ (s : Sys Tx) (v : Sys Pool) e, s.Rep v → Ok Inv v → ok s e → v.Clean P e)
    {heap : Heap} {mem : BufId → UartSendFormat} {msgPoolSize : Nat}
    (hinit : Inv (Pool.boot mem msgPoolSize) fun _ => False)
    (hstart : More (Sys.start (Pool.boot mem msgPoolSize))) {es : List Event}
    (guarded : GuardedFrom ok heap mem msgPoolSize es) :
    ∃ s v, runFrom heap mem msgPoolSize es = some s ∧ Rep s v ∧ Ok Inv v ∧ More v := by
  obtain ⟨st, hst, hrep⟩ := uartContextInit_spec heap mem msgPoolSize
  have hrep' : (Sys.start st).Rep (Sys.start (Pool.boot mem msgPoolSize)) := ⟨hrep, rfl, rfl, rfl⟩
  simp only [GuardedFrom, hst] at guarded
  simp only [runFrom, hst, Option.bind_eq_bind, Option.bind_some]
  have hguard : ∀ (s : Sys Tx) (v : Sys Pool) e, s.Rep v → Ok Inv v ∧ More v → ok s e →
      v.Clean P e := fun s v e hrep hv => hok s v e hrep hv.1
  have hprogress : ∀ (v : Sys Pool) e, Ok Inv v ∧ More v → v.Clean P e →
      ∃ v', v.step e = some v' ∧ Ok Inv v' ∧ More v' := by
    intro v e hv hclean
    obtain ⟨v', hstep, hmoves, hv'⟩ :=
      hv.1.step hc hclean.noOverlap hclean.inspectFresh hclean.visits
    exact ⟨v', hstep, hv', hmore v v' hv.1 hv' hmoves hv.2⟩
  exact Machine.run_refines (M := machine Tx) (A := machine Pool) hguard hprogress
    (fun _ _ _ _ hs hv => hs.step hv) hrep' ⟨.start hinit, hstart⟩ guarded

/-- The same for an invariant of the pool alone. -/
theorem run_ok {Inv : Pool → (BufId → Prop) → Prop}
    {P : SendTask → List BufId → PollVerdict × BufId → Prop} (hc : Pool.Closed Inv P)
    {ok : Sys Tx → Event → Prop}
    (hok : ∀ (s : Sys Tx) (v : Sys Pool) e, s.Rep v → Ok Inv v → ok s e → v.Clean P e)
    {heap : Heap} {mem : BufId → UartSendFormat} {msgPoolSize : Nat}
    (hinit : Inv (Pool.boot mem msgPoolSize) fun _ => False) {es : List Event}
    (guarded : GuardedFrom ok heap mem msgPoolSize es) :
    ∃ s v, runFrom heap mem msgPoolSize es = some s ∧ Rep s v ∧ Ok Inv v := by
  obtain ⟨s, v, hrun, hrep, hv, -⟩ := run_keeps hc (fun _ => True) (fun _ _ _ _ _ _ => trivial)
    hok hinit trivial guarded
  exact ⟨s, v, hrun, hrep, hv⟩

/-! ### Runs on blank memory -/

def blankHeap : Heap := fun _ => ⟨none, none, none⟩

def blankMem : BufId → UartSendFormat := fun _ => ⟨none, .zero, fun _ => 0, 0⟩

/-- The steps of one call. -/
def whole (t : Task) (c : Call) : List Event := [.take t c, .fill t, .link t]

/-- The answer to `CMD_ADV_CTRL`. -/
def reply (d : UInt8) : Call := .ask askAdvCtrl (fun _ => 0) [d]

/-- Two answers are linked, and the poll task runs again while the first one is
being transmitted. -/
def twoReplies : List Event :=
  whole .uartParse (reply 0) ++ whole .uartParse (reply 1) ++ [.pend, .tick, .transmit, .tick]

/-- `ble_state_notify` is interrupted after its take by `iap_done`, which sends. -/
def interrupted : List Event :=
  [.take .bleEvent (.dispose (bleStateNotifyInfo 1))] ++
    whole .appMain (.dispose (iapDoneInfo 0)) ++ [.fill .bleEvent, .link .bleEvent]

/-- The same two calls one after the other. -/
def consecutive : List Event :=
  whole .bleEvent (.dispose (bleStateNotifyInfo 1)) ++ whole .appMain (.dispose (iapDoneInfo 0))

/-- A request for data before each of two answers; the poll task waits with each entry
for the send task, which transmits it and recycles what is not polled. -/
def mixedReplies : List Event :=
  whole .uartParse (.dispose (iapReqRequestInfo 0)) ++ whole .uartParse (reply 0) ++
    whole .uartParse (.dispose (iapReqRequestInfo 128)) ++ whole .uartParse (reply 1) ++
    (List.replicate 4 [.pend, .tick, .transmit, .complete, .inspect]).flatten

/-- A request for data that is answered after its first transmission, while it is
being transmitted again; the next period retires it. -/
def lateAnswer : List Event :=
  whole .uartParse (.dispose (iapReqRequestInfo 0)) ++
    [.pend, .tick, .transmit, .complete, .inspect, .pend] ++ List.replicate 100 .tick ++
    [.transmit, .answer 0, .tick]

/-- A request for data that is answered after the send task is done with it. -/
def answeredRequest : List Event :=
  whole .uartParse (.dispose (iapReqRequestInfo 0)) ++
    [.pend, .tick, .transmit, .complete, .inspect, .answer 0, .tick]

/-- The end of a run on blank memory, by evaluation. -/
theorem exists_run (msgPoolSize : Nat) (es : List Event) (p : Sys Tx → Bool)
    (h : (runFrom blankHeap blankMem msgPoolSize es).any p = true) :
    ∃ s, runFrom blankHeap blankMem msgPoolSize es = some s ∧ p s = true := by
  cases hrun : runFrom blankHeap blankMem msgPoolSize es with
  | none => simp [hrun] at h
  | some s => exact ⟨s, rfl, by simpa [hrun] using h⟩

end Sys

end WifiExpander
