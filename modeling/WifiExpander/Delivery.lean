import WifiExpander.Ownership

/-!
Are frames that expect no answer delivered once and in order?

A type-0 frame is appended to the send list, posted to the send task and handed
to the driver. With `MsgPoolSize` 0 a post to a busy send task is lost, and the
frame with it. Where no type-0 frame is posted to a busy send task, and no buffer
is recycled between its post and its transmission, the frames handed to the
driver, the frame on its way to it and the frames on the list are together the
frames that were appended, in order.
-/

namespace WifiExpander

open WifiExpander.Theory

/-- The type-0 frames handed to `app_usart_transmit`. -/
def transmitted0 (log : List Obs) : List (List UInt8) :=
  log.filterMap fun
    | .transmitted _ 0 f => some f
    | _ => none

/-- The type-0 frames appended to the send list. -/
def appended0 (log : List Obs) : List (List UInt8) :=
  log.filterMap fun
    | .linked _ 0 f => some f
    | _ => none

/-- The frames of the type-0 buffers among these. -/
def frames0 (mem : BufId → UartSendFormat) (bs : List BufId) : List (List UInt8) :=
  bs.filterMap fun b => if (mem b).poll.type = 0 then some (mem b).frame else none

/-- The buffers posted to the send task and not yet handed to the driver. -/
def SendVars.awaiting (s : SendVars) : List BufId :=
  (match s.sendTask with
    | .received b => [b]
    | _ => []) ++ s.appUartSendMsg

/-- Transmitted, posted and listed type-0 frames are the appended ones. -/
def Sys.InOrder (s : Sys Tx) : Prop :=
  transmitted0 s.st.log ++ frames0 s.st.mem s.st.awaiting ++ frames0 s.st.mem s.st.linkedBufs =
    appended0 s.st.log

instance (s : Sys Tx) : Decidable s.InOrder := inferInstanceAs (Decidable (_ = _))

/-- A type-0 entry is posted only while the send task waits, and an entry is not
retired while the send task has yet to transmit it. -/
def Delivers (task : SendTask) (_queue : List BufId) (e : PollVerdict × BufId) : Prop :=
  (e.1 = .release → task = .pending) ∧
    (e.1 = .answered ∨ e.1 = .expired → task ≠ .received e.2)

instance (task : SendTask) (queue : List BufId) (e : PollVerdict × BufId) :
    Decidable (Delivers task queue e) :=
  inferInstanceAs (Decidable (_ ∧ _))

/-! ### Sequences of frames -/

theorem frames0_congr {mem mem' : BufId → UartSendFormat} {bs : List BufId}
    (same : ∀ b ∈ bs, (mem' b).poll.type = (mem b).poll.type ∧ (mem' b).frame = (mem b).frame) :
    frames0 mem' bs = frames0 mem bs :=
  List.filterMap_congr fun b hb => by rw [(same b hb).1, (same b hb).2]

theorem frames0_append (mem : BufId → UartSendFormat) (l r : List BufId) :
    frames0 mem (l ++ r) = frames0 mem l ++ frames0 mem r := List.filterMap_append

theorem frames0_cons (mem : BufId → UartSendFormat) (b : BufId) (r : List BufId) :
    frames0 mem (b :: r) =
      (if (mem b).poll.type = 0 then [(mem b).frame] else []) ++ frames0 mem r := by
  simp only [frames0, List.filterMap_cons]
  split <;> rename_i h <;> split at h <;> simp_all

theorem frames0_of_ne {mem : BufId → UartSendFormat} {l : List BufId}
    (h : ∀ c ∈ l, (mem c).poll.type ≠ 0) : frames0 mem l = [] := by
  simp only [frames0, List.filterMap_eq_nil_iff]
  intro c hc
  simp [h c hc]

theorem transmitted0_append (log : List Obs) (b : BufId) (type : Nat) (f : List UInt8) :
    transmitted0 (log ++ [.transmitted b type f]) =
      transmitted0 log ++ (if type = 0 then [f] else []) := by
  cases type <;> simp [transmitted0]

theorem appended0_append (log : List Obs) (b : BufId) (type : Nat) (f : List UInt8) :
    appended0 (log ++ [.linked b type f]) = appended0 log ++ (if type = 0 then [f] else []) := by
  cases type <;> simp [appended0]

namespace Pool

structure Delivered (v : Pool) (held : BufId → Prop) : Prop extends v.Separate held where
  noPool : v.msgPoolSize = 0
  noMsg : v.appUartSendMsg = []
  /-- A posted type-0 buffer is nowhere else, a posted polled one still listed. -/
  received : ∀ b, v.sendTask = .received b →
    (v.mem b).poll.type = 0 ∧ b ∉ v.free ∧ b ∉ v.linked ∧ ¬ held b ∨
      (v.mem b).poll.type ≠ 0 ∧ b ∈ v.linked
  order : transmitted0 v.log ++ frames0 v.mem v.awaiting ++ frames0 v.mem v.linked =
    appended0 v.log

namespace Delivered

variable {v w : Pool} {held : BufId → Prop} {b : BufId}

theorem awaiting_eq (h : v.Delivered held) : v.awaiting =
    match v.sendTask with
    | .received b => [b]
    | _ => [] := by
  simp [SendVars.awaiting, h.noMsg]

/-- Nothing that producers touch is on its way to the driver. -/
theorem awaiting_apart (h : v.Delivered held) (hb : b ∈ v.awaiting) : b ∉ v.free ∧ ¬ held b := by
  rw [h.awaiting_eq] at hb
  split at hb
  · rename_i c htask
    obtain rfl := List.mem_singleton.mp hb
    rcases h.received b htask with hc | hc
    · exact ⟨hc.2.1, hc.2.2.2⟩
    · exact ⟨fun hf => h.free_linked b hf hc.2, fun hh => (h.held_apart b hh).2 hc.2⟩
  · cases hb

theorem take {rest : List BufId} (x : Static) (h : v.Delivered held) (hfree : v.free = b :: rest) :
    (v.takeAt x b rest).Delivered fun c => held c ∨ c = b := by
  have hmem : ∀ c, ((v.takeAt x b rest).mem c).poll = (v.mem c).poll ∧
      ((v.takeAt x b rest).mem c).frame = (v.mem c).frame := by
    intro c
    simp only [takeAt, Function.update_apply]
    split
    · rename_i hcb
      subst hcb
      exact ⟨rfl, rfl⟩
    · exact ⟨rfl, rfl⟩
  have hsame : ∀ bs : List BufId, frames0 (v.takeAt x b rest).mem bs = frames0 v.mem bs :=
    fun bs => frames0_congr fun c _ => ⟨by rw [(hmem c).1], (hmem c).2⟩
  refine ⟨h.toSeparate.take hfree, h.noPool, h.noMsg, ?_, ?_⟩
  · intro c hc
    rw [(hmem c).1]
    apply (h.received c hc).imp_left
    intro hout
    obtain ⟨htype, hnfree, hnlinked, hnheld⟩ := hout
    rw [hfree, List.mem_cons, not_or] at hnfree
    exact ⟨htype, hnfree.2, hnlinked, fun hh => hh.elim hnheld hnfree.1⟩
  · rw [hsame, hsame]
    exact h.order

theorem fill (call : Call) (h : v.Delivered held) (hb : held b) :
    (v.fillAt call b).Delivered held := by
  have hmem : ∀ c, c ≠ b → (v.fillAt call b).mem c = v.mem c := by
    intro c hc
    simp [fillAt, SendVars.setMem, hc]
  refine ⟨h.toSeparate.congr rfl rfl, h.noPool, h.noMsg, ?_, ?_⟩
  · intro c hc
    have hcb : c ≠ b := by
      rintro rfl
      rcases h.received c hc with hc | hc
      · exact hc.2.2.2 hb
      · exact (h.held_apart c hb).2 hc.2
    rw [hmem c hcb]
    exact h.received c hc
  · have hawait : frames0 (v.fillAt call b).mem v.awaiting = frames0 v.mem v.awaiting :=
      frames0_congr fun c hc => by
        rw [hmem c fun hcb => (h.awaiting_apart hc).2 (hcb ▸ hb)]
        exact ⟨rfl, rfl⟩
    have hlinked : frames0 (v.fillAt call b).mem v.linked = frames0 v.mem v.linked :=
      frames0_congr fun c hc => by
        rw [hmem c fun hcb => (h.held_apart b hb).2 (hcb ▸ hc)]
        exact ⟨rfl, rfl⟩
    have horder := h.order
    rw [← hawait, ← hlinked] at horder
    exact horder

theorem link (h : v.Delivered held) (hb : held b) :
    (v.linkAt b).Delivered fun c => held c ∧ c ≠ b := by
  refine ⟨h.toSeparate.link hb, h.noPool, h.noMsg, ?_, ?_⟩
  · intro c hc
    refine (h.received c hc).imp (fun hc => ⟨hc.1, hc.2.1, ?_, fun hh => hc.2.2.2 hh.1⟩)
      fun hc => ⟨hc.1, List.mem_append_left _ hc.2⟩
    intro hmem
    rcases List.mem_append.mp hmem with hmem | hmem
    · exact hc.2.2.1 hmem
    · exact hc.2.2.2 (List.mem_singleton.mp hmem ▸ hb)
  · have happ := appended0_append v.log b (v.mem b).poll.type (v.mem b).frame
    have hlog : transmitted0 (v.linkAt b).log = transmitted0 v.log := by
      simp [linkAt, SendVars.record, transmitted0]
    calc transmitted0 (v.linkAt b).log ++ frames0 v.mem v.awaiting ++
            frames0 v.mem (v.linked ++ [b])
        = (transmitted0 v.log ++ frames0 v.mem v.awaiting ++ frames0 v.mem v.linked) ++
            frames0 v.mem [b] := by rw [hlog, frames0_append]; simp
      _ = appended0 v.log ++ frames0 v.mem [b] := by rw [h.order]
      _ = appended0 (v.linkAt b).log := by
          rw [frames0_cons, frames0, List.filterMap_nil, List.append_nil]
          exact happ.symm

/-- A change of the variables that touches neither the types nor the frames nor
what is on its way. -/
theorem congr (h : v.Delivered held) (free : w.free = v.free) (linked : w.linked = v.linked)
    (noPool : w.msgPoolSize = v.msgPoolSize) (noMsg : w.appUartSendMsg = v.appUartSendMsg)
    (type : ∀ c, (w.mem c).poll.type = (v.mem c).poll.type)
    (frame : ∀ c, (w.mem c).frame = (v.mem c).frame)
    (task : ∀ b, w.sendTask = .received b ↔ v.sendTask = .received b)
    (trans : transmitted0 w.log = transmitted0 v.log) (app : appended0 w.log = appended0 v.log) :
    w.Delivered held := by
  have hframes : ∀ bs, frames0 w.mem bs = frames0 v.mem bs :=
    fun bs => frames0_congr fun c _ => ⟨type c, frame c⟩
  have hawait : w.awaiting = v.awaiting := by
    simp only [SendVars.awaiting, noMsg]
    congr 1
    cases hv : v.sendTask <;> cases hw : w.sendTask <;> simp_all
  refine ⟨h.toSeparate.congr free linked, noPool.trans h.noPool, noMsg.trans h.noMsg, ?_, ?_⟩
  · intro c hc
    rw [type, free, linked]
    exact h.received c ((task c).mp hc)
  · rw [trans, app, hframes, hframes, hawait, linked]
    exact h.order

/-- Retiring an entry that the send task is not about to transmit. -/
theorem retire (h : v.Delivered held) {o : Obs} (hsep : (v.retired b o).Separate held)
    (htype : (v.mem b).poll.type ≠ 0) (htask : v.sendTask ≠ .received b)
    (ho : transmitted0 [o] = [] ∧ appended0 [o] = []) : (v.retired b o).Delivered held := by
  have hnd := h.linked_nodup
  refine ⟨hsep, h.noPool, h.noMsg, ?_, ?_⟩
  · intro c hc
    have hcb : c ≠ b := fun heq => htask (heq ▸ hc)
    rw [retired_mem hcb]
    refine (h.received c hc).imp (fun ⟨ht, hf, hl, hh⟩ => ⟨ht, ?_, ?_, hh⟩) fun ⟨ht, hl⟩ => ⟨ht, ?_⟩
    · simpa [retired, hcb] using hf
    · exact fun hm => hl (List.mem_of_mem_erase hm)
    · exact (List.mem_erase_of_ne hcb).mpr hl
  · have hawait : frames0 (v.retired b o).mem v.awaiting = frames0 v.mem v.awaiting := by
      apply frames0_congr
      intro c hc
      have hcb : c ≠ b := by
        rintro rfl
        rw [h.awaiting_eq] at hc
        split at hc
        · rename_i hrecv
          exact htask (by rw [hrecv, List.mem_singleton.mp hc])
        · cases hc
      rw [retired_mem hcb]
      exact ⟨rfl, rfl⟩
    have hrest : frames0 (v.retired b o).mem (v.linked.erase b) =
        frames0 v.mem (v.linked.erase b) := frames0_congr fun c hc => by
        rw [retired_mem fun heq => hnd.not_mem_erase (heq ▸ hc)]
        exact ⟨rfl, rfl⟩
    have hlinked : frames0 v.mem (v.linked.erase b) = frames0 v.mem v.linked := by
      by_cases hb : b ∈ v.linked
      · obtain ⟨l, r, hl⟩ := List.append_of_mem hb
        rw [hl, erase_of_nodup_split (hl ▸ hnd)]
        simp [frames0_append, frames0_cons, htype]
      · rw [List.erase_of_not_mem hb]
    have hlog : transmitted0 (v.log ++ [o]) = transmitted0 v.log ∧
        appended0 (v.log ++ [o]) = appended0 v.log := by
      unfold transmitted0 appended0 at *
      simp [List.filterMap_append, ho]
    have horder := h.order
    rw [← hawait, ← hlinked, ← hrest, ← hlog.1, ← hlog.2] at horder
    exact horder

theorem post_log (v : Pool) (b : BufId) (p : UartPoll) :
    transmitted0 ((v.setPoll b p).osqPost b).log = transmitted0 v.log ∧
      appended0 ((v.setPoll b p).osqPost b).log = appended0 v.log := by
  rw [SendVars.osqPost_log]
  simp [transmitted0, appended0, SendVars.setPoll, SendVars.setMem]

/-- A post changes no type and no frame, as long as the new `poll` has the old type. -/
theorem post_frames {p : UartPoll} (hp : p.type = (v.mem b).poll.type) (bs : List BufId) :
    frames0 ((v.setPoll b p).osqPost b).mem bs = frames0 v.mem bs := by
  refine frames0_congr fun c _ => ⟨?_, by simp⟩
  rw [SendVars.osqPost_mem, SendVars.setPoll_type hp]

/-- A post to the waiting task. -/
theorem post_pending (h : v.Delivered held) (p : UartPoll) (hpend : v.sendTask = .pending) :
    ((v.setPoll b p).osqPost b).sendTask = .received b ∧
      ((v.setPoll b p).osqPost b).awaiting = [b] ∧
      ((v.setPoll b p).osqPost b).appUartSendMsg = [] ∧
      ((v.setPoll b p).osqPost b).msgPoolSize = 0 := by
  have hmsg : (v.setPoll b p).appUartSendMsg = [] := h.noMsg
  rw [SendVars.osqPost_pending (v.setPoll b p) b hpend]
  exact ⟨rfl, by simp [SendVars.awaiting, SendVars.record, hmsg], hmsg, h.noPool⟩

/-- A post of a polled entry. -/
theorem post (h : v.Delivered held) (hb : b ∈ v.linked) {p : UartPoll}
    (hp : p.type = (v.mem b).poll.type) (htype : (v.mem b).poll.type ≠ 0) :
    (v.withVars ((v.setPoll b p).osqPost b)).Delivered held := by
  have hlog := post_log v b p
  by_cases hpend : v.sendTask = .pending
  · obtain ⟨htask, hnew, hmsg, hpool⟩ := h.post_pending (b := b) p hpend
    refine ⟨h.toSeparate.congr rfl rfl, hpool, hmsg, ?_, ?_⟩
    · intro c hc
      obtain rfl : b = c := SendTask.received.inj (htask.symm.trans hc)
      refine .inr ⟨?_, hb⟩
      rw [withVars_vars, SendVars.osqPost_mem, SendVars.setPoll_type hp]
      exact htype
    · have hold : v.awaiting = [] := by simp [h.awaiting_eq, hpend]
      have horder := h.order
      rw [hold] at horder
      simp only [withVars_vars, withVars_linked, hlog, hnew, post_frames hp]
      simpa [frames0, htype] using horder
  · have hpost := SendVars.osqPost_noMsg (v.setPoll b p) b h.noPool hpend
    refine h.congr rfl rfl (by rw [withVars_vars, hpost]; rfl) (by rw [withVars_vars, hpost]; rfl)
      (fun c => ?_) (fun c => by simp) (fun c => by rw [withVars_vars, hpost]; rfl) hlog.1 hlog.2
    rw [withVars_vars, SendVars.osqPost_mem, SendVars.setPoll_type hp]

/-- The post of a type-0 entry, the first one on the list, to the waiting task. -/
theorem release {l r : List BufId} (h : v.Delivered held) (hl : v.linked = l ++ b :: r)
    (htypes : ∀ c ∈ l, (v.mem c).poll.type ≠ 0) (h0 : (v.mem b).poll.type = 0)
    (hpend : v.sendTask = .pending) {p : UartPoll} (hp : p.type = (v.mem b).poll.type) :
    (v.unlink b |>.withVars ((v.setPoll b p).osqPost b)).Delivered held := by
  have hb : b ∈ v.linked := by simp [hl]
  have herase : v.linked.erase b = l ++ r := by
    rw [hl]
    exact erase_of_nodup_split (hl ▸ h.linked_nodup)
  obtain ⟨htask, hnew, hmsg, hpool⟩ := h.post_pending (b := b) p hpend
  refine ⟨(h.toSeparate.unlink b).congr rfl rfl, hpool, hmsg, ?_, ?_⟩
  · intro c hc
    obtain rfl : b = c := SendTask.received.inj (htask.symm.trans hc)
    refine .inl ⟨?_, fun hf => h.free_linked b hf hb, h.linked_nodup.not_mem_erase,
      fun hh => (h.held_apart b hh).2 hb⟩
    simp [SendVars.setPoll_poll, hp, h0]
  · have hold : v.awaiting = [] := by simp [h.awaiting_eq, hpend]
    have horder := h.order
    rw [hold, hl, frames0_append, frames0_cons, if_pos h0, frames0_of_ne htypes] at horder
    simp only [withVars_vars, withVars_linked, unlink, herase, post_log, hnew, post_frames hp,
      frames0_append, frames0_of_ne htypes, frames0_cons, if_pos h0]
    simpa [frames0] using horder

theorem visit {l r : List BufId} (h : v.Delivered held) (hl : v.linked = l ++ b :: r)
    (htypes : ∀ c ∈ l, (v.mem c).poll.type ≠ 0)
    (hP : Delivers v.sendTask v.appUartSendMsg (pollVerdict (v.mem b).poll, b))
    (hw : v.pollStep (pollVerdict (v.mem b).poll, b) = some w) : w.Delivered held := by
  have hb : b ∈ v.linked := by simp [hl]
  have hsep : w.Separate held := h.toSeparate.of_pollStep hb hw
  have htype := pollVerdict_eq_release (p := (v.mem b).poll)
  generalize hk : pollVerdict (v.mem b).poll = k at hw hP htype
  cases k with
  | skip => cases hw; exact h
  | wait =>
      obtain rfl := Option.some.inj hw
      exact h.congr rfl rfl rfl rfl (fun c => SendVars.setPoll_type rfl) (fun c => by simp)
        (fun c => Iff.rfl) rfl rfl
  | answered =>
      obtain ⟨-, rfl⟩ := retire_eq hw
      exact h.retire hsep (fun h0 => by cases htype.mpr h0) (hP.2 (.inl rfl)) ⟨rfl, rfl⟩
  | expired =>
      obtain ⟨-, rfl⟩ := retire_eq hw
      exact h.retire hsep (fun h0 => by cases htype.mpr h0) (hP.2 (.inr rfl)) ⟨rfl, rfl⟩
  | first =>
      obtain rfl := Option.some.inj hw
      exact h.post hb rfl (fun h0 => by cases htype.mpr h0)
  | again =>
      obtain rfl := Option.some.inj hw
      exact h.post hb rfl (fun h0 => by cases htype.mpr h0)
  | release =>
      obtain rfl := Option.some.inj hw
      exact h.release hl htypes (htype.mp rfl) (hP.1 rfl) rfl

theorem inspect (h : v.Delivered held) (hfresh : v.Fresh held) (hw : v.sendInspect = some w) :
    w.Delivered held := by
  obtain ⟨b, hb, hflag, htype, hfree, rfl⟩ | ⟨b, hb, -, rfl⟩ | rfl := sendInspect_cases hw
  · obtain ⟨-, hlinked, hheld⟩ := hfresh b hb hflag htype
    refine ⟨h.toSeparate.recycled hfree hlinked hheld rfl rfl, h.noPool, h.noMsg, by simp, ?_⟩
    have hawait : v.awaiting = [] := by simp [h.awaiting_eq, hb]
    have hsame : frames0 (v.setPoll b .zero).mem v.linked = frames0 v.mem v.linked :=
      frames0_congr fun c hc => by
        have hcb : c ≠ b := fun heq => hlinked (heq ▸ hc)
        simp [SendVars.setPoll_poll, hcb]
    have horder := h.order
    rw [hawait, ← hsame] at horder
    simpa [SendVars.awaiting, SendVars.setPoll, SendVars.setMem, h.noMsg, frames0] using horder
  · exact h.congr rfl rfl rfl rfl (fun _ => rfl) (fun _ => rfl) (fun c => by simp [hb]) rfl rfl
  · exact h

theorem transmit (h : v.Delivered held) : (v.withVars v.appUsartTransmit).Delivered held := by
  cases htask : v.sendTask with
  | received b =>
      have hw : v.appUsartTransmit =
          { v.record (.transmitted b (v.mem b).poll.type (v.mem b).frame) with
            sendTask := .transmitting b } := by
        simp [SendVars.appUsartTransmit, htask]
      rw [hw]
      refine ⟨h.toSeparate.congr rfl rfl, h.noPool, h.noMsg, by simp, ?_⟩
      have happ : appended0 (v.log ++ [.transmitted b (v.mem b).poll.type (v.mem b).frame]) =
          appended0 v.log := by simp [appended0]
      have horder := h.order
      rw [h.awaiting_eq, htask] at horder
      dsimp only at horder
      rw [frames0_cons] at horder
      simp only [withVars_vars, withVars_linked, SendVars.record, SendVars.awaiting, h.noMsg,
        transmitted0_append, happ]
      simpa [frames0_cons, frames0] using horder
  | ready | pending | transmitting | inspecting =>
      have hw : v.appUsartTransmit = v.toSendVars := by simp [SendVars.appUsartTransmit, htask]
      rw [hw]
      exact h

theorem closed : Closed Delivered Delivers where
  separate h := h.toSeparate
  take x h hfree := h.take x hfree
  fill call h hb := h.fill call hb
  link h hb := h.link hb
  visit h hl htypes hP _ hw := h.visit hl htypes hP hw
  inspect h hfresh _ hw := h.inspect hfresh hw
  pend {v held} h := by
    have hpend : v.osqPend = v.toSendVars ∨
        v.sendTask = .ready ∧ v.osqPend = { v.toSendVars with sendTask := .pending } := by
      unfold SendVars.osqPend
      split
      · rename_i htask
        exact .inr ⟨htask, by simp [h.noMsg]⟩
      · exact .inl rfl
    rcases hpend with hw | ⟨htask, hw⟩
    · rw [hw]
      exact h
    · rw [hw]
      exact h.congr rfl rfl rfl rfl (fun _ => rfl) (fun _ => rfl) (fun c => by simp [htask]) rfl rfl
  transmit h := h.transmit
  complete {v held} h := by
    unfold SendVars.uartTxCallback
    split
    · rename_i b htask
      exact h.congr rfl rfl rfl rfl (fun _ => rfl) (fun _ => rfl) (fun c => by simp [htask]) rfl rfl
    · exact h
  answer {v held} sn h := by
    unfold markAnswered
    split
    · rename_i b _
      exact h.congr rfl rfl rfl rfl (fun c => SendVars.setPoll_type rfl) (fun c => by simp)
        (fun _ => Iff.rfl) rfl rfl
    · exact h
  otherMsgs {v held} n h := by
    unfold SendVars.otherMsgs
    split
    · exact h.congr rfl rfl rfl rfl (fun _ => rfl) (fun _ => rfl) (fun _ => Iff.rfl) rfl rfl
    · exact h

theorem boot (mem : BufId → UartSendFormat) : (Pool.boot mem 0).Delivered fun _ => False where
  toSeparate := Separate.boot mem 0
  noPool := rfl
  noMsg := rfl
  received := by simp [Pool.boot]
  order := rfl

end Delivered

end Pool

/-- Where every event is clean, no type-0 frame is posted to a busy send task and
no entry is retired between its post and its transmission, **the type-0 frames
are delivered once and in order**. -/
theorem type0_in_order (heap : Heap) (mem : BufId → UartSendFormat) (es : List Event)
    (guarded : Sys.GuardedFrom (fun s e => s.Clean Delivers e) heap mem 0 es) :
    ∃ s, Sys.runFrom heap mem 0 es = some s ∧ s.InOrder := by
  obtain ⟨s, v, hrun, hrep, hok⟩ := Sys.run_ok Pool.Delivered.closed
    (fun _ _ _ hrep _ h => hrep.clean h) (Pool.Delivered.boot mem) guarded
  refine ⟨s, hrun, ?_⟩
  unfold Sys.InOrder
  rw [hrep.st.linkedBufs, hrep.st.vars]
  exact hok.pool.order

theorem type0_in_order_mixedReplies :
    ∃ s, Sys.runFrom Sys.blankHeap Sys.blankMem 0 Sys.mixedReplies = some s ∧
      (transmitted0 s.st.log).length = 2 ∧ s.InOrder := by
  obtain ⟨s, hrun, hsent⟩ := Sys.exists_run 0 Sys.mixedReplies
    (fun s => decide ((transmitted0 s.st.log).length = 2)) (by decide +kernel)
  obtain ⟨s', hrun', horder⟩ :=
    type0_in_order Sys.blankHeap Sys.blankMem Sys.mixedReplies (by decide +kernel)
  obtain rfl : s = s' := Option.some.inj (hrun.symm.trans hrun')
  exact ⟨s, hrun, of_decide_eq_true hsent, horder⟩

/-- The second answer is posted while the first one is on the wire: its frame is
never transmitted. -/
theorem second_reply_lost :
    ¬ ∀ heap mem es s, Sys.runFrom heap mem 0 es = some s → s.InOrder := by
  intro h
  obtain ⟨s, hrun, hlost⟩ := Sys.exists_run 0 Sys.twoReplies
    (fun s => decide (¬ s.InOrder)) (by decide +kernel)
  exact of_decide_eq_true hlost (h _ _ _ s hrun)

end WifiExpander
