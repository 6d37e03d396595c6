import WifiExpander.SendPath
import WifiExpander.Theory.Machine
import Mathlib.Data.Fintype.Card

/-!
The send path on sequences, and that the code implements it.

A `Pool` is the send path with the free list and the send list as sequences of
buffers. Its operations fail where the code would insert a node that is already
on the list. `Tx.Rep` relates the pointer structures to a pool, and every
operation of the code is shown to follow its counterpart here. A period of the
poll task is a run of small steps, one for each entry it visits, which
`pollPlan` reads off the list before the period starts.
-/

namespace WifiExpander

open WifiExpander.Theory

/-! ### Pools -/

structure Pool extends SendVars where
  free : List BufId
  linked : List BufId
  /-- the buffers whose `list.owner` has been set -/
  owned : BufId → Bool

namespace Pool

/-- The same lists with other variables. -/
def withVars (v : Pool) (w : SendVars) : Pool := ⟨w, v.free, v.linked, v.owned⟩

@[simp] theorem withVars_vars (v : Pool) (w : SendVars) : (v.withVars w).toSendVars = w := rfl

@[simp] theorem withVars_free (v : Pool) (w : SendVars) : (v.withVars w).free = v.free := rfl

@[simp] theorem withVars_linked (v : Pool) (w : SendVars) : (v.withVars w).linked = v.linked := rfl

@[simp] theorem withVars_owned (v : Pool) (w : SendVars) : (v.withVars w).owned = v.owned := rfl

def takeBuf (x : Static) (v : Pool) : Option BufId × Pool :=
  match v.free with
  | [] => (none, v)
  | b :: rest =>
      (some b,
        { v with
          free := rest
          statics := Function.update v.statics x (some b)
          mem := Function.update v.mem b { v.mem b with buf := some b } })

def fillBuf (x : Static) (fill : UartSendFormat → UartSendFormat) (v : Pool) : Option Pool := do
  let b ← v.statics x
  some ⟨v.setMem b (fill (v.mem b)), v.free, v.linked, Function.update v.owned b true⟩

def fillDispose (info : SendInfo) (v : Pool) : Option Pool := do
  let v' ← v.fillBuf .disSendpdata (disposeFill info v.uartSendSn)
  some { v' with uartSendSn := v.uartSendSn + 1 }

def linkEntry (x : Static) (v : Pool) : Option Pool := do
  let b ← v.statics x
  if b ∈ v.linked ∨ v.owned b = false then none
  else
    some ⟨v.record (.linked b (v.mem b).poll.type (v.mem b).frame), v.free, v.linked ++ [b],
      v.owned⟩

def unlink (v : Pool) (b : BufId) : Pool := { v with linked := v.linked.erase b }

def recycle (v : Pool) (b : BufId) : Option Pool :=
  if b ∈ v.free then none
  else some ⟨v.setPoll b .zero, v.free ++ [b], v.linked, v.owned⟩

def sendInspect (v : Pool) : Option Pool :=
  match v.sendTask with
  | .inspecting b =>
      if (v.mem b).poll.freeFlag ≠ 0 ∧ (v.mem b).poll.type = 0 then do
        let v ← v.recycle b
        some { v with sendTask := .ready }
      else some { v with sendTask := .ready }
  | _ => some v

/-- The frame in buffer `b` has this sequence number and command. -/
def answeredBy (v : Pool) (sn cmdId : UInt8) (b : BufId) : Bool :=
  sn = hdrSn (v.mem b).cmd ∧ cmdId = hdrCmdId (v.mem b).cmd

def markAnswered (sn cmdId : UInt8) (v : Pool) : Pool :=
  match v.linked.find? (v.answeredBy sn cmdId) with
  | some b => v.withVars (v.setPoll b { (v.mem b).poll with freeFlag := 1 })
  | none => v

end Pool

/-! ### The periods of the poll task -/

/-- What the poll task does with an entry. -/
inductive PollVerdict where
  /-- neither type: left alone -/
  | skip
  /-- waiting for its answer -/
  | wait
  /-- answered: recycled -/
  | answered
  /-- posted three times without an answer: recycled -/
  | expired
  /-- type 0: posted and unlinked -/
  | release
  /-- type 1, posted for the first time -/
  | first
  /-- type 1, posted again -/
  | again
deriving DecidableEq

def pollVerdict (p : UartPoll) : PollVerdict :=
  if p.type = 0 then .release
  else if p.type = 1 then
    if p.times = 0 then .first
    else if p.freeFlag ≠ 0 then .answered
    else if p.delay + 5 ≥ 500 then
      if p.times + 1 > 3 then .expired else .again
    else .wait
  else .skip

/-- The poll task posts and unlinks exactly the entries of type 0. -/
theorem pollVerdict_eq_release {p : UartPoll} : pollVerdict p = .release ↔ p.type = 0 := by
  refine ⟨?_, fun h => by simp [pollVerdict, h]⟩
  intro h
  by_contra h0
  simp only [pollVerdict, if_neg h0] at h
  split at h
  · split at h
    · cases h
    · split at h
      · cases h
      · split at h
        · split at h <;> cases h
        · cases h
  · cases h

/-- A period ends with the first post. -/
def PollVerdict.posts : PollVerdict → Bool
  | .release | .first | .again => true
  | _ => false

/-- The entries a period visits, with what it does. -/
def pollPlan (mem : BufId → UartSendFormat) : List BufId → List (PollVerdict × BufId)
  | [] => []
  | b :: rest =>
      let k := pollVerdict (mem b).poll
      if k.posts then [(k, b)] else (k, b) :: pollPlan mem rest

namespace Pool

/-- A period's visit to one entry. -/
def pollStep (v : Pool) : PollVerdict × BufId → Option Pool
  | (.skip, _) => some v
  | (.wait, b) =>
      let poll := (v.mem b).poll
      some (v.withVars (v.setPoll b { poll with delay := poll.delay + 5 }))
  | (.answered, b) => (v.unlink b |>.withVars (v.record (.answered b (v.mem b).frame))).recycle b
  | (.expired, b) => (v.unlink b |>.withVars (v.record (.expired b (v.mem b).frame))).recycle b
  | (.release, b) =>
      let poll := (v.mem b).poll
      some (v.unlink b |>.withVars ((v.setPoll b { poll with freeFlag := 1 }).osqPost b))
  | (.first, b) =>
      let poll := (v.mem b).poll
      some (v.withVars ((v.setPoll b { poll with times := poll.times + 1 }).osqPost b))
  | (.again, b) =>
      let poll := (v.mem b).poll
      some (v.withVars ((v.setPoll b { poll with delay := 0, times := poll.times + 1 }).osqPost b))

/-- The visits of a period, as a machine. -/
def polls : Machine Pool (PollVerdict × BufId) := ⟨pollStep⟩

def pollTick (v : Pool) : Option Pool := polls.run v (pollPlan v.mem v.linked)

/-- The pool after `uart_context_init`. -/
def boot (mem : BufId → UartSendFormat) (msgPoolSize : Nat) : Pool where
  mem
  uartSendSn := 0
  statics := fun _ => none
  sendTask := .ready
  appUartSendMsg := []
  msgPoolSize
  msgElsewhere := 0
  log := []
  free := List.finRange _
  linked := []
  owned := fun _ => false

end Pool

/-! ### Small lemmas about the variables -/

namespace SendVars

variable (s : SendVars) (b c : BufId) (f : UartSendFormat) (p : UartPoll) (o : Obs)

theorem setMem_mem : (s.setMem b f).mem c = if c = b then f else s.mem c := by
  simp [setMem, Function.update_apply]

@[simp] theorem setPoll_buf : ((s.setPoll b p).mem c).buf = (s.mem c).buf := by
  simp only [setPoll, setMem_mem]
  split <;> simp_all

@[simp] theorem setPoll_frame : ((s.setPoll b p).mem c).frame = (s.mem c).frame := by
  simp only [setPoll, setMem_mem]
  split <;> simp_all [UartSendFormat.frame]

@[simp] theorem setPoll_cmd : ((s.setPoll b p).mem c).cmd = (s.mem c).cmd := by
  simp only [setPoll, setMem_mem]
  split <;> simp_all

@[simp] theorem setPoll_log : (s.setPoll b p).log = s.log := rfl

theorem setPoll_poll : ((s.setPoll b p).mem c).poll = if c = b then p else (s.mem c).poll := by
  simp only [setPoll, setMem_mem]
  split <;> simp_all

/-- Writing `poll` with its old type changes no type. -/
theorem setPoll_type {s : SendVars} {b c : BufId} {p : UartPoll}
    (hp : p.type = (s.mem b).poll.type) :
    ((s.setPoll b p).mem c).poll.type = (s.mem c).poll.type := by
  rw [setPoll_poll]
  split
  · rename_i hcb
    rw [hcb, hp]
  · rfl

@[simp] theorem record_mem : (s.record o).mem = s.mem := rfl

@[simp] theorem osqPost_mem : (s.osqPost b).mem = s.mem := by
  unfold osqPost
  dsimp only
  split
  · rfl
  · split <;> rfl

@[simp] theorem osqPost_log : (s.osqPost b).log =
    s.log ++ [.posted b (s.mem b).poll.type (s.mem b).frame] := by
  unfold osqPost
  dsimp only
  split
  · rfl
  · split <;> rfl

/-- A post to the waiting task. -/
theorem osqPost_pending (h : s.sendTask = .pending) : s.osqPost b =
    { s.record (.posted b (s.mem b).poll.type (s.mem b).frame) with sendTask := .received b } := by
  unfold osqPost
  exact if_pos h

/-- Without `OS_MSG` elements a post to a task that does not wait is lost. -/
theorem osqPost_noMsg (hpool : s.msgPoolSize = 0) (h : s.sendTask ≠ .pending) : s.osqPost b =
    s.record (.posted b (s.mem b).poll.type (s.mem b).frame) := by
  have h' : (s.record (.posted b (s.mem b).poll.type (s.mem b).frame)).sendTask ≠ .pending := h
  unfold osqPost
  dsimp only
  rw [if_neg h']
  have hfree : (s.record (.posted b (s.mem b).poll.type (s.mem b).frame)).nbrFree = 0 := by
    simp [nbrFree, record, hpool]
  simp only [osMsgQPut, hfree, if_true]
  split
  · rename_i hput
    split at hput <;> cases hput
  · rfl

@[simp] theorem osqPend_mem : s.osqPend.mem = s.mem := by
  unfold osqPend
  split
  · split <;> rfl
  · rfl

@[simp] theorem appUsartTransmit_mem : s.appUsartTransmit.mem = s.mem := by
  unfold appUsartTransmit; split <;> rfl

@[simp] theorem uartTxCallback_mem : s.uartTxCallback.mem = s.mem := by
  unfold uartTxCallback; split <;> rfl

@[simp] theorem otherMsgs_mem (n : Nat) : (s.otherMsgs n).mem = s.mem := by
  unfold otherMsgs; split <;> rfl

end SendVars

@[simp] theorem disposeFill_buf (info : SendInfo) (sn : UInt8) (f : UartSendFormat) :
    (disposeFill info sn f).buf = f.buf := rfl

@[simp] theorem askFill_buf (cmdId : UInt8) (req : Mem) (ans : List UInt8) (f : UartSendFormat) :
    (askFill cmdId req ans f).buf = f.buf := rfl

@[simp] theorem forwardFill_buf (c : Mem) (f : UartSendFormat) :
    (forwardFill c f).buf = f.buf := rfl

/-! ### Representation -/

/-- The code's state `s` implements the pool `v`. -/
structure Tx.Rep (s : Tx) (v : Pool) : Prop where
  vars : s.toSendVars = v.toSendVars
  factory : Factory s.heap v.free
  sendList : IsList s.heap .sendList (v.linked.map .entry)
  owner : ∀ b, v.owned b = true → (s.heap (.entry b)).owner = some (.send b)
  owned : ∀ b ∈ v.linked, v.owned b = true
  buf : ∀ b, b ∉ v.free → (v.mem b).buf = some b

namespace Tx.Rep

variable {s : Tx} {v v' : Pool} {b : BufId} {x : Static} {l r : List BufId}

theorem entry_injective : Function.Injective Addr.entry := fun _ _ h => Addr.entry.inj h

theorem nodup_linked (h : Rep s v) : v.linked.Nodup := h.sendList.nodup.of_map

theorem nodup_free (h : Rep s v) : v.free.Nodup := h.factory.nodup

theorem mem_eq (h : Rep s v) : s.mem = v.mem := congrArg SendVars.mem h.vars

theorem statics_eq (h : Rep s v) : s.statics = v.statics := congrArg SendVars.statics h.vars

theorem sendTask_eq (h : Rep s v) : s.sendTask = v.sendTask := congrArg SendVars.sendTask h.vars

/-- The same change of the variables on both sides. -/
theorem withVars (h : Rep s v) {w : SendVars}
    (hbuf : ∀ b, (v.mem b).buf = some b → (w.mem b).buf = some b) :
    Rep (s.withVars w) (v.withVars w) :=
  ⟨rfl, h.factory, h.sendList, h.owner, h.owned, fun b hb => hbuf b (h.buf b hb)⟩

/-- A pointer write outside the free list leaves the factory as it is. -/
theorem apart_sendList (h : Rep s v) {heap : Heap}
    (same : ∀ a, Factory.Apart a → heap a = s.heap a) :
    IsList heap .sendList (v.linked.map .entry) := by
  refine h.sendList.congr fun a ha => same a ?_
  rcases List.mem_cons.mp ha with rfl | ha
  · exact .sendList
  · obtain ⟨b, -, rfl⟩ := List.mem_map.mp ha
    exact .entry b

theorem apart_owner (h : Rep s v) {heap : Heap}
    (same : ∀ a, Factory.Apart a → heap a = s.heap a) (b : BufId) (hb : v.owned b = true) :
    (heap (.entry b)).owner = some (.send b) := by
  rw [same _ (.entry b)]
  exact h.owner b hb

theorem takeBuf (h : Rep s v) (x : Static) :
    ∃ s', s.takeBuf x = some ((v.takeBuf x).1, s') ∧ Rep s' (v.takeBuf x).2 := by
  cases hfree : v.free with
  | nil =>
      have hf : Factory s.heap [] := hfree ▸ h.factory
      refine ⟨s, by simp [Tx.takeBuf, hf.produce_nil, Pool.takeBuf, hfree], ?_⟩
      simpa [Pool.takeBuf, hfree] using h
  | cons b rest =>
      have hf : Factory s.heap (b :: rest) := hfree ▸ h.factory
      obtain ⟨heap, hproduce, hfactory, hframe⟩ := hf.produce_cons
      refine ⟨_, by simp [Tx.takeBuf, hproduce, Pool.takeBuf, hfree]; rfl, ?_⟩
      simp only [Pool.takeBuf, hfree]
      refine ⟨by simp [h.vars], hfactory, h.apart_sendList hframe, h.apart_owner hframe, h.owned,
        ?_⟩
      intro c hc
      dsimp only at hc ⊢
      rw [Function.update_apply]
      split
      · simp_all
      · rename_i hne
        exact h.buf c (by rw [hfree]; simpa [hne] using hc)

theorem fillBuf (h : Rep s v) {fill : UartSendFormat → UartSendFormat}
    (hfill : ∀ f, (fill f).buf = f.buf) (hv : v.fillBuf x fill = some v') :
    ∃ s', s.fillBuf x fill = some s' ∧ Rep s' v' := by
  cases hx : v.statics x with
  | none => simp [Pool.fillBuf, hx] at hv
  | some b =>
      simp only [Pool.fillBuf, hx, Option.bind_eq_bind, Option.bind_some, Option.some.injEq] at hv
      subst hv
      refine ⟨_, by simp [Tx.fillBuf, h.statics_eq, hx]; rfl, ?_⟩
      refine ⟨by simp [h.vars], h.factory.congr ?_ ?_, h.sendList.congr_links fun a _ => by simp,
        ?_, ?_, ?_⟩
      · simp [ListHeap.setOwner]
      · intro c
        simp [ListHeap.setOwner]
      · intro c hc
        dsimp only at hc ⊢
        rw [ListHeap.setOwner_owner]
        split
        · simp_all
        · rename_i hne
          refine h.owner c ?_
          rwa [Function.update_of_ne (fun heq => hne (by rw [heq]))] at hc
      · intro c hc
        dsimp only
        rw [Function.update_apply]
        split
        · rfl
        · exact h.owned c hc
      · intro c hc
        simp only [SendVars.setMem_mem]
        split
        · rename_i heq
          subst heq
          rw [hfill]
          exact h.buf c hc
        · exact h.buf c hc

theorem fillDispose (h : Rep s v) {info : SendInfo} (hv : v.fillDispose info = some v') :
    ∃ s', s.fillDispose info = some s' ∧ Rep s' v' := by
  obtain ⟨w, hw, rfl⟩ : ∃ w, v.fillBuf .disSendpdata (disposeFill info v.uartSendSn) = some w ∧
      { w with uartSendSn := v.uartSendSn + 1 } = v' := by
    simpa [Pool.fillDispose, Option.bind_eq_some_iff] using hv
  obtain ⟨s', hs', hrep⟩ := h.fillBuf (fun f => disposeFill_buf info v.uartSendSn f) hw
  have hsn : s.uartSendSn = v.uartSendSn := congrArg SendVars.uartSendSn h.vars
  refine ⟨{ s' with uartSendSn := s.uartSendSn + 1 }, by simp [Tx.fillDispose, hsn, hs'], ?_⟩
  exact ⟨by simp [hrep.vars, hsn], hrep.factory, hrep.sendList, hrep.owner, hrep.owned, hrep.buf⟩

/-- Writing the links of entries does not touch the factory. -/
theorem factory_of_frame (h : Rep s v) {heap : Heap}
    (howner : ∀ a, (heap a).owner = (s.heap a).owner)
    (hframe : ∀ a, (∀ b, a ≠ .entry b) → a ≠ .sendList → heap a = s.heap a) :
    Factory heap v.free ∧ ∀ b, v.owned b = true → (heap (.entry b)).owner = some (.send b) :=
  ⟨h.factory.congr (hframe _ (by simp) (by simp)) fun c => hframe _ (by simp) (by simp),
    fun c hc => by rw [howner]; exact h.owner c hc⟩

theorem linkEntry (h : Rep s v) (hv : v.linkEntry x = some v') :
    ∃ s', s.linkEntry x = some s' ∧ Rep s' v' := by
  cases hx : v.statics x with
  | none => simp [Pool.linkEntry, hx] at hv
  | some b =>
      by_cases hb : b ∈ v.linked ∨ v.owned b = false
      · simp [Pool.linkEntry, hx, hb] at hv
      · simp only [Pool.linkEntry, hx, Option.bind_eq_bind, Option.bind_some, if_neg hb,
          Option.some.injEq] at hv
        subst hv
        obtain ⟨hlinked, howned⟩ := not_or.mp hb
        have hfresh : Addr.entry b ∉ Addr.sendList :: v.linked.map .entry := by
          simpa [List.mem_map_of_injective entry_injective] using hlinked
        obtain ⟨heap, hadd, hlist, howner, hframe⟩ := h.sendList.listAddTail hfresh
        have hrest := h.factory_of_frame howner fun a ha hs => hframe a (ha b) fun hmem => by
          rcases List.mem_cons.mp hmem with hmem | hmem
          · exact hs hmem
          · obtain ⟨c, -, hc⟩ := List.mem_map.mp hmem
            exact ha c hc.symm
        refine ⟨_, by simp [Tx.linkEntry, h.statics_eq, hx, hadd]; rfl, ?_⟩
        refine ⟨by simp [h.vars], hrest.1, by simpa using hlist, hrest.2, ?_, h.buf⟩
        intro c hc
        rcases List.mem_append.mp hc with hc | hc
        · exact h.owned c hc
        · rw [List.mem_singleton.mp hc]
          simpa using howned

theorem recycle (h : Rep s v) (hv : v.recycle b = some v') :
    ∃ s', s.recycle b = some s' ∧ Rep s' v' := by
  by_cases hb : b ∈ v.free
  · simp [Pool.recycle, hb] at hv
  · simp only [Pool.recycle, if_neg hb, Option.some.injEq] at hv
    subst hv
    obtain ⟨heap, hrecycle, hfactory, hframe⟩ := h.factory.recycle hb
    have hbuf : (s.mem b).buf = some b := by rw [h.mem_eq]; exact h.buf b hb
    refine ⟨_, by simp [Tx.recycle, hbuf, hrecycle]; rfl, ?_⟩
    refine ⟨by simp [h.vars], hfactory, h.apart_sendList hframe, h.apart_owner hframe, h.owned, ?_⟩
    intro c hc
    simp only [SendVars.setPoll_buf]
    exact h.buf c fun hc' => hc (by simp [hc'])

theorem sendInspect (h : Rep s v) (hv : v.sendInspect = some v') :
    ∃ s', s.sendInspect = some s' ∧ Rep s' v' := by
  unfold Pool.sendInspect at hv
  unfold Tx.sendInspect
  rw [h.sendTask_eq, h.mem_eq]
  cases htask : v.sendTask with
  | inspecting b =>
      simp only [htask] at hv ⊢
      by_cases hcond : (v.mem b).poll.freeFlag ≠ 0 ∧ (v.mem b).poll.type = 0
      · rw [if_pos hcond] at hv ⊢
        obtain ⟨w, hw, hend⟩ := Option.bind_eq_some_iff.mp hv
        obtain rfl := Option.some.inj hend
        obtain ⟨s', hs', hrep⟩ := h.recycle hw
        refine ⟨{ s' with sendTask := .ready }, ?_, by simp [hrep.vars], hrep.factory,
          hrep.sendList, hrep.owner, hrep.owned, hrep.buf⟩
        simp only [hs', Option.bind_eq_bind, Option.bind_some]
      · rw [if_neg hcond] at hv ⊢
        obtain rfl := Option.some.inj hv
        exact ⟨_, rfl, by simp [h.vars], h.factory, h.sendList, h.owner, h.owned, h.buf⟩
  | ready | pending | received | transmitting =>
      simp only [htask] at hv ⊢
      obtain rfl := Option.some.inj hv
      exact ⟨s, rfl, h⟩

/-! #### A period of the poll task -/

/-- The list element at the front of a part of the send list. -/
def entryAt : List BufId → Addr
  | [] => .sendList
  | b :: _ => .entry b

theorem entryAt_eq (r : List BufId) :
    entryAt r = (r.map Addr.entry ++ [Addr.sendList]).head (by simp) := by
  cases r <;> rfl

theorem next_entry (h : Rep s v) (hl : v.linked = l ++ b :: r) :
    (s.heap (.entry b)).next = some (entryAt r) := by
  have hlist := h.sendList
  rw [hl, List.map_append, List.map_cons] at hlist
  rw [entryAt_eq]
  exact IsRing.next_of_split hlist

theorem next_head (h : Rep s v) : (s.heap .sendList).next = some (entryAt v.linked) := by
  rw [entryAt_eq]
  exact IsRing.next_head h.sendList

theorem ownerEntry (h : Rep s v) (hb : b ∈ v.linked) : s.ownerEntry (.entry b) = some b := by
  simp [Tx.ownerEntry, h.owner b (h.owned b hb)]

/-- `p = p->next; list_del(p->prev)` unlinks the entry and goes on to the next. -/
theorem nextDel (h : Rep s v) (hl : v.linked = l ++ b :: r) :
    ∃ s', s.nextDel (.entry b) = some (entryAt r, s') ∧ Rep s' (v.unlink b) := by
  have hlist : IsList s.heap .sendList (l.map .entry ++ Addr.entry b :: r.map .entry) := by
    simpa [hl] using h.sendList
  obtain ⟨heap, hdel, hlist', -, -, howner, hframe⟩ := hlist.listDel
  have hn : r.map Addr.entry ++ [Addr.sendList] =
      entryAt r :: (r.map Addr.entry ++ [Addr.sendList]).tail := by
    rw [entryAt_eq, List.cons_head_tail]
  have hlinked : Linked (fun a => (s.heap a).next) (fun a => (s.heap a).prev)
      (.entry b) (entryAt r) := by
    refine IsRing.linked_of_split (l := l.map .entry ++ [Addr.entry b]) (r := r.map .entry)
      (u := Addr.sendList :: l.map .entry) ?_ (by simp) hn
    simpa [IsList] using hlist
  have hrest := h.factory_of_frame howner fun a ha hs => hframe a fun hmem => by
    rcases List.mem_cons.mp hmem with hmem | hmem
    · exact hs hmem
    · have : a ∈ (l ++ b :: r).map Addr.entry := by simpa using hmem
      obtain ⟨c, -, hc⟩ := List.mem_map.mp this
      exact ha c hc.symm
  have herase : v.linked.erase b = l ++ r := by
    rw [hl]
    exact erase_of_nodup_split (hl ▸ h.nodup_linked)
  refine ⟨{ s with heap }, ?_, h.vars, hrest.1, ?_, hrest.2, ?_, h.buf⟩
  · simp [Tx.nextDel, hlinked.1, hlinked.2, hdel]
  · simpa [Pool.unlink, herase] using hlist'
  · intro c hc
    exact h.owned c (List.mem_of_mem_erase hc)

end Tx.Rep

/-- The plan for a part of the list depends only on the entries there. -/
theorem pollPlan_congr {mem mem' : BufId → UartSendFormat} {r : List BufId}
    (same : ∀ b ∈ r, (mem b).poll = (mem' b).poll) : pollPlan mem r = pollPlan mem' r := by
  induction r with
  | nil => rfl
  | cons b r ih =>
      rw [pollPlan, pollPlan, same b List.mem_cons_self,
        ih fun c hc => same c (List.mem_cons_of_mem _ hc)]

/-- A period visits entries of the list only. -/
theorem mem_of_mem_pollPlan {mem : BufId → UartSendFormat} {r : List BufId}
    {e : PollVerdict × BufId} (he : e ∈ pollPlan mem r) : e.2 ∈ r := by
  induction r with
  | nil => simp [pollPlan] at he
  | cons b r ih =>
      rw [pollPlan] at he
      split at he
      · rw [List.mem_singleton.mp he]
        exact List.mem_cons_self
      · rcases List.mem_cons.mp he with rfl | he
        · exact List.mem_cons_self
        · exact List.mem_cons_of_mem _ (ih he)

theorem Pool.polls_cons {v v' : Pool} {e : PollVerdict × BufId} {es : List (PollVerdict × BufId)} :
    Pool.polls.run v (e :: es) = some v' ↔
      ∃ w, v.pollStep e = some w ∧ Pool.polls.run w es = some v' := Machine.run_cons

namespace Pool

variable {v w : Pool} {b c : BufId} {k : PollVerdict}

theorem recycle_setPoll (v : Pool) (b : BufId) (p : UartPoll) :
    (v.withVars (v.setPoll b p)).recycle b = v.recycle b := by
  simp [recycle, SendVars.setPoll, SendVars.setMem]

theorem recycle_of_notMem (h : b ∉ v.free) :
    v.recycle b = some ⟨v.setPoll b .zero, v.free ++ [b], v.linked, v.owned⟩ := by
  rw [recycle, if_neg h]

theorem recycle_eq (h : v.recycle b = some w) :
    b ∉ v.free ∧ w = ⟨v.setPoll b .zero, v.free ++ [b], v.linked, v.owned⟩ := by
  unfold recycle at h
  split at h
  · cases h
  · exact ⟨‹_›, (Option.some.inj h).symm⟩

/-- The pool after an entry was unlinked and recycled. -/
def retired (v : Pool) (b : BufId) (o : Obs) : Pool :=
  ⟨(v.record o).setPoll b .zero, v.free ++ [b], v.linked.erase b, v.owned⟩

theorem retire_eq {o : Obs} (h : (v.unlink b |>.withVars (v.record o)).recycle b = some w) :
    b ∉ v.free ∧ w = v.retired b o := recycle_eq h

theorem retired_mem {o : Obs} (hne : c ≠ b) : (v.retired b o).mem c = v.mem c := by
  simp [retired, SendVars.setPoll, SendVars.setMem, hne]

/-- A visit changes no other buffer. -/
theorem pollStep_mem (h : v.pollStep (k, b) = some w) (hne : c ≠ b) : w.mem c = v.mem c := by
  cases k with
  | skip => cases h; rfl
  | answered | expired =>
      obtain ⟨-, rfl⟩ := recycle_eq h
      simp [SendVars.setPoll, SendVars.setMem_mem, hne]
  | wait | release | first | again =>
      obtain rfl := Option.some.inj h
      simp [SendVars.setPoll, SendVars.setMem_mem, hne]

/-- A visit changes no plan for a list without its entry. -/
theorem pollPlan_of_step {r : List BufId} (h : v.pollStep (k, b) = some w) (hb : b ∉ r) :
    pollPlan w.mem r = pollPlan v.mem r := by
  apply pollPlan_congr
  intro c hc
  have hne : c ≠ b := fun heq => hb (heq ▸ hc)
  rw [pollStep_mem h hne]

/-- A visit to the entry after `l` leaves the rest of the list. -/
theorem pollStep_linked {l r : List BufId} (h : v.pollStep (k, b) = some w)
    (hl : v.linked = l ++ b :: r) (hnd : v.linked.Nodup) :
    ∃ l', w.linked = l' ++ r ∧ ∀ c ∈ l', c ∈ l ∨ c = b := by
  have herase : v.linked.erase b = l ++ r := by
    rw [hl]
    exact erase_of_nodup_split (hl ▸ hnd)
  have hstay : v.linked = (l ++ [b]) ++ r ∧ ∀ c ∈ l ++ [b], c ∈ l ∨ c = b := by
    constructor
    · simp [hl]
    · intro c hc
      simpa using hc
  cases k with
  | skip => cases h; exact ⟨_, hstay⟩
  | answered | expired => obtain ⟨-, rfl⟩ := recycle_eq h; exact ⟨l, herase, fun c hc => .inl hc⟩
  | release => obtain rfl := Option.some.inj h; exact ⟨l, herase, fun c hc => .inl hc⟩
  | wait | first | again => obtain rfl := Option.some.inj h; exact ⟨_, hstay⟩

/-- A visit that does not post leaves the send task and its queue alone. -/
theorem pollStep_task (h : v.pollStep (k, b) = some w) (hk : k.posts = false) :
    w.sendTask = v.sendTask ∧ w.appUartSendMsg = v.appUartSendMsg := by
  cases k with
  | skip => cases h; exact ⟨rfl, rfl⟩
  | wait => obtain rfl := Option.some.inj h; exact ⟨rfl, rfl⟩
  | answered | expired => obtain ⟨-, rfl⟩ := recycle_eq h; exact ⟨rfl, rfl⟩
  | release | first | again => cases hk

/-- An entry that stays on the list after a visit is not of type 0. -/
theorem pollStep_stays (h : v.pollStep (pollVerdict (v.mem b).poll, b) = some w)
    (hk : (pollVerdict (v.mem b).poll).posts = false) (hb : b ∈ w.linked)
    (hnd : v.linked.Nodup) : (w.mem b).poll.type ≠ 0 := by
  have htype : (v.mem b).poll.type ≠ 0 := by
    intro h0
    simp [pollVerdict, h0, PollVerdict.posts] at hk
  generalize hv : pollVerdict (v.mem b).poll = k at h hk
  cases k with
  | skip => cases h; exact htype
  | wait =>
      obtain rfl := Option.some.inj h
      simpa [SendVars.setPoll_poll] using htype
  | answered | expired =>
      obtain ⟨-, rfl⟩ := recycle_eq h
      exact absurd hb hnd.not_mem_erase
  | release | first | again => cases hk

/-- What a visit that does not post keeps: no entry before the rest of the list
is of type 0. -/
theorem pollStep_types {l r : List BufId}
    (h : v.pollStep (pollVerdict (v.mem b).poll, b) = some w)
    (hk : (pollVerdict (v.mem b).poll).posts = false) (hl : v.linked = l ++ b :: r)
    (hnd : v.linked.Nodup) (htypes : ∀ c ∈ l, (v.mem c).poll.type ≠ 0) :
    ∃ l', w.linked = l' ++ r ∧ ∀ c ∈ l', (w.mem c).poll.type ≠ 0 := by
  obtain ⟨l', hl', hsub⟩ := pollStep_linked h hl hnd
  refine ⟨l', hl', ?_⟩
  intro c hc
  have hbl : b ∉ l := (notMem_of_nodup_split (hl ▸ hnd)).1
  rcases hsub c hc with hcl | rfl
  · have hne : c ≠ b := fun heq => hbl (heq ▸ hcl)
    rw [pollStep_mem h hne]
    exact htypes c hcl
  · exact pollStep_stays h hk (by simp [hl', hc]) hnd

section

variable (Inv : Pool → Prop) (P : SendTask → List BufId → PollVerdict × BufId → Prop)
  (visit : ∀ v l b r, Inv v → v.linked = l ++ b :: r →
    (∀ c ∈ l, (v.mem c).poll.type ≠ 0) →
    P v.sendTask v.appUartSendMsg (pollVerdict (v.mem b).poll, b) →
    ∃ w, v.pollStep (pollVerdict (v.mem b).poll, b) = some w ∧ Inv w)
  (nodup : ∀ v, Inv v → v.linked.Nodup)

include visit nodup

theorem pollRun_rule {l r : List BufId} (init : Inv v) (hl : v.linked = l ++ r)
    (htypes : ∀ c ∈ l, (v.mem c).poll.type ≠ 0)
    (planned : ∀ e ∈ pollPlan v.mem r, P v.sendTask v.appUartSendMsg e) :
    ∃ w, polls.run v (pollPlan v.mem r) = some w ∧ Inv w := by
  induction r generalizing v l with
  | nil => exact ⟨v, rfl, init⟩
  | cons b r ih =>
      have hnd := nodup v init
      have hbr : b ∉ r := (notMem_of_nodup_split (hl ▸ hnd)).2
      have hfirst : (pollVerdict (v.mem b).poll, b) ∈ pollPlan v.mem (b :: r) := by
        rw [pollPlan]
        split <;> simp
      obtain ⟨w, hstep, hw⟩ := visit v l b r init hl htypes (planned _ hfirst)
      rw [pollPlan] at planned ⊢
      by_cases hposts : (pollVerdict (v.mem b).poll).posts = true
      · simp only [hposts, if_true]
        exact ⟨w, polls_cons.mpr ⟨w, hstep, rfl⟩, hw⟩
      · rw [Bool.not_eq_true] at hposts
        simp only [hposts, Bool.false_eq_true, if_false] at planned ⊢
        obtain ⟨htask, hqueue⟩ := pollStep_task hstep hposts
        have hplan : pollPlan w.mem r = pollPlan v.mem r := pollPlan_of_step hstep hbr
        obtain ⟨l', hl', htypes'⟩ := pollStep_types hstep hposts hl hnd htypes
        have hrest : ∀ e ∈ pollPlan w.mem r, P w.sendTask w.appUartSendMsg e := by
          intro e he
          rw [htask, hqueue]
          exact planned e (List.mem_cons_of_mem _ (hplan ▸ he))
        obtain ⟨u, hrun, hu⟩ := ih hw hl' htypes' hrest
        exact ⟨u, polls_cons.mpr ⟨w, hstep, hplan ▸ hrun⟩, hu⟩

/-- **Rule for a period.** `P` is what the plan says of each visit; it may speak
of the send task and its queue, which no visit before the last one changes. -/
theorem pollTick_rule (planned : ∀ e ∈ pollPlan v.mem v.linked, P v.sendTask v.appUartSendMsg e)
    (init : Inv v) : ∃ w, v.pollTick = some w ∧ Inv w :=
  pollRun_rule Inv P visit nodup (l := []) init rfl (by simp) planned

end

end Pool

namespace Tx.Rep

variable {s : Tx} {v v' : Pool} {b : BufId} {l r : List BufId}

/-- The write of one `poll` field, on both sides. -/
theorem setPoll (h : Rep s v) (b : BufId) (p : UartPoll) :
    Rep (s.withVars (s.setPoll b p)) (v.withVars (v.setPoll b p)) := by
  rw [h.vars]
  exact h.withVars fun c hc => by rw [SendVars.setPoll_buf]; exact hc

theorem osqPost (h : Rep s v) (b : BufId) :
    Rep (s.withVars (s.osqPost b)) (v.withVars (v.osqPost b)) := by
  rw [h.vars]
  exact h.withVars fun c hc => by rw [SendVars.osqPost_mem]; exact hc

theorem setPost (h : Rep s v) (b : BufId) (p : UartPoll) :
    Rep (s.withVars ((s.setPoll b p).osqPost b)) (v.withVars ((v.setPoll b p).osqPost b)) :=
  (h.setPoll b p).osqPost b

theorem record (h : Rep s v) (o : Obs) :
    Rep (s.withVars (s.record o)) (v.withVars (v.record o)) := by
  rw [h.vars]
  exact h.withVars fun c hc => hc

/-- Unlinking and recycling an entry: `o` is what is recorded. -/
theorem unlink_recycle (h : Rep s v) (hl : v.linked = l ++ b :: r) {o : Obs}
    (hv : (v.unlink b |>.withVars (v.record o)).recycle b = some v') :
    ∃ s₁ s', s.nextDel (.entry b) = some (entryAt r, s₁) ∧ s₁.mem = v.mem ∧
      (s₁.withVars (s₁.record o)).recycle b = some s' ∧ Rep s' v' := by
  obtain ⟨s₁, hdel, h₁⟩ := h.nextDel hl
  obtain ⟨s', hs', h'⟩ := (h₁.record o).recycle hv
  exact ⟨s₁, s', hdel, h₁.mem_eq, hs', h'⟩

/-- One pass of the loop of the poll task is a visit of the plan, after which it
stops or goes on to the next entry. -/
theorem pollVisit (h : Rep s v) (hl : v.linked = l ++ b :: r)
    (hstep : v.pollStep (pollVerdict (v.mem b).poll, b) = some v') :
    ∃ s', Rep s' v' ∧ ∀ fuel, s.pollLoop (fuel + 1) (.entry b) =
      if (pollVerdict (v.mem b).poll).posts then some s' else s'.pollLoop fuel (entryAt r) := by
  have howner := h.ownerEntry (b := b) (by simp [hl])
  simp only [Tx.pollLoop, reduceCtorEq, if_false, howner, Option.bind_eq_bind, Option.bind_some,
    h.mem_eq]
  set p := (v.mem b).poll with hp
  by_cases h0 : p.type = 0
  · have hk : pollVerdict p = .release := by simp [pollVerdict, h0]
    rw [hk] at hstep ⊢
    obtain rfl := Option.some.inj hstep
    obtain ⟨s', hdel, h'⟩ := (h.setPost b { p with freeFlag := 1 }).nextDel hl
    refine ⟨s', h', ?_⟩
    intro fuel
    simp only [if_pos h0, hdel, Option.bind_some, PollVerdict.posts, if_true]
  simp only [if_neg h0]
  by_cases h1 : p.type = 1
  · simp only [if_pos h1]
    by_cases htimes : p.times = 0
    · have hk : pollVerdict p = .first := by simp [pollVerdict, h1, htimes]
      rw [hk] at hstep ⊢
      obtain rfl := Option.some.inj hstep
      refine ⟨_, h.setPost b { p with times := p.times + 1 }, ?_⟩
      intro fuel
      simp only [if_pos htimes, PollVerdict.posts, if_true]
    simp only [if_neg htimes]
    by_cases hfree : p.freeFlag ≠ 0
    · have hk : pollVerdict p = .answered := by simp [pollVerdict, h1, htimes, hfree]
      rw [hk] at hstep ⊢
      obtain ⟨s₁, s', hdel, hmem, hrec, h'⟩ := h.unlink_recycle hl hstep
      refine ⟨s', h', ?_⟩
      intro fuel
      simp only [if_pos hfree, hdel, Option.bind_some, hmem, hrec, PollVerdict.posts,
        Bool.false_eq_true, if_false]
    simp only [if_neg hfree]
    by_cases hdelay : p.delay + 5 ≥ 500
    · simp only [if_pos hdelay]
      have hset := h.setPoll b { p with delay := 0, times := p.times + 1 }
      by_cases hthree : p.times + 1 > 3
      · have hk : pollVerdict p = .expired := by
          simp [pollVerdict, h1, htimes, not_not.mp hfree, hdelay, hthree]
        rw [hk] at hstep ⊢
        have hframe := SendVars.setPoll_frame v.toSendVars b b
          { p with delay := 0, times := p.times + 1 }
        obtain ⟨s₁, s', hdel, hmem, hrec, h'⟩ :=
          hset.unlink_recycle (o := .expired b (v.mem b).frame) hl
            ((Pool.recycle_setPoll _ b _).trans hstep)
        refine ⟨s', h', ?_⟩
        intro fuel
        simp only [if_pos hthree, hdel, Option.bind_some, hmem, Pool.withVars_vars, hframe,
          hrec, PollVerdict.posts, Bool.false_eq_true, if_false]
      · have hk : pollVerdict p = .again := by
          simp [pollVerdict, h1, htimes, not_not.mp hfree, hdelay, hthree]
        rw [hk] at hstep ⊢
        obtain rfl := Option.some.inj hstep
        refine ⟨_, hset.osqPost b, ?_⟩
        intro fuel
        simp only [if_neg hthree, PollVerdict.posts, if_true]
    · have hk : pollVerdict p = .wait := by
        simp [pollVerdict, h1, htimes, not_not.mp hfree, hdelay]
      rw [hk] at hstep ⊢
      obtain rfl := Option.some.inj hstep
      have hset := h.setPoll b { p with delay := p.delay + 5 }
      refine ⟨_, hset, ?_⟩
      intro fuel
      simp only [if_neg hdelay, hset.next_entry hl, Option.bind_some, PollVerdict.posts,
        Bool.false_eq_true, if_false]
  · have hk : pollVerdict p = .skip := by simp [pollVerdict, h0, h1]
    rw [hk] at hstep ⊢
    obtain rfl := Option.some.inj hstep
    refine ⟨s, h, ?_⟩
    intro fuel
    simp only [if_neg h1, h.next_entry hl, Option.bind_some, PollVerdict.posts,
      Bool.false_eq_true, if_false]

/-- The loop of the poll task carries out the plan for the part of the list it
has before it. -/
theorem pollLoop {fuel : Nat} (h : Rep s v) (hl : v.linked = l ++ r) (hfuel : r.length < fuel)
    (hv : Pool.polls.run v (pollPlan v.mem r) = some v') :
    ∃ s', s.pollLoop fuel (entryAt r) = some s' ∧ Rep s' v' := by
  induction r generalizing s v l fuel with
  | nil =>
      obtain ⟨fuel, rfl⟩ := Nat.exists_eq_succ_of_ne_zero (Nat.ne_zero_of_lt hfuel)
      obtain rfl := Option.some.inj hv
      exact ⟨s, by simp [Tx.pollLoop, entryAt], h⟩
  | cons b r ih =>
      obtain ⟨fuel, rfl⟩ := Nat.exists_eq_succ_of_ne_zero (Nat.ne_zero_of_lt hfuel)
      have hnd := h.nodup_linked
      have hbr : b ∉ r := (notMem_of_nodup_split (hl ▸ hnd)).2
      obtain ⟨w, hstep, hrun⟩ : ∃ w, v.pollStep (pollVerdict (v.mem b).poll, b) = some w ∧
          Pool.polls.run w (if (pollVerdict (v.mem b).poll).posts then [] else pollPlan v.mem r) =
            some v' := by
        rw [← Pool.polls_cons, ← hv, pollPlan]
        split <;> rfl
      obtain ⟨s₁, h₁, hvisit⟩ := h.pollVisit hl hstep
      rw [entryAt, hvisit]
      by_cases hposts : (pollVerdict (v.mem b).poll).posts = true
      · rw [if_pos hposts] at hrun ⊢
        obtain rfl := Option.some.inj hrun
        exact ⟨s₁, rfl, h₁⟩
      · rw [if_neg hposts] at hrun ⊢
        obtain ⟨l', hl', -⟩ := Pool.pollStep_linked hstep hl hnd
        rw [← Pool.pollPlan_of_step hstep hbr] at hrun
        exact ih h₁ hl' (by simpa using hfuel) hrun

theorem length_le (hnd : r.Nodup) : r.length ≤ uartdrvMaxConcurrentTxBufs := by
  simpa using hnd.length_le_card

/-- A period of the poll task follows the plan for the whole list. -/
theorem pollTick (h : Rep s v) (hv : v.pollTick = some v') :
    ∃ s', s.pollTick = some s' ∧ Rep s' v' := by
  have hfuel : v.linked.length < Tx.pollFuel :=
    Nat.lt_of_le_of_lt (length_le h.nodup_linked) (by decide)
  obtain ⟨s', hs', h'⟩ := h.pollLoop (l := []) rfl hfuel hv
  exact ⟨s', by simp [Tx.pollTick, h.next_head, hs'], h'⟩

/-! #### Answers -/

theorem answerLoop {fuel : Nat} (h : Rep s v) (sn cmdId : UInt8) (hl : v.linked = l ++ r)
    (hfuel : r.length < fuel) :
    s.answerLoop sn cmdId fuel (entryAt r) =
      some (match r.find? (v.answeredBy sn cmdId) with
        | some b => s.withVars (v.setPoll b { (v.mem b).poll with freeFlag := 1 })
        | none => s) := by
  induction r generalizing l fuel with
  | nil =>
      obtain ⟨fuel, rfl⟩ := Nat.exists_eq_succ_of_ne_zero (Nat.ne_zero_of_lt hfuel)
      simp [Tx.answerLoop, entryAt]
  | cons b r ih =>
      obtain ⟨fuel, rfl⟩ := Nat.exists_eq_succ_of_ne_zero (Nat.ne_zero_of_lt hfuel)
      have howner := h.ownerEntry (b := b) (by simp [hl])
      rw [Tx.answerLoop]
      simp only [entryAt, reduceCtorEq, if_false, howner, Option.bind_eq_bind, Option.bind_some,
        h.mem_eq]
      by_cases hmatch : sn = hdrSn (v.mem b).cmd ∧ cmdId = hdrCmdId (v.mem b).cmd
      · rw [List.find?_cons_of_pos (by simpa [Pool.answeredBy] using hmatch)]
        simp only [if_pos hmatch, h.vars]
      · rw [List.find?_cons_of_neg (by simpa [Pool.answeredBy] using hmatch)]
        simp only [if_neg hmatch, h.next_entry hl, Option.bind_some]
        exact ih (l := l ++ [b]) (by simp [hl]) (by simpa using hfuel)

theorem markAnswered (h : Rep s v) (sn cmdId : UInt8) :
    ∃ s', s.markAnswered sn cmdId = some s' ∧ Rep s' (v.markAnswered sn cmdId) := by
  have hfuel : v.linked.length < Tx.pollFuel :=
    Nat.lt_of_le_of_lt (length_le h.nodup_linked) (by decide)
  have hloop := h.answerLoop sn cmdId (l := []) rfl hfuel
  unfold Pool.markAnswered
  unfold Tx.markAnswered
  rw [h.next_head]
  refine ⟨_, hloop, ?_⟩
  split
  · rename_i b hfind
    have hset := h.setPoll b { (v.mem b).poll with freeFlag := 1 }
    rw [h.vars] at hset
    simpa only [hfind] using hset
  · rename_i hfind
    simpa only [hfind] using h

/-! #### Start, and reading the lists -/

theorem freeBufs (h : Rep s v) : s.freeBufs = v.free := by
  have hlen : (v.free.map Addr.node).length ≤ uartdrvMaxConcurrentTxBufs + 1 := by
    simpa using Nat.le_succ_of_le (length_le h.nodup_free)
  rw [Tx.freeBufs, h.factory.list.listNodes hlen]
  simp [List.filterMap_map]

theorem linkedBufs (h : Rep s v) : s.linkedBufs = v.linked := by
  have hlen : (v.linked.map Addr.entry).length ≤ uartdrvMaxConcurrentTxBufs + 1 := by
    simpa using Nat.le_succ_of_le (length_le h.nodup_linked)
  rw [Tx.linkedBufs, h.sendList.listNodes hlen]
  simp [List.filterMap_map]

end Tx.Rep

/-- The code starts in the state the pool starts in. -/
theorem uartContextInit_spec (heap : Heap) (mem : BufId → UartSendFormat) (msgPoolSize : Nat) :
    ∃ s, Tx.uartContextInit heap mem msgPoolSize = some s ∧ s.Rep (Pool.boot mem msgPoolSize) := by
  obtain ⟨heap', hcreate, hfactory⟩ := createBufFactory_spec heap
  refine ⟨_, by simp [Tx.uartContextInit, hcreate]; rfl, rfl, ?_, ?_, by simp [Pool.boot],
    by simp [Pool.boot], fun b hb => absurd (List.mem_finRange b) hb⟩
  · exact hfactory.congr (by simp [initListHead, ListHeap.setNext, ListHeap.setPrev,
      ListHeap.setOwner]) fun b => by simp [initListHead, ListHeap.setNext, ListHeap.setPrev,
      ListHeap.setOwner]
  · exact IsList.initListHead heap' .sendList (.list .sendList)

end WifiExpander
