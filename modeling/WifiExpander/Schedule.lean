import WifiExpander.PollTask
import WifiExpander.Theory.Machine

/-!
The retransmission schedule of one request.

`App_Uart_Poll_Task` encodes it in two counters, `delay` in steps of 5 up to 500 and
`times` up to 3, which it tests in an order that matters. `requestPoll n` is their
value after `n` visits, and `dueActs` what the next visits do. What else is on the
list decides only which periods reach the request: `request_schedule` follows one
through every run, with anything the other tasks do to the list in between.
-/

namespace WifiExpander

open WifiExpander.Theory

variable {β : Type} [DecidableEq β]

/-! ### The run of a request -/

/-- The act is done to the entry. -/
def PollAct.concerns (b : β) : PollAct β → Bool
  | .visited c => c = b
  | .posted c => c = b
  | .unlinked a => a = .entry b
  | .recycled c _ => c = b

/-- The send list and the history of one request on it. -/
structure Request (β : Type) where
  st : PollState β
  /-- what each period did to the request -/
  periods : List (List (PollAct β))
  /-- how often it had been visited when it was first marked answered -/
  markedAt : Option Nat

inductive RequestEvent (β : Type) where
  /-- a period of the poll task -/
  | tick (fuel : Nat)
  /-- `uart_protocol_parse` sets the `free_flag` of the request -/
  | mark
  /-- what the other tasks make of the list between two periods -/
  | others (w : PollState β)

/-- The periods that reach the entry. -/
def visitsTo (b : β) (periods : List (List (PollAct β))) : List (List (PollAct β)) :=
  periods.filter fun acts => .visited b ∈ acts

namespace Request

/-- The request `b` when it is enqueued. -/
def enqueued (st : PollState β) : Request β := ⟨st, [], none⟩

def step (b : β) (r : Request β) : RequestEvent β → Option (Request β)
  | .tick fuel => do
      let st ← { r.st with acts := [] }.pollTick fuel
      some { r with st, periods := r.periods ++ [st.acts.filter (PollAct.concerns b)] }
  | .mark =>
      some { r with
        st := r.st.setPoll b { r.st.poll b with freeFlag := 1 }
        markedAt := r.markedAt.or (some (visitsTo b r.periods).length) }
  | .others w => some { r with st := w }

def machine (b : β) : Machine (Request β) (RequestEvent β) := ⟨step b⟩

/-- A period goes through its list to the end, the request is marked while it is on
the list, and the other tasks keep the list well formed and leave the request alone:
they do not unlink it or put it on the list again, nor write its fields. -/
def Allowed (b : β) (r : Request β) : RequestEvent β → Prop
  | .tick fuel => ∀ xs, r.st.Holds xs → xs.length < fuel
  | .mark => ∀ xs, r.st.Holds xs → b ∈ xs
  | .others w => ∀ xs, r.st.Holds xs → ∃ ys, w.Holds ys ∧ (b ∈ ys ↔ b ∈ xs) ∧
      w.buf b = r.st.buf b ∧ (b ∈ xs → w.poll b = r.st.poll b)

end Request

/-! ### The schedule -/

/-- The `poll` field of a request after `n` visits. -/
def requestPoll (n : Nat) (freeFlag : Nat) : UartPoll :=
  if n = 0 then ⟨0, 0, 1, freeFlag⟩
  else ⟨(n - 1) % 100 * 5, (n - 1) / 100 + 1, 1, freeFlag⟩

def freeFlagOf (markedAt : Option Nat) : Nat := if markedAt.isSome then 1 else 0

/-- The visit at which a request leaves the list; the first one always posts it. -/
def leavesAt : Option Nat → Nat
  | none => 301
  | some v => max 1 v + 1

/-- What the `n`-th visit does. -/
def dueActs (b buf : β) (markedAt : Option Nat) (n : Nat) : List (PollAct β) :=
  .visited b ::
    if n = leavesAt markedAt then [.unlinked (.entry b), .recycled b buf]
    else if n = 1 ∨ n = 101 ∨ n = 201 then [.posted b]
    else []

/-- The first `n` visits. -/
def dueVisits (b buf : β) (markedAt : Option Nat) (n : Nat) : List (List (PollAct β)) :=
  (List.range n).map fun i => dueActs b buf markedAt (i + 1)

section

variable {b buf : β} {m : Option Nat} {n v : Nat}

theorem addU32_small {i j : Nat} (h : i + j < 1000) : addU32 i j = i + j :=
  Nat.mod_eq_of_lt (Nat.lt_trans h (by decide))

/-- A request that stays at its next visit has not been through all three periods. -/
theorem early_of_stays (hn : n + 1 < leavesAt m) (marked : ∀ v, m = some v → v ≤ n) :
    n < 300 := by
  cases m with
  | none => exact Nat.lt_of_succ_lt_succ hn
  | some v =>
      have hv := marked v rfl
      simp only [leavesAt] at hn
      omega

/-- How the poll task judges the request at its next visit. -/
theorem requestPoll_verdict (hn : n < leavesAt m) (marked : ∀ v, m = some v → v ≤ n) :
    pollVerdict32 (requestPoll n (freeFlagOf m)) =
      if n + 1 = leavesAt m then if m.isSome then .answered else .expired
      else if n = 0 then .first
      else if n % 100 = 0 then .again
      else .wait := by
  by_cases h0 : n = 0
  · -- the first visit posts, answered or not
    subst h0
    have hne : 0 + 1 ≠ leavesAt m := by cases m <;> simp [leavesAt]
    simp [requestPoll, pollVerdict32, hne]
  cases m with
  | some v =>
      have hv : v ≤ n := marked v rfl
      have hleaves : n + 1 = leavesAt (some v) := by
        simp only [leavesAt] at hn ⊢
        omega
      simp [requestPoll, freeFlagOf, pollVerdict32, h0, hleaves]
  | none =>
      have hn' : n < 301 := hn
      have hdelay : addU32 ((n - 1) % 100 * 5) 5 = (n - 1) % 100 * 5 + 5 :=
        addU32_small (by omega)
      have htimes : addU32 ((n - 1) / 100 + 1) 1 = (n - 1) / 100 + 1 + 1 :=
        addU32_small (by omega)
      have hfull : (n - 1) % 100 * 5 + 5 ≥ 500 ↔ n % 100 = 0 := by omega
      simp only [requestPoll, freeFlagOf, h0, if_false, pollVerdict32, Option.isSome_none,
        Bool.false_eq_true, Nat.succ_ne_zero, hdelay, htimes, ne_eq, not_true_eq_false, if_true,
        hfull, leavesAt]
      by_cases hlast : n = 300
      · subst hlast
        simp
      · have hne : ¬ n + 1 = 301 := by omega
        have hthree : n % 100 = 0 → ¬ (n - 1) / 100 + 1 + 1 > 3 := by omega
        rw [if_neg hne]
        by_cases hpost : n % 100 = 0
        · rw [if_pos hpost, if_neg (hthree hpost), if_pos hpost]
        · rw [if_neg hpost, if_neg hpost]

/-- The counters go on to the next visit. -/
theorem requestPoll_after (hn : n + 1 < leavesAt m) (marked : ∀ v, m = some v → v ≤ n) :
    pollAfter (pollVerdict32 (requestPoll n (freeFlagOf m))) (requestPoll n (freeFlagOf m)) =
      requestPoll (n + 1) (freeFlagOf m) := by
  rw [requestPoll_verdict (Nat.lt_of_succ_lt hn) marked, if_neg (Nat.ne_of_lt hn)]
  by_cases h0 : n = 0
  · subst h0
    simp [requestPoll, pollAfter, addU32_small]
  have hearly := early_of_stays hn marked
  rw [if_neg h0]
  split
  · have htimes : addU32 ((n - 1) / 100 + 1) 1 = (n - 1) / 100 + 1 + 1 := addU32_small (by omega)
    simp only [pollAfter, requestPoll, h0, if_false, Nat.succ_ne_zero, htimes, UartPoll.mk.injEq,
      and_true]
    omega
  · have hdelay : addU32 ((n - 1) % 100 * 5) 5 = (n - 1) % 100 * 5 + 5 := addU32_small (by omega)
    simp only [pollAfter, requestPoll, h0, if_false, Nat.succ_ne_zero, hdelay, UartPoll.mk.injEq,
      and_true]
    omega

omit [DecidableEq β] in
/-- **One visit** does what is due. -/
theorem visitActs_due {bufs : β → β} (hn : n < leavesAt m) (marked : ∀ v, m = some v → v ≤ n) :
    visitActs (pollVerdict32 (requestPoll n (freeFlagOf m))) bufs b =
      dueActs b (bufs b) m (n + 1) := by
  rw [requestPoll_verdict hn marked, dueActs]
  by_cases hlast : n + 1 = leavesAt m
  · rw [if_pos hlast, if_pos hlast]
    cases m <;> rfl
  rw [if_neg hlast, if_neg hlast]
  have hearly := early_of_stays (Nat.lt_of_le_of_ne hn hlast) marked
  by_cases h0 : n = 0
  · subst h0
    rfl
  rw [if_neg h0]
  by_cases hpost : n % 100 = 0
  · have hwhich : n + 1 = 1 ∨ n + 1 = 101 ∨ n + 1 = 201 := by omega
    rw [if_pos hpost, if_pos hwhich]
    rfl
  · have hwhich : ¬ (n + 1 = 1 ∨ n + 1 = 101 ∨ n + 1 = 201) := by omega
    rw [if_neg hpost, if_neg hwhich]
    rfl

theorem unlinks_due (hn : n < leavesAt m) (marked : ∀ v, m = some v → v ≤ n) :
    (pollVerdict32 (requestPoll n (freeFlagOf m))).unlinks = true ↔ n + 1 = leavesAt m := by
  rw [requestPoll_verdict hn marked]
  by_cases hlast : n + 1 = leavesAt m
  · cases m <;> simp [hlast, PollVerdict.unlinks]
  · rw [if_neg hlast]
    split_ifs <;> simp [hlast, PollVerdict.unlinks]

end

/-! ### What a period does to one entry -/

section

variable {poll : β → UartPoll} {bufs : β → β} {xs : List β} {b c : β} {k : PollVerdict}

theorem concerns_visitActs :
    (visitActs k bufs c).filter (PollAct.concerns b) = if c = b then visitActs k bufs c else [] := by
  by_cases h : c = b <;> cases k <;> simp [visitActs, PollAct.concerns, h]

/-- A period does to an entry what its visit does, and nothing without one. -/
theorem concerns_periodActs (hnd : xs.Nodup) :
    (periodActs poll bufs xs).filter (PollAct.concerns b) =
      if b ∈ visited poll xs then visitActs (verdictAt poll b) bufs b else [] := by
  have hsub : (visited poll xs).Nodup := hnd.sublist visited_initial.sublist
  unfold periodActs
  generalize visited poll xs = ys at hsub
  induction ys with
  | nil => rfl
  | cons c ys ih =>
      obtain ⟨hc, hnd⟩ := List.nodup_cons.mp hsub
      rw [List.flatMap_cons, List.filter_append, concerns_visitActs, ih hnd]
      by_cases hcb : c = b
      · subst hcb
        simp [hc]
      · simp [hcb, Ne.symm hcb]

end

/-! ### Every run -/

/-- How often the request has been visited. -/
def Request.visits (b : β) (r : Request β) : Nat := (visitsTo b r.periods).length

/-- The visits so far are the ones due, and the counters are ready for the next. -/
structure Request.Inv (b buf : β) (r : Request β) : Prop where
  list : ∃ xs, r.st.Holds xs ∧ (b ∈ xs ↔ r.visits b < leavesAt r.markedAt) ∧
    (b ∈ xs → r.st.poll b = requestPoll (r.visits b) (freeFlagOf r.markedAt))
  buf_eq : r.st.buf b = buf
  due : visitsTo b r.periods = dueVisits b buf r.markedAt (r.visits b)
  idle : ∀ acts ∈ r.periods, PollAct.visited b ∉ acts → acts = []
  le : r.visits b ≤ leavesAt r.markedAt
  marked : ∀ v, r.markedAt = some v → v ≤ r.visits b ∧ v ≤ 300

section

variable {b buf : β} {m : Option Nat} {n : Nat} {r : Request β} {st : PollState β}
  {acts : List (PollAct β)} {periods : List (List (PollAct β))}

omit [DecidableEq β] in
theorem dueVisits_succ :
    dueVisits b buf m (n + 1) = dueVisits b buf m n ++ [dueActs b buf m (n + 1)] := by
  simp [dueVisits, List.range_succ]

omit [DecidableEq β] in
/-- A mark changes nothing about the visits before it. -/
theorem dueVisits_mark (hn : n ≤ 300) : dueVisits b buf (some n) n = dueVisits b buf none n := by
  apply List.map_congr_left
  intro i hi
  have hi := List.mem_range.mp hi
  have hsome : ¬ i + 1 = max 1 n + 1 := by omega
  have hnone : ¬ i + 1 = 301 := by omega
  rw [dueActs, dueActs, leavesAt, leavesAt, if_neg hsome, if_neg hnone]

omit [DecidableEq β] in
theorem visited_mem_dueActs : PollAct.visited b ∈ dueActs b buf m n := List.mem_cons_self

theorem visitsTo_append_visit :
    visitsTo b (periods ++ [dueActs b buf m n]) = visitsTo b periods ++ [dueActs b buf m n] := by
  simp [visitsTo, List.filter_append, visited_mem_dueActs]

theorem visitsTo_append_idle : visitsTo b (periods ++ [[]]) = visitsTo b periods := by
  simp [visitsTo, List.filter_append]

namespace Request.Inv

theorem enqueued {xs : List β} (holds : st.Holds xs) (hb : b ∈ xs)
    (fresh : st.poll b = ⟨0, 0, 1, 0⟩) : (Request.enqueued st).Inv b (st.buf b) where
  list := ⟨xs, holds, by simpa [Request.visits, visitsTo, Request.enqueued, leavesAt] using hb,
    fun _ => fresh⟩
  buf_eq := rfl
  due := rfl
  idle := fun _ h => absurd h List.not_mem_nil
  le := Nat.zero_le _
  marked := fun _ h => nomatch h

/-- The list may change around the request. -/
theorem others {ys : List β} (inv : r.Inv b buf) (new : st.Holds ys)
    (hmem : b ∈ ys ↔ r.visits b < leavesAt r.markedAt) (hbuf : st.buf b = buf)
    (hpoll : b ∈ ys → st.poll b = requestPoll (r.visits b) (freeFlagOf r.markedAt)) :
    Request.Inv b buf ⟨st, r.periods, r.markedAt⟩ :=
  ⟨⟨ys, new, hmem, hpoll⟩, hbuf, inv.due, inv.idle, inv.le, inv.marked⟩

/-- A period that does not reach the request. -/
theorem skip (inv : r.Inv b buf) : Request.Inv b buf ⟨r.st, r.periods ++ [[]], r.markedAt⟩ := by
  have hvisits : Request.visits b ⟨r.st, r.periods ++ [[]], r.markedAt⟩ = r.visits b := by
    rw [Request.visits, Request.visits, visitsTo_append_idle]
  refine ⟨?_, inv.buf_eq, ?_, ?_, ?_, ?_⟩
  · rw [hvisits]
    exact inv.list
  · rw [hvisits, visitsTo_append_idle]
    exact inv.due
  · intro acts hmem hnot
    rcases List.mem_append.mp hmem with hmem | hmem
    · exact inv.idle acts hmem hnot
    · exact List.mem_singleton.mp hmem
  · rw [hvisits]
    exact inv.le
  · rw [hvisits]
    exact inv.marked

/-- A period that reaches it. -/
theorem visit {xs : List β} (inv : r.Inv b buf) (hn : r.visits b < leavesAt r.markedAt)
    (holds : st.Holds xs) (hmem : b ∈ xs ↔ r.visits b + 1 < leavesAt r.markedAt)
    (hbuf : st.buf b = buf)
    (hpoll : b ∈ xs → st.poll b = requestPoll (r.visits b + 1) (freeFlagOf r.markedAt)) :
    Request.Inv b buf
      ⟨st, r.periods ++ [dueActs b buf r.markedAt (r.visits b + 1)], r.markedAt⟩ := by
  have hvisits : Request.visits b
      ⟨st, r.periods ++ [dueActs b buf r.markedAt (r.visits b + 1)], r.markedAt⟩ =
      r.visits b + 1 := by
    rw [Request.visits, visitsTo_append_visit, List.length_append]
    rfl
  refine ⟨⟨xs, holds, ?_, ?_⟩, hbuf, ?_, ?_, ?_, ?_⟩
  · rw [hvisits]
    exact hmem
  · rw [hvisits]
    exact hpoll
  · rw [hvisits, visitsTo_append_visit, inv.due, dueVisits_succ]
  · intro acts hmem hnot
    rcases List.mem_append.mp hmem with hmem | hmem
    · exact inv.idle acts hmem hnot
    · rw [List.mem_singleton.mp hmem] at hnot
      exact absurd visited_mem_dueActs hnot
  · rw [hvisits]
    exact hn
  · intro v hv
    rw [hvisits]
    exact ⟨Nat.le_succ_of_le (inv.marked v hv).1, (inv.marked v hv).2⟩

/-- **A period of the poll task keeps to the schedule.** -/
theorem tick {fuel : Nat} (inv : r.Inv b buf) (hok : r.Allowed b (.tick fuel)) :
    ∃ r', Request.step b r (.tick fuel) = some r' ∧ r'.Inv b buf := by
  obtain ⟨xs, holds, hmem, hpoll⟩ := inv.list
  have holds₀ : ({ r.st with acts := [] } : PollState β).Holds xs := ⟨holds.list, holds.owner⟩
  obtain ⟨heap, htick, hlist, howner⟩ := PollState.pollTick_spec holds₀
  set st : PollState β :=
    ⟨heap, periodPoll r.st.poll xs, r.st.buf, periodActs r.st.poll r.st.buf xs⟩ with hst
  have holds' : st.Holds (kept r.st.poll xs) := by
    refine ⟨hlist, ?_⟩
    intro c hc
    rw [hst, howner]
    exact holds.owner c (kept_sublist.subset hc)
  have hacts : st.acts.filter (PollAct.concerns b) =
      if b ∈ visited r.st.poll xs then visitActs (verdictAt r.st.poll b) r.st.buf b else [] :=
    concerns_periodActs holds.nodup
  have hstep : Request.step b r (.tick fuel) =
      some ⟨st, r.periods ++ [st.acts.filter (PollAct.concerns b)], r.markedAt⟩ := by
    simp only [Request.step, htick fuel (hok xs holds), Option.bind_eq_bind, Option.bind_some,
      List.nil_append, hst]
  refine ⟨_, hstep, ?_⟩
  rw [hacts]
  by_cases hvisit : b ∈ visited r.st.poll xs
  · have hb : b ∈ xs := visited_initial.subset hvisit
    have hn := hmem.mp hb
    have hmarked : ∀ v, r.markedAt = some v → v ≤ r.visits b := fun v hv => (inv.marked v hv).1
    have hverdict : verdictAt r.st.poll b =
        pollVerdict32 (requestPoll (r.visits b) (freeFlagOf r.markedAt)) := by
      rw [verdictAt, hpoll hb]
    have hstays : b ∈ kept r.st.poll xs ↔ r.visits b + 1 < leavesAt r.markedAt := by
      rw [mem_kept holds.nodup hb, hverdict, unlinks_due hn hmarked]
      constructor
      · exact fun h => Nat.lt_of_le_of_ne hn fun heq => h ⟨hvisit, heq⟩
      · exact fun h hnot => Nat.ne_of_lt h hnot.2
    rw [if_pos hvisit, hverdict, visitActs_due hn hmarked, inv.buf_eq]
    apply inv.visit hn holds' hstays inv.buf_eq
    intro hkept
    have hafter : st.poll b = pollAfter (verdictAt r.st.poll b) (r.st.poll b) := if_pos hvisit
    rw [hafter, hverdict, hpoll hb, requestPoll_after (hstays.mp hkept) hmarked]
  · have hkept : b ∈ kept r.st.poll xs ↔ b ∈ xs :=
      ⟨fun h => kept_sublist.subset h, fun h => (mem_kept holds.nodup h).mpr fun h => hvisit h.1⟩
    have hsame : st.poll b = r.st.poll b := if_neg hvisit
    rw [if_neg hvisit]
    exact (inv.others holds' (hkept.trans hmem) inv.buf_eq
      fun hb => hsame.trans (hpoll (hkept.mp hb))).skip

/-- A mark is recorded once, and only while the request is on the list. -/
theorem mark (inv : r.Inv b buf) (hok : r.Allowed b .mark) :
    ∃ r', Request.step b r .mark = some r' ∧ r'.Inv b buf := by
  obtain ⟨xs, holds, hmem, hpoll⟩ := inv.list
  have hb : b ∈ xs := hok xs holds
  have hn : r.visits b < leavesAt r.markedAt := hmem.mp hb
  have holds' : (r.st.setPoll b { r.st.poll b with freeFlag := 1 }).Holds xs :=
    ⟨holds.list, holds.owner⟩
  have hset : ∀ n flag, ({ requestPoll n flag with freeFlag := 1 } : UartPoll) =
      requestPoll n 1 := by
    intro n flag
    unfold requestPoll
    split <;> rfl
  refine ⟨_, rfl, ?_⟩
  cases hm : r.markedAt with
  | some v =>
      have hpoll' : (r.st.setPoll b { r.st.poll b with freeFlag := 1 }).poll b =
          requestPoll (r.visits b) (freeFlagOf r.markedAt) := by
        simp [PollState.setPoll, hpoll hb, hset, hm, freeFlagOf]
      have hinv := inv.others holds' hmem inv.buf_eq fun _ => hpoll'
      rwa [hm] at hinv
  | none =>
      have hle : r.visits b ≤ 300 := by
        rw [hm] at hn
        exact Nat.le_of_lt_succ hn
      refine ⟨⟨xs, holds', iff_of_true hb ?_, ?_⟩, inv.buf_eq, ?_, inv.idle, ?_, ?_⟩
      · exact Nat.lt_succ_of_le (Nat.le_max_right _ _)
      · intro _
        rw [hm] at hpoll
        simp [PollState.setPoll, hpoll hb, hset, freeFlagOf, Request.visits]
      · have hdue := inv.due
        rw [hm, ← dueVisits_mark hle] at hdue
        exact hdue
      · exact Nat.le_succ_of_le (Nat.le_max_right _ _)
      · intro v hv
        obtain rfl : r.visits b = v := Option.some.inj hv
        exact ⟨Nat.le_refl _, hle⟩

/-- **One step** of whoever runs keeps to the schedule. -/
theorem step {e : RequestEvent β} (inv : r.Inv b buf) (hok : r.Allowed b e) :
    ∃ r', (Request.machine b).step r e = some r' ∧ r'.Inv b buf := by
  cases e with
  | tick fuel => exact inv.tick hok
  | mark => exact inv.mark hok
  | others w =>
      obtain ⟨xs, holds, hmem, hpoll⟩ := inv.list
      obtain ⟨ys, holds', hsame, hbuf, hpoll'⟩ := hok xs holds
      exact ⟨_, rfl, inv.others holds' (hsame.trans hmem) (hbuf.trans inv.buf_eq)
        fun hb => (hpoll' (hsame.mp hb)).trans (hpoll (hsame.mp hb))⟩

end Request.Inv

/-! ### Counting -/

/-- Only the periods that reach the request do anything to it. -/
theorem flatten_visitsTo (idle : ∀ acts ∈ periods, PollAct.visited b ∉ acts → acts = []) :
    (visitsTo b periods).flatten = periods.flatten := by
  induction periods with
  | nil => rfl
  | cons acts periods ih =>
      have hrest := ih fun acts h => idle acts (List.mem_cons_of_mem _ h)
      rw [visitsTo, List.filter_cons, ← visitsTo]
      split
      · rw [List.flatten_cons, List.flatten_cons, hrest]
      · rename_i hnot
        have hnil := idle acts List.mem_cons_self (by simpa using hnot)
        rw [List.flatten_cons, hrest, hnil, List.nil_append]

/-- The posts among the first `n` visits. -/
theorem count_posted_due : (dueVisits b buf m n).flatten.count (.posted b) ≤
    (if 1 ≤ n then 1 else 0) + (if 101 ≤ n then 1 else 0) + if 201 ≤ n then 1 else 0 := by
  induction n with
  | zero => simp [dueVisits]
  | succ n ih =>
      have hone : (dueActs b buf m (n + 1)).count (.posted b) ≤
          if n + 1 = 1 ∨ n + 1 = 101 ∨ n + 1 = 201 then 1 else 0 := by
        by_cases hlast : n + 1 = leavesAt m
        · simp [dueActs, hlast]
        · by_cases hpost : n + 1 = 1 ∨ n + 1 = 101 ∨ n + 1 = 201 <;>
            simp only [dueActs, if_neg hlast, hpost, if_true, if_false] <;> simp
      rw [dueVisits_succ, List.flatten_append, List.count_append]
      simp only [List.flatten_cons, List.flatten_nil, List.append_nil]
      split at hone <;> split_ifs at ih ⊢ <;> omega

/-- An act that only the last visit does is done once, at that visit. -/
theorem count_leave_due {a : PollAct β} (ha : a = .unlinked (.entry b) ∨ a = .recycled b buf)
    (hn : n ≤ leavesAt m) :
    (dueVisits b buf m n).flatten.count a = if n = leavesAt m then 1 else 0 := by
  have hpos : 0 ≠ leavesAt m := by cases m <;> simp [leavesAt]
  induction n with
  | zero => simp [dueVisits, hpos]
  | succ n ih =>
      have hbefore : n ≠ leavesAt m := Nat.ne_of_lt hn
      have hone : (dueActs b buf m (n + 1)).count a = if n + 1 = leavesAt m then 1 else 0 := by
        rcases ha with rfl | rfl <;> by_cases hlast : n + 1 = leavesAt m <;>
          by_cases hpost : n + 1 = 1 ∨ n + 1 = 101 ∨ n + 1 = 201 <;>
          simp only [dueActs, hlast, hpost, if_true, if_false] <;> simp
      rw [dueVisits_succ, List.flatten_append, List.count_append, ih (Nat.le_of_succ_le hn),
        if_neg hbefore]
      simp only [List.flatten_cons, List.flatten_nil, List.append_nil, Nat.zero_add]
      exact hone

end

/-! ### The schedule holds -/

/-- A request that has kept to its schedule: `r.visits b` visits so far. -/
structure OnSchedule (b buf : β) (r : Request β) : Prop where
  /-- Visit by visit it was posted, and unlinked with its buffer recycled, when due. -/
  due : visitsTo b r.periods = dueVisits b buf r.markedAt (r.visits b)
  /-- The other periods did nothing to it. -/
  idle : ∀ acts ∈ r.periods, PollAct.visited b ∉ acts → acts = []
  /-- It is on the list until the visit at which it leaves, which is the last. -/
  linked : ∃ xs, r.st.Holds xs ∧ (b ∈ xs ↔ r.visits b < leavesAt r.markedAt)
  le : r.visits b ≤ leavesAt r.markedAt
  marked : ∀ v, r.markedAt = some v → v ≤ r.visits b ∧ v ≤ 300
  posts : r.periods.flatten.count (.posted b) ≤ 3
  unlinks : r.periods.flatten.count (.unlinked (.entry b)) =
    if r.visits b = leavesAt r.markedAt then 1 else 0
  recycles : r.periods.flatten.count (.recycled b buf) =
    if r.visits b = leavesAt r.markedAt then 1 else 0

theorem Request.Inv.onSchedule {b buf : β} {r : Request β} (inv : r.Inv b buf) :
    OnSchedule b buf r := by
  obtain ⟨xs, holds, hmem, -⟩ := inv.list
  have hflat : r.periods.flatten = (dueVisits b buf r.markedAt (r.visits b)).flatten := by
    rw [← flatten_visitsTo inv.idle, inv.due]
  refine ⟨inv.due, inv.idle, ⟨xs, holds, hmem⟩, inv.le, inv.marked, ?_, ?_, ?_⟩
  · rw [hflat]
    refine Nat.le_trans count_posted_due ?_
    split_ifs <;> omega
  · rw [hflat]
    exact count_leave_due (.inl rfl) inv.le
  · rw [hflat]
    exact count_leave_due (.inr rfl) inv.le

/-- **Retransmission schedule** of a request, as `uart_protocol_dispose` enqueues it. -/
theorem request_schedule (b : β) (st : PollState β) (xs : List β) (holds : st.Holds xs)
    (enqueued : b ∈ xs) (fresh : st.poll b = ⟨0, 0, 1, 0⟩) (es : List (RequestEvent β))
    (guarded : (Request.machine b).Guarded (Request.Allowed b) (Request.enqueued st) es) :
    ∃ r, (Request.machine b).run (Request.enqueued st) es = some r ∧
      OnSchedule b (st.buf b) r := by
  obtain ⟨r, hrun, inv⟩ := Machine.run_progress (Request.Inv b (st.buf b))
    (fun _ _ inv hok => inv.step hok) (Request.Inv.enqueued holds enqueued fresh) guarded
  exact ⟨r, hrun, inv.onSchedule⟩

/-- A request just enqueued, and a reply behind it. -/
def replyBehindRequest : PollState (Fin 2) where
  heap
    | .sendList => ⟨some (.entry 0), some (.entry 1), none⟩
    | .entry 0 => ⟨some (.entry 1), some .sendList, some 0⟩
    | .entry 1 => ⟨some .sendList, some (.entry 0), some 1⟩
  poll
    | 0 => ⟨0, 0, 1, 0⟩
    | 1 => .zero
  buf := id
  acts := []

theorem replyBehindRequest_holds : replyBehindRequest.Holds [0, 1] :=
  ⟨⟨by decide, by simp [Linked, replyBehindRequest]⟩, by decide⟩

omit [DecidableEq β] in
/-- The entry that the head points to is on the list. -/
theorem PollState.Holds.mem_of_next {s : PollState β} {xs : List β} {b : β} (h : s.Holds xs)
    (hnext : (s.heap .sendList).next = some (.entry b)) : b ∈ xs := by
  have hhead := IsRing.next_head h.list
  rw [hnext] at hhead
  cases xs with
  | nil => simp at hhead
  | cons c xs =>
      obtain rfl : b = c := by simpa using hhead
      exact List.mem_cons_self

/-- It is posted, answered, and gone with its second visit. -/
theorem request_schedule_answered :
    ∃ r, (Request.machine (0 : Fin 2)).run (Request.enqueued replyBehindRequest)
        [.tick 3, .mark, .tick 3, .tick 3] = some r ∧
      OnSchedule 0 (replyBehindRequest.buf 0) r := by
  have short : ∀ (r : Request (Fin 2)), r.Allowed 0 (.tick 3) := fun r xs holds =>
    Nat.lt_succ_of_le (holds.nodup.length_le_card)
  refine request_schedule 0 replyBehindRequest [0, 1] replyBehindRequest_holds (by decide) rfl _
    ⟨short _, fun r hr => ⟨fun xs holds => holds.mem_of_next ?_, fun r' _ =>
      ⟨short r', fun r' _ => ⟨short r', fun _ _ => trivial⟩⟩⟩⟩
  have hnext : (Request.step 0 (Request.enqueued replyBehindRequest) (.tick 3)).map
      (fun r => (r.st.heap .sendList).next) = some (some (.entry 0)) := by decide
  rw [show Request.step 0 (Request.enqueued replyBehindRequest) (.tick 3) = some r from hr] at hnext
  exact Option.some.inj hnext

end WifiExpander
