import WifiExpander.SendQueue

/-!
One period of `App_Uart_Poll_Task`, on a send list of any length.

`SendPath` has the code with its six buffers. Here the entries are of any type, so
nothing depends on how many there are, and the counters of `uart_poll_t` wrap as
they do in C. The traversal is also defined on the list alone (`visited`, `kept`,
`periodActs`); `pollTick_spec` says that the pointer code carries it out on every
well-formed list, whatever is unlinked on the way.
-/

namespace WifiExpander

open WifiExpander.Theory

variable {β : Type} [DecidableEq β]

/-! ### The code -/

/-- The `list_head` objects of a send list. -/
inductive PollAddr (β : Type) where
  /-- `g_uart_send_list` -/
  | sendList
  /-- the `list` field of a `uart_send_format_t` -/
  | entry (b : β)
deriving DecidableEq

/-- What the poll task does to an entry. -/
inductive PollAct (β : Type) where
  /-- the body of the loop runs with `parray` at it -/
  | visited (b : β)
  /-- `OSQPost` -/
  | posted (b : β)
  /-- `list_del` -/
  | unlinked (a : PollAddr β)
  /-- `buf_factory_recycle` of its `buf` -/
  | recycled (b buf : β)
deriving DecidableEq

/-- The entries' fields that the poll task uses, and what it did. -/
structure PollState (β : Type) where
  heap : ListHeap (PollAddr β) β
  poll : β → UartPoll
  buf : β → β
  acts : List (PollAct β)

/-- An addition on `uint32_t`. -/
def addU32 (n k : Nat) : Nat := (n + k) % UInt32.size

namespace PollState

def act (s : PollState β) (a : PollAct β) : PollState β := { s with acts := s.acts ++ [a] }

def setPoll (s : PollState β) (b : β) (p : UartPoll) : PollState β :=
  { s with poll := Function.update s.poll b p }

/-- `p = p->next; list_del(p->prev)`, with the new `p` -/
def nextDel (s : PollState β) (p : PollAddr β) : Option (PollAddr β × PollState β) := do
  let next ← (s.heap p).next
  let prev ← (s.heap next).prev
  let heap ← listDel s.heap prev
  some (next, { s with heap }.act (.unlinked prev))

/-- `memset(&poll, 0, ..)` and `buf_factory_recycle(0, b->buf, g_uart_send_buf)` -/
def recycle (s : PollState β) (b : β) : PollState β :=
  (s.setPoll b .zero).act (.recycled b (s.buf b))

/-- The body of the loop of `App_Uart_Poll_Task`: where it goes on, `none` after a
`break`. -/
def pollBody (p : PollAddr β) (s : PollState β) : Option (Option (PollAddr β) × PollState β) := do
  let b ← (s.heap p).owner
  let poll := s.poll b
  let s := s.act (.visited b)
  if poll.type = 0 then
    let s := (s.setPoll b { poll with freeFlag := 1 }).act (.posted b)
    let (_, s) ← s.nextDel p
    some (none, s)
  else if poll.type = 1 then
    if poll.times = 0 then
      some (none, (s.setPoll b { poll with times := addU32 poll.times 1 }).act (.posted b))
    else if poll.freeFlag ≠ 0 then
      let (p, s) ← s.nextDel p
      some (some p, s.recycle b)
    else
      let delay := addU32 poll.delay 5
      if delay ≥ 500 then
        let times := addU32 poll.times 1
        let s := s.setPoll b { poll with delay := 0, times }
        if times > 3 then
          let (p, s) ← s.nextDel p
          some (some p, s.recycle b)
        else some (none, s.act (.posted b))
      else
        let s := s.setPoll b { poll with delay }
        let p ← (s.heap p).next
        some (some p, s)
  else
    let p ← (s.heap p).next
    some (some p, s)

/-- The loop from entry `p` on, at most `fuel` times. -/
def pollLoop : Nat → PollAddr β → PollState β → Option (PollState β)
  | 0, _, _ => none
  | fuel + 1, p, s =>
      if p = .sendList then some s
      else do
        let (next, s) ← s.pollBody p
        match next with
        | none => some s
        | some p => pollLoop fuel p s

/-- One period of `App_Uart_Poll_Task` -/
def pollTick (fuel : Nat) (s : PollState β) : Option (PollState β) := do
  let p ← (s.heap .sendList).next
  s.pollLoop fuel p

/-- The send list is well formed and holds the entries `xs`. -/
structure Holds (s : PollState β) (xs : List β) : Prop where
  list : IsList s.heap .sendList (xs.map .entry)
  owner : ∀ b ∈ xs, (s.heap (.entry b)).owner = some b

end PollState

/-! ### The traversal of a list -/

/-- What the poll task does with an entry, with counters that wrap. -/
def pollVerdict32 (p : UartPoll) : PollVerdict :=
  if p.type = 0 then .release
  else if p.type = 1 then
    if p.times = 0 then .first
    else if p.freeFlag ≠ 0 then .answered
    else if addU32 p.delay 5 ≥ 500 then
      if addU32 p.times 1 > 3 then .expired else .again
    else .wait
  else .skip

/-- Counters that do not wrap are what `Tx` has. -/
theorem pollVerdict32_eq {p : UartPoll} (hdelay : p.delay + 5 < UInt32.size)
    (htimes : p.times + 1 < UInt32.size) : pollVerdict32 p = pollVerdict p := by
  rw [pollVerdict32, addU32, addU32, Nat.mod_eq_of_lt hdelay, Nat.mod_eq_of_lt htimes, pollVerdict]

/-- The entry leaves the list. -/
def PollVerdict.unlinks : PollVerdict → Bool
  | .release | .answered | .expired => true
  | _ => false

/-- The buffer of the entry is recycled. -/
def PollVerdict.retires : PollVerdict → Bool
  | .answered | .expired => true
  | _ => false

/-- The `poll` field after a visit. -/
def pollAfter : PollVerdict → UartPoll → UartPoll
  | .skip, p => p
  | .wait, p => { p with delay := addU32 p.delay 5 }
  | .answered, _ | .expired, _ => .zero
  | .release, p => { p with freeFlag := 1 }
  | .first, p => { p with times := addU32 p.times 1 }
  | .again, p => { p with delay := 0, times := addU32 p.times 1 }

/-- What a visit does. -/
def visitActs (k : PollVerdict) (buf : β → β) (b : β) : List (PollAct β) :=
  .visited b ::
    match k with
    | .skip | .wait => []
    | .answered | .expired => [.unlinked (.entry b), .recycled b (buf b)]
    | .release => [.posted b, .unlinked (.entry b)]
    | .first | .again => [.posted b]

section

variable (poll : β → UartPoll)

def verdictAt (b : β) : PollVerdict := pollVerdict32 (poll b)

/-- The entries a period visits: up to the first post. -/
def visited : List β → List β
  | [] => []
  | b :: r => if (verdictAt poll b).posts then [b] else b :: visited r

/-- The entries that are left. -/
def kept : List β → List β
  | [] => []
  | b :: r =>
      (if (verdictAt poll b).unlinks then [] else [b]) ++
        if (verdictAt poll b).posts then r else kept r

/-- What a period does. -/
def periodActs (buf : β → β) (xs : List β) : List (PollAct β) :=
  (visited poll xs).flatMap fun b => visitActs (verdictAt poll b) buf b

/-- The `poll` fields after a period. -/
def periodPoll (xs : List β) (b : β) : UartPoll :=
  if b ∈ visited poll xs then pollAfter (verdictAt poll b) (poll b) else poll b

end

section

variable {poll poll' : β → UartPoll} {r xs : List β} {b : β}

omit [DecidableEq β] in
theorem visited_congr (same : ∀ b ∈ r, poll' b = poll b) : visited poll' r = visited poll r := by
  induction r with
  | nil => rfl
  | cons b r ih =>
      rw [visited, visited, verdictAt, verdictAt, same b List.mem_cons_self,
        ih fun c hc => same c (List.mem_cons_of_mem _ hc)]

omit [DecidableEq β] in
theorem kept_congr (same : ∀ b ∈ r, poll' b = poll b) : kept poll' r = kept poll r := by
  induction r with
  | nil => rfl
  | cons b r ih =>
      rw [kept, kept, verdictAt, verdictAt, same b List.mem_cons_self,
        ih fun c hc => same c (List.mem_cons_of_mem _ hc)]

omit [DecidableEq β] in
/-- **No entry is skipped**: the visited ones are a first part of the list. -/
theorem visited_initial : visited poll r <+: r := by
  induction r with
  | nil => exact List.prefix_refl _
  | cons b r ih =>
      rw [visited]
      split
      · exact ⟨r, rfl⟩
      · exact (List.prefix_cons_inj b).mpr ih

omit [DecidableEq β] in
theorem periodActs_congr (same : ∀ b ∈ r, poll' b = poll b) (buf : β → β) :
    periodActs poll' buf r = periodActs poll buf r := by
  unfold periodActs
  rw [visited_congr same]
  exact List.flatMap_congr fun b hb => by
    rw [verdictAt, verdictAt, same b (visited_initial.subset hb)]

/-- The rest of a period after a visit that does not post. -/
theorem periodPoll_cons (hbr : b ∉ r) (hposts : ¬ (verdictAt poll b).posts = true) :
    periodPoll (Function.update poll b (pollAfter (verdictAt poll b) (poll b))) r =
      periodPoll poll (b :: r) := by
  have hsame : ∀ c ∈ r,
      Function.update poll b (pollAfter (verdictAt poll b) (poll b)) c = poll c := fun c hc =>
    Function.update_of_ne (fun heq : c = b => hbr (heq ▸ hc)) _ _
  funext c
  rw [periodPoll, periodPoll, visited_congr hsame, visited, if_neg hposts]
  by_cases hcb : c = b
  · have hnot : c ∉ visited poll r := fun hc => hbr (hcb ▸ visited_initial.subset hc)
    rw [if_neg hnot, hcb, Function.update_self, if_pos List.mem_cons_self]
  · simp only [verdictAt, Function.update_of_ne hcb, List.mem_cons, hcb, false_or]

end

/-! ### The code carries out the traversal -/

namespace PollState

variable {s : PollState β} {b : β} {l r xs : List β}

/-- The list element at the front of a part of the send list. -/
def frontOf : List β → PollAddr β
  | [] => .sendList
  | b :: _ => .entry b

omit [DecidableEq β] in
theorem frontOf_eq (r : List β) :
    frontOf r = (r.map PollAddr.entry ++ [PollAddr.sendList]).head (by simp) := by
  cases r <;> rfl

omit [DecidableEq β] in
theorem Holds.next (h : s.Holds (l ++ b :: r)) : (s.heap (.entry b)).next = some (frontOf r) := by
  have hlist := h.list
  rw [List.map_append, List.map_cons] at hlist
  rw [frontOf_eq]
  exact IsRing.next_of_split hlist

omit [DecidableEq β] in
theorem Holds.nodup (h : s.Holds xs) : xs.Nodup := h.list.nodup.of_map

/-- `p = p->next; list_del(p->prev)` unlinks the entry at `p`, wherever it is. -/
theorem Holds.nextDel (h : s.Holds (l ++ b :: r)) :
    ∃ heap, s.nextDel (.entry b) =
        some (frontOf r, ⟨heap, s.poll, s.buf, s.acts ++ [.unlinked (.entry b)]⟩) ∧
      IsList heap .sendList ((l ++ r).map .entry) ∧ ∀ a, (heap a).owner = (s.heap a).owner := by
  have hlist : IsList s.heap .sendList (l.map .entry ++ PollAddr.entry b :: r.map .entry) := by
    simpa using h.list
  obtain ⟨heap, hdel, hlist', -, -, howner, -⟩ := hlist.listDel
  have hfront : r.map PollAddr.entry ++ [PollAddr.sendList] =
      frontOf r :: (r.map PollAddr.entry ++ [PollAddr.sendList]).tail := by
    rw [frontOf_eq, List.cons_head_tail]
  have hlinked : Linked (fun a => (s.heap a).next) (fun a => (s.heap a).prev)
      (.entry b) (frontOf r) := by
    refine IsRing.linked_of_split (l := l.map .entry ++ [PollAddr.entry b]) (r := r.map .entry)
      (u := PollAddr.sendList :: l.map .entry) ?_ (by simp) hfront
    simpa [IsList] using hlist
  refine ⟨heap, ?_, by simpa using hlist', howner⟩
  simp only [PollState.nextDel, hlinked.1, hlinked.2, hdel, Option.bind_eq_bind, Option.bind_some,
    act]

/-- **One visit**: what the body of the loop does to the entry after `l`. -/
theorem pollBody_spec (h : s.Holds (l ++ b :: r)) :
    ∃ heap, s.pollBody (.entry b) =
        some (if (verdictAt s.poll b).posts then none else some (frontOf r),
          ⟨heap, Function.update s.poll b (pollAfter (verdictAt s.poll b) (s.poll b)), s.buf,
            s.acts ++ visitActs (verdictAt s.poll b) s.buf b⟩) ∧
      IsList heap .sendList
        ((l ++ ((if (verdictAt s.poll b).unlinks then [] else [b]) ++ r)).map .entry) ∧
      ∀ a, (heap a).owner = (s.heap a).owner := by
  have howner := h.owner b (by simp)
  have hlist : IsList s.heap .sendList ((l ++ ([b] ++ r)).map .entry) := h.list
  -- after any changes to `poll` and `acts`
  have hdel : ∀ (poll : β → UartPoll) (acts : List (PollAct β)), ∃ heap,
      (⟨s.heap, poll, s.buf, acts⟩ : PollState β).nextDel (.entry b) =
        some (frontOf r, ⟨heap, poll, s.buf, acts ++ [.unlinked (.entry b)]⟩) ∧
      IsList heap .sendList ((l ++ r).map .entry) ∧ ∀ a, (heap a).owner = (s.heap a).owner :=
    fun poll acts => Holds.nextDel (s := ⟨s.heap, poll, s.buf, acts⟩) ⟨h.list, h.owner⟩
  simp only [pollBody, howner, Option.bind_eq_bind, Option.bind_some, act, setPoll, verdictAt,
    pollVerdict32]
  by_cases h0 : (s.poll b).type = 0
  · obtain ⟨heap, heq, hheap⟩ := hdel
      (Function.update s.poll b { s.poll b with freeFlag := 1 })
      (s.acts ++ [.visited b] ++ [.posted b])
    refine ⟨heap, ?_, by simpa [h0, PollVerdict.unlinks] using hheap⟩
    simp only [if_pos h0, heq, Option.bind_some]
    simp [PollVerdict.posts, pollAfter, visitActs]
  simp only [if_neg h0]
  by_cases h1 : (s.poll b).type = 1
  · simp only [if_pos h1]
    by_cases htimes : (s.poll b).times = 0
    · exact ⟨s.heap, by simp [htimes, PollVerdict.posts, pollAfter, visitActs],
        by simpa [htimes, PollVerdict.unlinks] using hlist, fun _ => rfl⟩
    simp only [if_neg htimes]
    by_cases hfree : (s.poll b).freeFlag ≠ 0
    · obtain ⟨heap, heq, hheap⟩ := hdel s.poll (s.acts ++ [.visited b])
      refine ⟨heap, ?_, by simpa [hfree, PollVerdict.unlinks] using hheap⟩
      simp only [if_pos hfree, heq, Option.bind_some]
      simp [PollVerdict.posts, pollAfter, visitActs, recycle, act, setPoll]
    simp only [if_neg hfree]
    by_cases hdelay : addU32 (s.poll b).delay 5 ≥ 500
    · simp only [if_pos hdelay]
      by_cases hthree : addU32 (s.poll b).times 1 > 3
      · obtain ⟨heap, heq, hheap⟩ := hdel
          (Function.update s.poll b
            { s.poll b with delay := 0, times := addU32 (s.poll b).times 1 })
          (s.acts ++ [.visited b])
        refine ⟨heap, ?_, by simpa [hthree, PollVerdict.unlinks] using hheap⟩
        simp only [if_pos hthree, heq, Option.bind_some]
        simp [PollVerdict.posts, pollAfter, visitActs, recycle, act, setPoll]
      · exact ⟨s.heap, by simp [hthree, PollVerdict.posts, pollAfter, visitActs],
          by simpa [hthree, PollVerdict.unlinks] using hlist, fun _ => rfl⟩
    · simp only [if_neg hdelay, h.next, Option.bind_some]
      exact ⟨s.heap, by simp [PollVerdict.posts, pollAfter, visitActs],
        by simpa [PollVerdict.unlinks] using hlist, fun _ => rfl⟩
  · simp only [if_neg h1, h.next, Option.bind_some]
    exact ⟨s.heap, by simp [PollVerdict.posts, pollAfter, visitActs],
      by simpa [PollVerdict.unlinks] using hlist, fun _ => rfl⟩

/-- The loop carries out the traversal of the part of the list it has before it. -/
theorem pollLoop_spec {fuel : Nat} (h : s.Holds (l ++ r)) (hfuel : r.length < fuel) :
    ∃ heap, s.pollLoop fuel (frontOf r) =
        some ⟨heap, periodPoll s.poll r, s.buf, s.acts ++ periodActs s.poll s.buf r⟩ ∧
      IsList heap .sendList ((l ++ kept s.poll r).map .entry) ∧
      ∀ a, (heap a).owner = (s.heap a).owner := by
  induction r generalizing s l fuel with
  | nil =>
      obtain ⟨fuel, rfl⟩ := Nat.exists_eq_succ_of_ne_zero (Nat.ne_zero_of_lt hfuel)
      have hpoll : periodPoll s.poll [] = s.poll := by
        funext b
        simp [periodPoll, visited]
      refine ⟨s.heap, ?_, by simpa [kept] using h.list, fun _ => rfl⟩
      rw [hpoll]
      simp [pollLoop, frontOf, periodActs, visited]
  | cons b r ih =>
      obtain ⟨fuel, rfl⟩ := Nat.exists_eq_succ_of_ne_zero (Nat.ne_zero_of_lt hfuel)
      obtain ⟨heap, hbody, hlist, howner⟩ := pollBody_spec h
      have hbr : b ∉ r := (notMem_of_nodup_split h.nodup).2
      set k := verdictAt s.poll b with hk
      set s₁ : PollState β := ⟨heap, Function.update s.poll b (pollAfter k (s.poll b)), s.buf,
        s.acts ++ visitActs k s.buf b⟩ with hs₁
      have hsame : ∀ c ∈ r, s₁.poll c = s.poll c := by
        intro c hc
        simp only [hs₁, Function.update_apply, if_neg (fun heq => hbr (heq ▸ hc) : c ≠ b)]
      have hfront : frontOf (b :: r) = .entry b := rfl
      simp only [pollLoop, hfront, reduceCtorEq, if_false, hbody, Option.bind_eq_bind,
        Option.bind_some]
      by_cases hposts : k.posts = true
      · -- a visit that posts is the last one
        simp only [if_pos hposts]
        refine ⟨heap, ?_, by simpa [kept, ← hk, hposts] using hlist, howner⟩
        simp only [hs₁, Option.some.injEq, PollState.mk.injEq, true_and]
        refine ⟨?_, by simp [periodActs, visited, ← hk, hposts]⟩
        funext c
        by_cases hcb : c = b <;> simp [periodPoll, visited, ← hk, hposts, hcb]
      · simp only [if_neg hposts]
        have hholds : s₁.Holds ((l ++ if k.unlinks then [] else [b]) ++ r) := by
          refine ⟨by rw [List.append_assoc]; exact hlist, ?_⟩
          intro c hc
          rw [howner]
          refine h.owner c ?_
          rcases List.mem_append.mp hc with hc | hc
          · rcases List.mem_append.mp hc with hc | hc
            · exact List.mem_append_left _ hc
            · split at hc <;> simp_all
          · exact List.mem_append_right _ (List.mem_cons_of_mem _ hc)
        obtain ⟨heap', hloop, hlist', howner'⟩ := ih hholds (by simpa using hfuel)
        refine ⟨heap', ?_, ?_, fun a => (howner' a).trans (howner a)⟩
        · rw [hloop]
          simp only [Option.some.injEq, PollState.mk.injEq, true_and]
          refine ⟨periodPoll_cons hbr hposts, rfl, ?_⟩
          · rw [periodActs_congr hsame]
            simp [hs₁, periodActs, visited, ← hk, hposts]
        · rw [kept_congr hsame, List.append_assoc] at hlist'
          simpa [kept, ← hk, hposts] using hlist'

/-- A loop that is over stays so with more fuel. -/
theorem pollLoop_mono {fuel fuel' : Nat} {p : PollAddr β} {s s' : PollState β}
    (h : s.pollLoop fuel p = some s') (hle : fuel ≤ fuel') : s.pollLoop fuel' p = some s' := by
  induction fuel generalizing p s fuel' with
  | zero => cases h
  | succ fuel ih =>
      obtain ⟨fuel', rfl⟩ := Nat.exists_eq_succ_of_ne_zero (Nat.ne_zero_of_lt hle)
      rw [pollLoop] at h ⊢
      by_cases hp : p = .sendList
      · rwa [if_pos hp] at h ⊢
      · rw [if_neg hp] at h ⊢
        obtain ⟨⟨next, s₁⟩, hbody, hrest⟩ := Option.bind_eq_some_iff.mp h
        simp only [hbody, Option.bind_eq_bind, Option.bind_some]
        cases next with
        | none => exact hrest
        | some p' => exact ih hrest (Nat.le_of_succ_le_succ hle)

/-- **A period of the code is the traversal of its list**, with any fuel that is
enough. -/
theorem pollTick_spec (h : s.Holds xs) :
    ∃ heap, (∀ fuel, xs.length < fuel → s.pollTick fuel =
        some ⟨heap, periodPoll s.poll xs, s.buf, s.acts ++ periodActs s.poll s.buf xs⟩) ∧
      IsList heap .sendList ((kept s.poll xs).map .entry) ∧
      ∀ a, (heap a).owner = (s.heap a).owner := by
  have hhead : (s.heap .sendList).next = some (frontOf xs) := by
    rw [frontOf_eq]
    exact IsRing.next_head h.list
  obtain ⟨heap, hloop, hlist, howner⟩ := pollLoop_spec (l := []) h (Nat.lt_succ_self xs.length)
  refine ⟨heap, ?_, hlist, howner⟩
  intro fuel hfuel
  simp only [pollTick, hhead, Option.bind_eq_bind, Option.bind_some]
  exact pollLoop_mono hloop hfuel

end PollState

/-! ### What a traversal does -/

/-- The entries visited, in order. -/
def visitsOf (acts : List (PollAct β)) : List β :=
  acts.filterMap fun
    | .visited b => some b
    | _ => none

/-- The entries posted, in order. -/
def postsOf (acts : List (PollAct β)) : List β :=
  acts.filterMap fun
    | .posted b => some b
    | _ => none

/-- The nodes unlinked, in order. -/
def unlinksOf (acts : List (PollAct β)) : List (PollAddr β) :=
  acts.filterMap fun
    | .unlinked a => some a
    | _ => none

/-- The entries retired, in order, each with the buffer recycled. -/
def recyclesOf (acts : List (PollAct β)) : List (β × β) :=
  acts.filterMap fun
    | .recycled b buf => some (b, buf)
    | _ => none

/-- A request that was posted and has been answered since. -/
def Answered (p : UartPoll) : Prop := p.type = 1 ∧ p.times ≠ 0 ∧ p.freeFlag ≠ 0

/-- A request that has not been answered after its last post. -/
def Exhausted (p : UartPoll) : Prop :=
  p.type = 1 ∧ p.times ≠ 0 ∧ p.freeFlag = 0 ∧ addU32 p.delay 5 ≥ 500 ∧ addU32 p.times 1 > 3

instance (p : UartPoll) : Decidable (Answered p) := inferInstanceAs (Decidable (_ ∧ _))

instance (p : UartPoll) : Decidable (Exhausted p) := inferInstanceAs (Decidable (_ ∧ _))

/-- A period that did `acts` to the list `xs` and left `s'`. -/
structure Traverses (s : PollState β) (xs : List β) (acts : List (PollAct β)) (s' : PollState β) :
    Prop where
  /-- in list order, without skipping one -/
  visits : visitsOf acts <+: xs
  once : (visitsOf acts).Nodup
  /-- The last entry visited is the only one posted, or there is no post at all and
  the whole list is visited. -/
  post : postsOf acts = [] ∧ visitsOf acts = xs ∨
    ∃ b, postsOf acts = [b] ∧ (visitsOf acts).getLast? = some b
  unlinks : unlinksOf acts = ((visitsOf acts).filter fun b =>
    (b ∈ postsOf acts ∧ (s.poll b).type = 0) ∨ Answered (s.poll b) ∨ Exhausted (s.poll b)).map .entry
  recycles : recyclesOf acts = ((visitsOf acts).filter fun b =>
    Answered (s.poll b) ∨ Exhausted (s.poll b)).map fun b => (b, s.buf b)
  list : ∃ ys, s'.Holds ys ∧ ys.Sublist xs ∧ ∀ b ∈ xs, b ∈ ys ↔ PollAddr.entry b ∉ unlinksOf acts

section

variable {poll : β → UartPoll} {buf : β → β} {xs : List β} {b : β}

omit [DecidableEq β] in
/-- The actions of one kind: one for each visit whose verdict has it. -/
theorem filterMap_visits {γ : Type} {f : PollAct β → Option γ} {p : PollVerdict → Bool} {g : β → γ}
    (hvisit : ∀ k b, (visitActs k buf b).filterMap f = if p k then [g b] else []) (ys : List β) :
    (ys.flatMap fun b => visitActs (verdictAt poll b) buf b).filterMap f =
      (ys.filter fun b => p (verdictAt poll b)).map g := by
  induction ys with
  | nil => rfl
  | cons b ys ih =>
      rw [List.flatMap_cons, List.filterMap_append, hvisit, ih, List.filter_cons]
      split <;> rfl

omit [DecidableEq β] in
theorem visitsOf_visits (ys : List β) :
    visitsOf (ys.flatMap fun b => visitActs (verdictAt poll b) buf b) = ys := by
  have h : visitsOf (ys.flatMap fun b => visitActs (verdictAt poll b) buf b) =
      (ys.filter fun _ => true).map id :=
    filterMap_visits (p := fun _ => true) (fun k b => by cases k <;> rfl) ys
  rwa [List.filter_true, List.map_id] at h

omit [DecidableEq β] in
theorem postsOf_visits (ys : List β) :
    postsOf (ys.flatMap fun b => visitActs (verdictAt poll b) buf b) =
      ys.filter fun b => (verdictAt poll b).posts := by
  have h : postsOf (ys.flatMap fun b => visitActs (verdictAt poll b) buf b) =
      (ys.filter fun b => (verdictAt poll b).posts).map id :=
    filterMap_visits (fun k b => by cases k <;> rfl) ys
  rwa [List.map_id] at h

omit [DecidableEq β] in
theorem unlinksOf_visits (ys : List β) :
    unlinksOf (ys.flatMap fun b => visitActs (verdictAt poll b) buf b) =
      (ys.filter fun b => (verdictAt poll b).unlinks).map .entry :=
  filterMap_visits (fun k b => by cases k <;> rfl) ys

omit [DecidableEq β] in
theorem recyclesOf_visits (ys : List β) :
    recyclesOf (ys.flatMap fun b => visitActs (verdictAt poll b) buf b) =
      (ys.filter fun b => (verdictAt poll b).retires).map fun b => (b, buf b) :=
  filterMap_visits (fun k b => by cases k <;> rfl) ys

omit [DecidableEq β] in
/-- Only the last visit posts; without a post every entry is visited. -/
theorem visited_posts (xs : List β) :
    ((visited poll xs).filter fun b => (verdictAt poll b).posts) = [] ∧ visited poll xs = xs ∨
      ∃ b, ((visited poll xs).filter fun b => (verdictAt poll b).posts) = [b] ∧
        (visited poll xs).getLast? = some b := by
  induction xs with
  | nil => exact .inl ⟨rfl, rfl⟩
  | cons b xs ih =>
      rw [visited]
      by_cases hposts : (verdictAt poll b).posts = true
      · exact .inr ⟨b, by simp [hposts]⟩
      · rw [if_neg hposts, List.filter_cons, if_neg hposts]
        rcases ih with ⟨hnone, hall⟩ | ⟨c, hpost, hlast⟩
        · exact .inl ⟨hnone, by rw [hall]⟩
        · exact .inr ⟨c, hpost, by rw [List.getLast?_cons, hlast]; rfl⟩

omit [DecidableEq β] in
theorem kept_sublist : (kept poll xs).Sublist xs := by
  induction xs with
  | nil => exact List.Sublist.refl _
  | cons b xs ih =>
      have htail : (if (verdictAt poll b).posts then xs else kept poll xs).Sublist xs := by
        split
        · exact List.Sublist.refl _
        · exact ih
      rw [kept]
      split
      · exact htail.trans (List.sublist_cons_self b xs)
      · exact htail.cons_cons b

omit [DecidableEq β] in
/-- An entry is left unless its visit unlinks it. -/
theorem mem_kept (hnd : xs.Nodup) (hb : b ∈ xs) :
    b ∈ kept poll xs ↔ ¬ (b ∈ visited poll xs ∧ (verdictAt poll b).unlinks = true) := by
  induction xs with
  | nil => simp at hb
  | cons c xs ih =>
      obtain ⟨hc, hnd⟩ := List.nodup_cons.mp hnd
      rw [kept, visited]
      by_cases hbc : b = c
      · subst hbc
        have hkept : b ∉ kept poll xs := fun h => hc (kept_sublist.subset h)
        cases hposts : (verdictAt poll b).posts <;> cases hun : (verdictAt poll b).unlinks <;>
          simp [hc, hkept]
      · have hbx : b ∈ xs := (List.mem_cons.mp hb).resolve_left hbc
        have hih := ih hnd hbx
        cases hposts : (verdictAt poll c).posts <;> cases hun : (verdictAt poll c).unlinks <;>
          simp [hbc, hbx, hih]

end

/-- The verdicts in the words of `uart_poll_t`. -/
theorem retires_iff {p : UartPoll} :
    (pollVerdict32 p).retires = true ↔ Answered p ∨ Exhausted p := by
  unfold pollVerdict32 Answered Exhausted
  by_cases h0 : p.type = 0
  · simp [h0, PollVerdict.retires]
  by_cases h1 : p.type = 1
  · by_cases htimes : p.times = 0
    · simp [h1, htimes, PollVerdict.retires]
    · by_cases hfree : p.freeFlag = 0
      · by_cases hdelay : addU32 p.delay 5 ≥ 500
        · by_cases hthree : addU32 p.times 1 > 3 <;>
            simp [h1, htimes, hfree, hdelay, hthree, PollVerdict.retires]
        · simp [h1, htimes, hfree, hdelay, PollVerdict.retires]
      · simp [h1, htimes, hfree, PollVerdict.retires]
  · simp [h0, h1, PollVerdict.retires]

theorem unlinks_iff {p : UartPoll} :
    (pollVerdict32 p).unlinks = true ↔ p.type = 0 ∨ Answered p ∨ Exhausted p := by
  rw [← retires_iff]
  by_cases h0 : p.type = 0
  · simp [pollVerdict32, h0, PollVerdict.unlinks]
  · have hne : pollVerdict32 p ≠ .release := by
      intro h
      unfold pollVerdict32 at h
      rw [if_neg h0] at h
      split_ifs at h
    cases hk : pollVerdict32 p <;> simp_all [PollVerdict.unlinks, PollVerdict.retires]

/-- **One period refines a pure list traversal**, for every well-formed list. -/
theorem poll_tick_traverses (s : PollState β) (xs : List β) (h : s.Holds xs) :
    ∃ acts s', s'.acts = s.acts ++ acts ∧
      (∀ fuel, xs.length < fuel → s.pollTick fuel = some s') ∧ Traverses s xs acts s' := by
  obtain ⟨heap, htick, hlist, howner⟩ := PollState.pollTick_spec h
  have hvisits : visitsOf (periodActs s.poll s.buf xs) = visited s.poll xs := visitsOf_visits _
  have hposts : postsOf (periodActs s.poll s.buf xs) =
      (visited s.poll xs).filter fun b => (verdictAt s.poll b).posts := postsOf_visits _
  have hunlinks : unlinksOf (periodActs s.poll s.buf xs) =
      ((visited s.poll xs).filter fun b => (verdictAt s.poll b).unlinks).map .entry :=
    unlinksOf_visits _
  have hrecycles : recyclesOf (periodActs s.poll s.buf xs) =
      ((visited s.poll xs).filter fun b => (verdictAt s.poll b).retires).map fun b =>
        (b, s.buf b) := recyclesOf_visits _
  refine ⟨_, _, rfl, htick, ?_, ?_, ?_, ?_, ?_, ?_⟩
  · rw [hvisits]
    exact visited_initial
  · rw [hvisits]
    exact h.nodup.sublist visited_initial.sublist
  · rw [hvisits, hposts]
    exact visited_posts xs
  · rw [hvisits, hposts, hunlinks]
    refine congrArg _ (List.filter_congr fun b hb => ?_)
    have hrelease : (s.poll b).type = 0 → (verdictAt s.poll b).posts = true := fun h0 => by
      simp [verdictAt, pollVerdict32, h0, PollVerdict.posts]
    rw [Bool.eq_iff_iff, decide_eq_true_iff, verdictAt, unlinks_iff]
    simp only [List.mem_filter, hb, true_and]
    tauto
  · rw [hvisits, hrecycles]
    refine congrArg _ (List.filter_congr fun b _ => ?_)
    rw [Bool.eq_iff_iff, decide_eq_true_iff, verdictAt, retires_iff]
  · refine ⟨kept s.poll xs, ⟨hlist, ?_⟩, kept_sublist, ?_⟩
    · intro b hb
      rw [howner]
      exact h.owner b (kept_sublist.subset hb)
    · intro b hb
      rw [hunlinks, mem_kept h.nodup hb]
      simp

/-- An answered request, a waiting one and a reply. -/
def threeEntries : PollState (Fin 3) where
  heap
    | .sendList => ⟨some (.entry 0), some (.entry 2), none⟩
    | .entry 0 => ⟨some (.entry 1), some .sendList, some 0⟩
    | .entry 1 => ⟨some (.entry 2), some (.entry 0), some 1⟩
    | .entry 2 => ⟨some .sendList, some (.entry 1), some 2⟩
  poll
    | 0 => ⟨0, 1, 1, 1⟩
    | 1 => ⟨0, 1, 1, 0⟩
    | 2 => .zero
  buf := id
  acts := []

theorem threeEntries_holds : threeEntries.Holds [0, 1, 2] :=
  ⟨⟨by decide, by simp [Linked, threeEntries]⟩, by decide⟩

theorem poll_tick_traverses_threeEntries :
    ∃ acts s', s'.acts = threeEntries.acts ++ acts ∧
      (∀ fuel, [(0 : Fin 3), 1, 2].length < fuel → threeEntries.pollTick fuel = some s') ∧
      Traverses threeEntries [0, 1, 2] acts s' :=
  poll_tick_traverses threeEntries [0, 1, 2] threeEntries_holds

/-! ### The list of the send path -/

/-- With counters that do not wrap, a period of `Tx` visits the same entries and
does the same to them. -/
theorem pollPlan_eq_visited {mem : BufId → UartSendFormat} {bs : List BufId}
    (bounded : ∀ b ∈ bs, (mem b).poll.delay + 5 < UInt32.size ∧
      (mem b).poll.times + 1 < UInt32.size) :
    pollPlan mem bs =
      (visited (fun b => (mem b).poll) bs).map fun b => (pollVerdict (mem b).poll, b) := by
  induction bs with
  | nil => rfl
  | cons b bs ih =>
      obtain ⟨hdelay, htimes⟩ := bounded b List.mem_cons_self
      have hverdict : verdictAt (fun b => (mem b).poll) b = pollVerdict (mem b).poll :=
        pollVerdict32_eq hdelay htimes
      rw [pollPlan, visited, hverdict, ih fun c hc => bounded c (List.mem_cons_of_mem _ hc)]
      split <;> rfl

end WifiExpander
