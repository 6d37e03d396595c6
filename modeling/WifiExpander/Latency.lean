import WifiExpander.Schedule

/-!
How long an entry of the send list waits.

A period of `App_Uart_Poll_Task` posts one entry at most, the first on the list
that is due. An entry that has not been posted is due at its first visit, so it
waits for the posts of the entries ahead of it and for nothing else: a reply is
posted once, a request three times at most. Entries that are added meanwhile are
added behind it.
-/

namespace WifiExpander

open WifiExpander.Theory

variable {β : Type} [DecidableEq β]

/-! ### The posts an entry has left -/

/-- A reply is unlinked with its post, a request after its third one. -/
def postsLeft (p : UartPoll) : Nat :=
  if p.type = 0 then 1 else if p.type = 1 then 3 - p.times else 0

/-- The posts that entries have left between them. -/
def postsAhead (poll : β → UartPoll) : List β → Nat
  | [] => 0
  | c :: l => postsLeft (poll c) + postsAhead poll l

/-- Due at the next visit, whether it is a reply or a request. -/
def NotPosted (p : UartPoll) : Prop := p.type = 0 ∨ p.type = 1 ∧ p.times = 0

theorem NotPosted.posts {p : UartPoll} (h : NotPosted p) : (pollVerdict32 p).posts = true := by
  rcases h with h | ⟨h, htimes⟩
  · simp [pollVerdict32, PollVerdict.posts, h]
  · simp [pollVerdict32, PollVerdict.posts, h, htimes]

/-- A request has been posted three times at most. -/
def AtMostThrice (p : UartPoll) : Prop := p.type = 1 → p.times ≤ 3

theorem AtMostThrice.addU32_eq {p : UartPoll} (h : AtMostThrice p) (htype : p.type = 1) :
    addU32 p.times 1 = p.times + 1 :=
  Nat.mod_eq_of_lt (Nat.lt_of_le_of_lt (Nat.succ_le_succ (h htype)) (by decide))

/-- A visit that posts uses up a post. -/
theorem postsLeft_posted {p : UartPoll} (htimes : AtMostThrice p)
    (hposts : (pollVerdict32 p).posts = true) :
    (if (pollVerdict32 p).unlinks then 0 else postsLeft (pollAfter (pollVerdict32 p) p)) <
      postsLeft p := by
  by_cases htype : p.type = 1
  · have hle := htimes htype
    have hadd := htimes.addU32_eq htype
    clear htimes
    unfold pollVerdict32 at hposts ⊢
    rw [hadd] at hposts ⊢
    split_ifs at hposts ⊢ <;>
      simp_all [PollVerdict.posts, PollVerdict.unlinks, pollAfter, postsLeft]
    omega
  · unfold pollVerdict32 at hposts ⊢
    split_ifs at hposts ⊢ <;> simp_all [PollVerdict.posts, PollVerdict.unlinks, postsLeft]

/-- Another visit leaves them as they are. -/
theorem postsLeft_visited {p : UartPoll} (hposts : ¬ (pollVerdict32 p).posts = true)
    (hstays : ¬ (pollVerdict32 p).unlinks = true) :
    postsLeft (pollAfter (pollVerdict32 p) p) = postsLeft p := by
  unfold pollVerdict32 at hposts hstays ⊢
  split_ifs at hposts hstays ⊢ <;>
    simp_all [PollVerdict.posts, PollVerdict.unlinks, pollAfter, postsLeft]

/-- No visit takes `times` beyond three. -/
theorem AtMostThrice.visited {p : UartPoll} (h : AtMostThrice p) :
    AtMostThrice (pollAfter (pollVerdict32 p) p) := by
  by_cases htype : p.type = 1
  · have hle := h htype
    have hadd := h.addU32_eq htype
    intro _
    unfold pollVerdict32
    rw [hadd]
    split_ifs <;> simp_all [pollAfter, UartPoll.zero]
  · have hsame : pollAfter (pollVerdict32 p) p = p ∨
        pollAfter (pollVerdict32 p) p = { p with freeFlag := 1 } := by
      unfold pollVerdict32
      split_ifs
      · exact .inr rfl
      · exact .inl rfl
    rcases hsame with heq | heq <;> (rw [heq]; exact fun h' => absurd h' htype)

/-! ### One period -/

section

variable {poll poll' : β → UartPoll} {l r : List β}

omit [DecidableEq β] in
theorem postsAhead_congr (same : ∀ c ∈ l, poll' c = poll c) :
    postsAhead poll' l = postsAhead poll l := by
  induction l with
  | nil => rfl
  | cons c l ih =>
      rw [postsAhead, postsAhead, same c List.mem_cons_self,
        ih fun d hd => same d (List.mem_cons_of_mem _ hd)]

omit [DecidableEq β] in
/-- A period that posts within `l` does not get beyond it. -/
theorem period_within (h : ∃ c ∈ l, (verdictAt poll c).posts = true) :
    visited poll (l ++ r) = visited poll l ∧ kept poll (l ++ r) = kept poll l ++ r := by
  induction l with
  | nil => simp at h
  | cons c l ih =>
      rw [List.cons_append, visited, visited, kept, kept]
      by_cases hposts : (verdictAt poll c).posts = true
      · simp only [if_pos hposts, List.append_assoc, and_self]
      · simp only [if_neg hposts, List.append_assoc, List.cons.injEq, true_and]
        obtain ⟨d, hd, hdposts⟩ := h
        rcases List.mem_cons.mp hd with rfl | hd
        · exact absurd hdposts hposts
        · obtain ⟨hvisited, hkept⟩ := ih ⟨d, hd, hdposts⟩
          exact ⟨hvisited, by rw [hkept]⟩

omit [DecidableEq β] in
/-- A period that does not post within `l` goes on behind it. -/
theorem visited_beyond (h : ∀ c ∈ l, ¬ (verdictAt poll c).posts = true) :
    visited poll (l ++ r) = l ++ visited poll r := by
  induction l with
  | nil => rfl
  | cons c l ih =>
      rw [List.cons_append, visited, if_neg (h c List.mem_cons_self),
        ih fun d hd => h d (List.mem_cons_of_mem _ hd), List.cons_append]

theorem periodPoll_times (h : ∀ c ∈ l, AtMostThrice (poll c)) (xs : List β) :
    ∀ c ∈ l, AtMostThrice (periodPoll poll xs c) := by
  intro c hc
  rw [periodPoll]
  split
  · exact (h c hc).visited
  · exact h c hc

theorem periodPoll_head (c : β) (l : List β) :
    periodPoll poll (c :: l) c = pollAfter (verdictAt poll c) (poll c) := by
  rw [periodPoll, if_pos]
  rw [visited]
  split <;> exact List.mem_cons_self

/-- **A post within `l`** leaves fewer of them. -/
theorem postsAhead_period (hnd : l.Nodup) (htimes : ∀ c ∈ l, AtMostThrice (poll c))
    (h : ∃ c ∈ l, (verdictAt poll c).posts = true) :
    postsAhead (periodPoll poll l) (kept poll l) < postsAhead poll l := by
  induction l generalizing poll with
  | nil => simp at h
  | cons c l ih =>
      obtain ⟨hcl, hnd⟩ := List.nodup_cons.mp hnd
      have hc := htimes c List.mem_cons_self
      by_cases hposts : (verdictAt poll c).posts = true
      · have hvisited : visited poll (c :: l) = [c] := by rw [visited, if_pos hposts]
        have hothers : ∀ d ∈ l, periodPoll poll (c :: l) d = poll d := by
          intro d hd
          have hdc : d ≠ c := fun heq => hcl (heq ▸ hd)
          simp [periodPoll, hvisited, hdc]
        have hless := postsLeft_posted hc hposts
        rw [kept, if_pos hposts, postsAhead]
        cases hunlinks : (verdictAt poll c).unlinks with
        | true =>
            rw [show pollVerdict32 (poll c) = verdictAt poll c from rfl, if_pos hunlinks] at hless
            simp only [if_true, List.nil_append]
            rw [postsAhead_congr hothers]
            omega
        | false =>
            rw [show pollVerdict32 (poll c) = verdictAt poll c from rfl, hunlinks] at hless
            simp only [Bool.false_eq_true, if_false, List.cons_append, List.nil_append] at hless ⊢
            rw [postsAhead, postsAhead_congr hothers, periodPoll_head]
            exact Nat.add_lt_add_right hless _
      · -- the rest of the period is one from the state after this visit
        set poll₁ := Function.update poll c (pollAfter (verdictAt poll c) (poll c)) with hpoll₁
        have hsame : ∀ d ∈ l, poll₁ d = poll d := fun d hd =>
          Function.update_of_ne (fun heq : d = c => hcl (heq ▸ hd)) _ _
        have hrest : ∃ d ∈ l, (verdictAt poll₁ d).posts = true := by
          obtain ⟨d, hd, hdposts⟩ := h
          rcases List.mem_cons.mp hd with rfl | hd
          · exact absurd hdposts hposts
          · exact ⟨d, hd, by rw [verdictAt, hsame d hd]; exact hdposts⟩
        have htimes₁ : ∀ d ∈ l, AtMostThrice (poll₁ d) := fun d hd => by
          rw [hsame d hd]
          exact htimes d (List.mem_cons_of_mem _ hd)
        have hless := ih hnd htimes₁ hrest
        rw [postsAhead_congr hsame, kept_congr hsame, periodPoll_cons hcl hposts] at hless
        rw [kept, if_neg hposts, postsAhead]
        cases hunlinks : (verdictAt poll c).unlinks with
        | true =>
            simp only [if_true, List.nil_append]
            omega
        | false =>
            have hstays := postsLeft_visited hposts (by simpa [verdictAt] using hunlinks)
            simp only [Bool.false_eq_true, if_false, List.cons_append, List.nil_append]
            rw [postsAhead, periodPoll_head, verdictAt, hstays]
            omega

end

/-! ### Runs -/

/-- What happens to the send list: a period of the poll task, an entry added at
its end, `free_flag` set in an entry by the frame that answers it. -/
inductive ListEvent (β : Type) where
  | tick (fuel : Nat)
  | enqueue (c : β) (p : UartPoll)
  | mark (c : β)

def ListEvent.isTick : ListEvent β → Bool
  | .tick _ => true
  | _ => false

namespace PollState

/-- An entry is filled and `list_add_tail` puts it on the list. -/
def enqueue (c : β) (p : UartPoll) (s : PollState β) : Option (PollState β) := do
  let heap ← listAddTail (s.heap.setOwner (.entry c) (some c)) (.entry c) .sendList
  some { s.setPoll c p with heap }

/-- `free_flag = 1` in an entry -/
def mark (c : β) (s : PollState β) : PollState β :=
  s.setPoll c { s.poll c with freeFlag := 1 }

/-- One event. -/
def listStep (s : PollState β) : ListEvent β → Option (PollState β)
  | .tick fuel => s.pollTick fuel
  | .enqueue c p => s.enqueue c p
  | .mark c => some (s.mark c)

/-- The send list with whoever uses it. -/
def listMachine : Machine (PollState β) (ListEvent β) := ⟨listStep⟩

/-- The loop is given as many steps as the list is long, and a buffer is only
added while it is not on the list. -/
def ListAllowed (s : PollState β) : ListEvent β → Prop
  | .tick fuel => ∀ xs, s.Holds xs → xs.length < fuel
  | .enqueue c _ => ∀ xs, s.Holds xs → c ∉ xs
  | .mark _ => True

variable {s : PollState β} {b : β} {l r xs : List β}

/-- An entry added is the last one. -/
theorem Holds.enqueue {c : β} (h : s.Holds xs) (hc : c ∉ xs) (p : UartPoll) :
    ∃ s', s.enqueue c p = some s' ∧ s'.Holds (xs ++ [c]) ∧ s'.acts = s.acts ∧
      s'.poll = Function.update s.poll c p := by
  have hlist : IsList (s.heap.setOwner (.entry c) (some c)) .sendList (xs.map .entry) :=
    h.list.congr_links fun a _ => by simp
  have hfresh : PollAddr.entry c ∉ PollAddr.sendList :: xs.map .entry := by
    simpa using hc
  obtain ⟨heap, hadd, hlist', howner, -⟩ := hlist.listAddTail hfresh
  refine ⟨{ s.setPoll c p with heap }, by simp [PollState.enqueue, hadd], ⟨?_, ?_⟩, rfl, rfl⟩
  · simpa using hlist'
  · intro d hd
    rw [howner, ListHeap.setOwner_owner]
    rcases List.mem_append.mp hd with hd | hd
    · have hdc : d ≠ c := fun heq => hc (heq ▸ hd)
      simp [hdc, h.owner d hd]
    · obtain rfl := List.mem_singleton.mp hd
      simp

theorem Holds.tick (h : s.Holds xs) {fuel : Nat} (hfuel : xs.length < fuel) :
    ∃ s', s.pollTick fuel = some s' ∧ s'.Holds (kept s.poll xs) ∧
      s'.acts = s.acts ++ periodActs s.poll s.buf xs ∧ s'.poll = periodPoll s.poll xs := by
  obtain ⟨heap, htick, hlist, howner⟩ := pollTick_spec h
  refine ⟨_, htick fuel hfuel, ⟨hlist, ?_⟩, rfl, rfl⟩
  intro c hc
  rw [howner]
  exact h.owner c (kept_sublist.subset hc)

/-- `b` is still to be posted, and at most `n` posts come before its own. -/
def Waits (b : β) (s : PollState β) (n : Nat) : Prop :=
  ∃ l r, s.Holds (l ++ b :: r) ∧ NotPosted (s.poll b) ∧ (∀ c ∈ l, AtMostThrice (s.poll c)) ∧
    postsAhead s.poll l ≤ n

/-- `b` has been posted. -/
def Posted (b : β) (s : PollState β) : Prop := .posted b ∈ s.acts ∧ ∃ xs, s.Holds xs

omit [DecidableEq β] in
theorem mem_postsOf {b : β} {acts : List (PollAct β)} :
    b ∈ postsOf acts ↔ .posted b ∈ acts := by
  rw [postsOf, List.mem_filterMap]
  constructor
  · rintro ⟨a, ha, hab⟩
    cases a <;> simp at hab
    exact hab ▸ ha
  · intro h
    exact ⟨_, h, rfl⟩

omit [DecidableEq β] in
/-- A period in which nothing ahead of `b` is due posts `b`. -/
theorem posted_beyond (hb : NotPosted (s.poll b))
    (h : ∀ c ∈ l, ¬ (verdictAt s.poll c).posts = true) :
    .posted b ∈ periodActs s.poll s.buf (l ++ b :: r) := by
  have hposts : (verdictAt s.poll b).posts = true := hb.posts
  rw [← mem_postsOf, periodActs, postsOf_visits, visited_beyond h, visited, if_pos hposts]
  simp [hposts]

/-- **A period** posts `b` or uses up a post ahead of it. -/
theorem Waits.tick {n fuel : Nat} (h : Waits b s n) (hok : s.ListAllowed (.tick fuel)) :
    ∃ s', s.pollTick fuel = some s' ∧
      (Posted b s' ∨ ∃ n', Waits b s' n' ∧ n' + 1 ≤ n) := by
  obtain ⟨l, r, holds, hb, htimes, hle⟩ := h
  obtain ⟨s', htick, holds', hacts, hpoll⟩ := holds.tick (hok _ holds)
  refine ⟨s', htick, ?_⟩
  have hnd := holds.nodup
  have hbl : b ∉ l := (notMem_of_nodup_split hnd).1
  by_cases hpost : ∃ c ∈ l, (verdictAt s.poll c).posts = true
  · obtain ⟨hvisited, hkept⟩ := period_within (r := b :: r) hpost
    have hnot : b ∉ visited s.poll l := fun h => hbl (visited_initial.subset h)
    have hperiod : s'.poll = periodPoll s.poll l := by
      rw [hpoll]
      funext c
      rw [periodPoll, periodPoll, hvisited]
    have hpollb : s'.poll b = s.poll b := by rw [hperiod, periodPoll, if_neg hnot]
    have hless := postsAhead_period (List.nodup_append.mp hnd).1 htimes hpost
    rw [hkept] at holds'
    refine .inr ⟨postsAhead s'.poll (kept s.poll l), ⟨_, _, holds', ?_, ?_, Nat.le_refl _⟩, ?_⟩
    · rw [hpollb]
      exact hb
    · intro c hc
      rw [hpoll]
      exact periodPoll_times htimes _ c (kept_sublist.subset hc)
    · rw [hperiod]
      omega
  · refine .inl ⟨?_, _, holds'⟩
    rw [hacts]
    exact List.mem_append_right _ (posted_beyond hb fun c hc h => hpost ⟨c, hc, h⟩)

/-- Entries are added behind `b`. -/
theorem Waits.enqueue {n : Nat} {c : β} {p : UartPoll} (h : Waits b s n)
    (hok : s.ListAllowed (.enqueue c p)) : ∃ s', s.enqueue c p = some s' ∧ Waits b s' n := by
  obtain ⟨l, r, holds, hb, htimes, hle⟩ := h
  have hc := hok _ holds
  obtain ⟨s', hadd, holds', -, hpoll⟩ := holds.enqueue hc p
  have hsame : ∀ d ∈ l ++ b :: r, s'.poll d = s.poll d := fun d hd => by
    rw [hpoll, Function.update_of_ne fun heq : d = c => hc (heq ▸ hd)]
  have hsamel : ∀ d ∈ l, s'.poll d = s.poll d := fun d hd =>
    hsame d (List.mem_append_left _ hd)
  refine ⟨s', hadd, l, r ++ [c], by simpa using holds', ?_, ?_, ?_⟩
  · rw [hsame b (by simp)]
    exact hb
  · intro d hd
    rw [hsamel d hd]
    exact htimes d hd
  · rw [postsAhead_congr hsamel]
    exact hle

/-- An answer changes no count. -/
theorem Waits.mark {n : Nat} (h : Waits b s n) (c : β) : Waits b (s.mark c) n := by
  obtain ⟨l, r, holds, hb, htimes, hle⟩ := h
  have hsame : ∀ d, ((s.mark c).poll d).type = (s.poll d).type ∧
      ((s.mark c).poll d).times = (s.poll d).times := by
    intro d
    simp only [PollState.mark, setPoll, Function.update_apply]
    split
    · rename_i heq
      rw [heq]
      exact ⟨rfl, rfl⟩
    · exact ⟨rfl, rfl⟩
  have hahead : ∀ l, postsAhead (s.mark c).poll l = postsAhead s.poll l := by
    intro l
    induction l with
    | nil => rfl
    | cons d l ih => rw [postsAhead, postsAhead, ih, postsLeft, postsLeft, (hsame d).1, (hsame d).2]
  refine ⟨l, r, ⟨holds.list, holds.owner⟩, ?_, ?_, ?_⟩
  · rw [NotPosted, (hsame b).1, (hsame b).2]
    exact hb
  · intro d hd
    rw [AtMostThrice, (hsame d).1, (hsame d).2]
    exact htimes d hd
  · rw [hahead]
    exact hle

theorem Waits.step {n : Nat} {e : ListEvent β} (h : Waits b s n) (hok : s.ListAllowed e) :
    ∃ s', listMachine.step s e = some s' ∧
      (Posted b s' ∨ ∃ n', Waits b s' n' ∧ n' + e.isTick.toNat ≤ n) := by
  cases e with
  | tick fuel => exact h.tick hok
  | enqueue c p =>
      obtain ⟨s', hadd, hwaits⟩ := h.enqueue hok
      exact ⟨s', hadd, .inr ⟨n, hwaits, Nat.le_refl n⟩⟩
  | mark c => exact ⟨_, rfl, .inr ⟨n, h.mark c, Nat.le_refl n⟩⟩

/-- What was posted stays posted. -/
theorem Posted.step {e : ListEvent β} (h : Posted b s) (hok : s.ListAllowed e) :
    ∃ s', listMachine.step s e = some s' ∧ Posted b s' := by
  obtain ⟨hposted, xs, holds⟩ := h
  cases e with
  | tick fuel =>
      obtain ⟨s', htick, holds', hacts, -⟩ := holds.tick (hok _ holds)
      exact ⟨s', htick, hacts ▸ List.mem_append_left _ hposted, _, holds'⟩
  | enqueue c p =>
      obtain ⟨s', hadd, holds', hacts, -⟩ := holds.enqueue (hok _ holds) p
      exact ⟨s', hadd, hacts ▸ hposted, _, holds'⟩
  | mark c => exact ⟨_, rfl, hposted, xs, holds.list, holds.owner⟩

end PollState

/-- **Bounded waiting.** An entry that has not been posted is posted by the period
that follows as many as the entries ahead of it have posts left, whatever is
added to the list and answered meanwhile. No request ahead has been posted more often
than the poll task ever does. -/
theorem posted_within (s : PollState β) (l r : List β) (b : β) (holds : s.Holds (l ++ b :: r))
    (fresh : NotPosted (s.poll b)) (times : ∀ c ∈ l, AtMostThrice (s.poll c))
    (es : List (ListEvent β))
    (guarded : PollState.listMachine.Guarded PollState.ListAllowed s es) :
    ∃ s', PollState.listMachine.run s es = some s' ∧
      (postsAhead s.poll l < es.countP ListEvent.isTick → .posted b ∈ s'.acts) := by
  obtain ⟨s', hrun, hout⟩ := Machine.run_reaches (PollState.Waits b) (PollState.Posted b)
    (fun _ _ _ h hok => h.step hok) (fun _ _ h hok => h.step hok)
    ⟨l, r, holds, fresh, times, Nat.le_refl _⟩ guarded
  refine ⟨s', hrun, ?_⟩
  intro hless
  rcases hout with ⟨hposted, -⟩ | ⟨n, -, hle⟩
  · exact hposted
  · omega

/-- A reply behind a request waits for three posts at most. -/
theorem posted_within_four :
    ∃ s', PollState.listMachine.run replyBehindRequest
        [.tick 3, .tick 3, .mark 0, .tick 3, .tick 3] = some s' ∧
      (3 < 4 → PollAct.posted 1 ∈ s'.acts) := by
  have short : ∀ s : PollState (Fin 2), s.ListAllowed (.tick 3) := fun s xs holds =>
    Nat.lt_succ_of_le holds.nodup.length_le_card
  exact posted_within replyBehindRequest [0] [] 1 replyBehindRequest_holds (.inl rfl)
    (by simp [replyBehindRequest, AtMostThrice]) _
    ⟨short _, fun s _ => ⟨short s, fun s _ => ⟨trivial, fun s _ => ⟨short s, fun s _ =>
      ⟨short s, fun _ _ => trivial⟩⟩⟩⟩⟩

end WifiExpander
