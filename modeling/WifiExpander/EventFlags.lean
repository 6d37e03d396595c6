import WifiExpander.KernelQueue
import WifiExpander.Theory.Handshake
import Mathlib.Data.Finset.SDiff

/-!
Waiting for event flags, as `os_flag.c` computes it.

The flags of a group are a set. A post sets or clears some of them and readies every
waiting task whose flags are there; the task itself takes the flags out of the group,
if it consumes them, when it runs again, so until then they are there for others too.
`event_flags` says that no task waits for flags that are set, and that a flag which
only one task consumes behaves as a latch.

Waiting for flags to be clear, which is configured out, suspended tasks and the deletion
of groups are not modelled. A task that waits for something else makes no call.
-/

namespace WifiExpander

open Theory

variable {τ β : Type}

/-- `OS_OPT_PEND_FLAG_SET_ALL` and `OS_OPT_PEND_FLAG_SET_ANY` -/
inductive FlagMode where
  | all
  | any
deriving DecidableEq

/-- `OS_OPT_POST_FLAG_SET` and `OS_OPT_POST_FLAG_CLR` -/
inductive FlagOpt where
  | set
  | clr
deriving DecidableEq

/-- `FlagsPend` and `FlagsOpt` of a task; `timed` is `timeout > 0`. -/
structure FlagWait (β : Type) where
  want : Finset β
  mode : FlagMode
  consume : Bool
  timed : Bool

/-- What a call of `OSFlagPend` returns. -/
inductive FlagResult (β : Type) where
  | flags (rdy : Finset β)
  | wouldBlock
  | schedLocked
  | timeout

/-- `TaskState` of a task; until `OSFlagPend` returns, with the `FlagsRdy` it was
readied with, or `none` for a time-out. -/
inductive FlagState (β : Type) where
  | rdy
  | pend (p : FlagWait β)
  | woken (p : FlagWait β) (r : Option (Finset β))

/-- `OS_FLAG_GRP`, with the tasks that use it -/
structure FlagGrp (τ β : Type) where
  flags : Finset β
  pendList : List τ
  task : τ → FlagState β

section Calls

variable [DecidableEq τ] [DecidableEq β]

/-- `flags_rdy`, if the task need not wait -/
def FlagWait.ready (p : FlagWait β) (flags : Finset β) : Option (Finset β) :=
  match p.mode with
  | .all => if flags ∩ p.want = p.want then some (flags ∩ p.want) else none
  | .any => if flags ∩ p.want = ∅ then none else some (flags ∩ p.want)

namespace FlagGrp

/-- `if (consume == DEF_TRUE) p_grp->Flags &= ~flags_rdy` -/
def take (p : FlagWait β) (rdy : Finset β) (g : FlagGrp τ β) : FlagGrp τ β :=
  if p.consume then { g with flags := g.flags \ rdy } else g

/-- `OS_FlagTaskRdy` -/
def osFlagTaskRdy (t : τ) (p : FlagWait β) (rdy : Finset β) (g : FlagGrp τ β) : FlagGrp τ β :=
  { g with
    pendList := g.pendList.erase t
    task := Function.update g.task t (.woken p (some rdy)) }

/-- The body of the loop of `OSFlagPost` -/
def osFlagPostTask (g : FlagGrp τ β) (t : τ) : FlagGrp τ β :=
  match g.task t with
  | .pend p =>
      match p.ready g.flags with
      | some rdy => g.osFlagTaskRdy t p rdy
      | none => g
  | _ => g

/-- The flags after the first `switch` of `OSFlagPost` -/
def posted (opt : FlagOpt) (f flags : Finset β) : Finset β :=
  match opt with
  | .set => flags ∪ f
  | .clr => flags \ f

/-- `OSFlagPost` -/
def osFlagPost (opt : FlagOpt) (f : Finset β) (g : FlagGrp τ β) : FlagGrp τ β :=
  g.pendList.foldl osFlagPostTask { g with flags := posted opt f g.flags }

/-- `OS_FlagBlock` -/
def osFlagBlock (prio : τ → Nat) (t : τ) (p : FlagWait β) (g : FlagGrp τ β) : FlagGrp τ β :=
  { g with
    pendList := osPendListInsertPrio prio t g.pendList
    task := Function.update g.task t (.pend p) }

/-- `OSFlagPend`, with what it returns unless it blocks; `locked` is
`OSSchedLockNestingCtr > 0`. -/
def osFlagPend (prio : τ → Nat) (t : τ) (p : FlagWait β) (nonBlocking locked : Bool)
    (g : FlagGrp τ β) : Option (FlagResult β) × FlagGrp τ β :=
  match p.ready g.flags with
  | some rdy => (some (.flags rdy), g.take p rdy)
  | none =>
      if nonBlocking then (some .wouldBlock, g)
      else if locked then (some .schedLocked, g)
      else (none, g.osFlagBlock prio t p)

/-- The rest of `OSFlagPend`, when the task runs again -/
def osFlagPendReturn (t : τ) (g : FlagGrp τ β) :
    Option (FlagWait β × FlagResult β × FlagGrp τ β) :=
  match g.task t with
  | .woken p (some rdy) =>
      some (p, .flags rdy, { g with task := Function.update g.task t .rdy }.take p rdy)
  | .woken p none => some (p, .timeout, { g with task := Function.update g.task t .rdy })
  | _ => none

/-- What `OS_TickListUpdateTimeout` does for a task whose time is up -/
def osTickTimeout (t : τ) (g : FlagGrp τ β) : FlagGrp τ β :=
  match g.task t with
  | .pend p =>
      { g with
        pendList := g.pendList.erase t
        task := Function.update g.task t (.woken p none) }
  | _ => g

end FlagGrp

inductive FlagObs (τ β : Type) where
  | posted (opt : FlagOpt) (f : Finset β)
  | returned (t : τ) (p : FlagWait β) (r : FlagResult β)

/-- A group, and what has been done with it -/
structure FlagRun (τ β : Type) where
  grp : FlagGrp τ β
  log : List (FlagObs τ β)

/-- The calls, by tasks and interrupts, and the timeout that the tick task finds -/
inductive FlagCall (τ β : Type) where
  | post (opt : FlagOpt) (f : Finset β)
  | pend (t : τ) (p : FlagWait β) (nonBlocking locked : Bool)
  | pendReturn (t : τ)
  | timeout (t : τ)

/-- A group with the tasks that use it -/
def flagMachine (prio : τ → Nat) : Machine (FlagRun τ β) (FlagCall τ β) where
  step s
    | .post opt f => some ⟨s.grp.osFlagPost opt f, s.log ++ [.posted opt f]⟩
    | .pend t p nonBlocking locked =>
        let (r, grp) := s.grp.osFlagPend prio t p nonBlocking locked
        some ⟨grp, s.log ++ (r.map (.returned t p)).toList⟩
    | .pendReturn t =>
        (s.grp.osFlagPendReturn t).map fun (p, r, grp) => ⟨grp, s.log ++ [.returned t p r]⟩
    | .timeout t => some ⟨s.grp.osTickTimeout t, s.log⟩

end Calls

namespace FlagCall

/-- The call can be made: by a task that runs, or for one that waits for so long only. -/
def Possible (s : FlagRun τ β) : FlagCall τ β → Prop
  | .pend t _ _ _ => s.grp.task t = .rdy
  | .timeout t => ∃ p, s.grp.task t = .pend p ∧ p.timed = true
  | _ => True

/-- Only task `c` consumes flag `b`, and nobody clears it. -/
def Sole (b : β) (c : τ) : FlagCall τ β → Prop
  | .post .clr f => b ∉ f
  | .pend t p _ _ => p.consume = true → b ∈ p.want → t = c
  | _ => True

end FlagCall

/-- What has been done to flag `b`: a post may find it set. -/
def flagHistory [DecidableEq β] (b : β) (log : List (FlagObs τ β)) : List LatchEvent :=
  log.filterMap fun
    | .posted .set f => if b ∈ f then some .set else none
    | .returned _ p (.flags rdy) => if p.consume = true ∧ b ∈ rdy then some .take else none
    | _ => none

/-- The call that a task has not returned from -/
def FlagState.inCall : FlagState β → Option (FlagWait β)
  | .rdy => none
  | .pend p | .woken p _ => some p

/-! ### What a call does -/

section Calls

variable [DecidableEq β] {g : FlagGrp τ β} {t u : τ} {p : FlagWait β}
  {rdy flags flags' f : Finset β} {opt : FlagOpt}

/-- A waiting task after the loop of `OSFlagPost` has come to it. -/
def FlagState.tested (flags : Finset β) : FlagState β → FlagState β
  | .pend p =>
      match p.ready flags with
      | some rdy => .woken p (some rdy)
      | none => .pend p
  | st => st

namespace FlagWait

theorem ready_subset (h : p.ready flags = some rdy) : rdy ⊆ flags ∧ rdy ⊆ p.want := by
  unfold ready at h
  cases hmode : p.mode <;> simp only [hmode] at h <;> split at h <;>
    simp only [Option.some.injEq, reduceCtorEq] at h <;> subst h <;>
    exact ⟨Finset.inter_subset_left, Finset.inter_subset_right⟩

/-- A task that waits for any of its flags is readied with one. -/
theorem ready_ne_empty (h : p.ready flags = some rdy) (hmode : p.mode = .any) : rdy ≠ ∅ := by
  simp only [ready, hmode, Option.ite_none_left_eq_some, Option.some.injEq] at h
  obtain ⟨hne, rfl⟩ := h
  exact hne

/-- Flags that go away ready nobody. -/
theorem ready_anti (h : p.ready flags = none) (hsub : flags' ⊆ flags) :
    p.ready flags' = none := by
  unfold ready at h ⊢
  cases hmode : p.mode <;> simp only [hmode] at h ⊢
  case all =>
    have hne : ¬ p.want ⊆ flags := by simpa [Finset.inter_eq_right] using h
    rw [if_neg]
    rw [Finset.inter_eq_right]
    exact fun hwant => hne (hwant.trans hsub)
  case any =>
    have hnone : flags ∩ p.want = ∅ := by simpa using h
    rw [if_pos]
    exact Finset.subset_empty.mp (hnone ▸ Finset.inter_subset_inter_right hsub)

end FlagWait

namespace FlagState

@[simp] theorem tested_inCall {st : FlagState β} : (st.tested flags).inCall = st.inCall := by
  unfold tested
  split
  · split <;> rfl
  · rfl

/-- The loop leaves no task waiting for flags that are there. -/
theorem tested_pend {st : FlagState β} (h : st.tested flags = .pend p) :
    st = .pend p ∧ p.ready flags = none := by
  unfold tested at h
  cases st with
  | pend q => cases hrdy : q.ready flags <;> simp_all
  | rdy => simp at h
  | woken q r => simp at h

theorem tested_woken {st : FlagState β} {r : Option (Finset β)}
    (h : st.tested flags = .woken p r) :
    st = .woken p r ∨ st = .pend p ∧ ∃ rdy, r = some rdy ∧ p.ready flags = some rdy := by
  unfold tested at h
  cases st with
  | pend q =>
      cases hrdy : q.ready flags with
      | none => simp [hrdy] at h
      | some rdy =>
          simp only [hrdy, FlagState.woken.injEq] at h
          obtain ⟨rfl, rfl⟩ := h
          exact .inr ⟨rfl, rdy, rfl, hrdy⟩
  | rdy => simp at h
  | woken q r' => exact .inl h

end FlagState

namespace FlagGrp

@[simp] theorem take_task : (g.take p rdy).task = g.task := by
  unfold take
  split <;> rfl

@[simp] theorem take_pendList : (g.take p rdy).pendList = g.pendList := by
  unfold take
  split <;> rfl

theorem take_flags : (g.take p rdy).flags = if p.consume then g.flags \ rdy else g.flags := by
  unfold take
  split <;> rfl

theorem take_flags_subset : (g.take p rdy).flags ⊆ g.flags := by
  rw [take_flags]
  split
  · exact Finset.sdiff_subset
  · exact Finset.Subset.refl _

variable [DecidableEq τ]

@[simp] theorem osFlagPostTask_flags : (g.osFlagPostTask t).flags = g.flags := by
  unfold osFlagPostTask osFlagTaskRdy
  split
  · split <;> rfl
  · rfl

theorem osFlagPostTask_task :
    (g.osFlagPostTask t).task = Function.update g.task t ((g.task t).tested g.flags) := by
  unfold osFlagPostTask FlagState.tested
  cases hst : g.task t with
  | pend p =>
      cases hrdy : p.ready g.flags with
      | some rdy => simp [hrdy, osFlagTaskRdy]
      | none => simp [hst, hrdy]
  | rdy => simp [hst]
  | woken p r => simp [hst]

@[simp] theorem foldl_osFlagPostTask_flags (ts : List τ) :
    (ts.foldl osFlagPostTask g).flags = g.flags := by
  induction ts generalizing g with
  | nil => rfl
  | cons t ts ih => rw [List.foldl_cons, ih, osFlagPostTask_flags]

theorem foldl_osFlagPostTask_task (ts : List τ) :
    (ts.foldl osFlagPostTask g).task u =
      if u ∈ ts then (g.task u).tested g.flags else g.task u := by
  induction ts generalizing g with
  | nil => rfl
  | cons t ts ih =>
      rw [List.foldl_cons, ih, osFlagPostTask_task, osFlagPostTask_flags]
      by_cases hu : u = t
      · subst hu
        cases hst : g.task u with
        | pend p => cases hrdy : p.ready g.flags <;> simp [FlagState.tested, hrdy]
        | rdy => simp [FlagState.tested]
        | woken p r => simp [FlagState.tested]
      · simp [hu]

end FlagGrp

end Calls

/-! ### The invariant -/

namespace FlagGrp

/-- The pend list holds the waiting tasks, by priority. -/
structure Listed (prio : τ → Nat) (g : FlagGrp τ β) : Prop where
  nodup : g.pendList.Nodup
  mem : ∀ t, t ∈ g.pendList ↔ ∃ p, g.task t = .pend p
  sorted : g.pendList.Pairwise fun t u => prio t ≤ prio u

variable [DecidableEq τ] [DecidableEq β] {prio : τ → Nat} {g g' : FlagGrp τ β} {t u : τ}
  {p : FlagWait β} {rdy f : Finset β} {opt : FlagOpt}

/-- What holds between any two calls. -/
structure Lawful (prio : τ → Nat) (g : FlagGrp τ β) : Prop extends g.Listed prio where
  /-- No task waits for flags that are there. -/
  quiet : ∀ t p, g.task t = .pend p → p.ready g.flags = none
  /-- A task that has been readied for flags gets ones that it wanted. -/
  ready : ∀ t p rdy, g.task t = .woken p (some rdy) → ∃ flags, p.ready flags = some rdy
  /-- Only a wait with a timeout times out. -/
  timed : ∀ t p, g.task t = .woken p none → p.timed = true

omit [DecidableEq β] in
/-- A task that no longer waits is taken off the pend list. -/
theorem Listed.leave (h : g.Listed prio) (t : τ) (st : FlagState β) (hst : ∀ p, st ≠ .pend p) :
    Listed prio { g with
      pendList := g.pendList.erase t
      task := Function.update g.task t st } where
  nodup := h.nodup.erase t
  mem u := by
    rw [h.nodup.mem_erase_iff, h.mem]
    by_cases hu : u = t
    · subst hu
      simpa using hst
    · simp [hu]
  sorted := h.sorted.sublist List.erase_sublist

theorem Listed.osFlagPostTask (h : g.Listed prio) (t : τ) : (g.osFlagPostTask t).Listed prio := by
  unfold FlagGrp.osFlagPostTask
  split
  case _ p _ =>
    split
    case _ rdy _ => exact h.leave t (.woken p (some rdy)) (by simp)
    case _ => exact h
  case _ => exact h

theorem Listed.foldl_osFlagPostTask (h : g.Listed prio) (ts : List τ) :
    (ts.foldl FlagGrp.osFlagPostTask g).Listed prio := by
  induction ts generalizing g with
  | nil => exact h
  | cons t ts ih => exact ih (h.osFlagPostTask t)

omit [DecidableEq β] in
theorem Listed.osFlagBlock (h : g.Listed prio) (ht : g.task t = .rdy) :
    (g.osFlagBlock prio t p).Listed prio where
  nodup := by
    have hmem : t ∉ g.pendList := by
      rw [h.mem, ht]
      simp
    exact (perm_osPendListInsertPrio prio t g.pendList).nodup_iff.mpr
      (List.nodup_cons.mpr ⟨hmem, h.nodup⟩)
  mem u := by
    change u ∈ osPendListInsertPrio prio t g.pendList ↔ _
    rw [(perm_osPendListInsertPrio prio t g.pendList).mem_iff, List.mem_cons, h.mem]
    by_cases hu : u = t
    · subst hu
      simp [FlagGrp.osFlagBlock]
    · simp [FlagGrp.osFlagBlock, hu]
  sorted := pairwise_osPendListInsertPrio h.sorted t

@[simp] theorem osFlagPost_flags : (g.osFlagPost opt f).flags = posted opt f g.flags := by
  unfold osFlagPost
  rw [foldl_osFlagPostTask_flags]

/-- A post readies every waiting task whose flags are then there. -/
theorem Listed.osFlagPost_task (h : g.Listed prio) (t : τ) :
    (g.osFlagPost opt f).task t = (g.task t).tested (posted opt f g.flags) := by
  unfold osFlagPost
  rw [foldl_osFlagPostTask_task]
  by_cases ht : t ∈ g.pendList
  · rw [if_pos ht]
  · rw [if_neg ht]
    cases hst : g.task t with
    | pend p => exact absurd ((h.mem t).mpr ⟨p, hst⟩) ht
    | rdy => simp [FlagState.tested]
    | woken p r => simp [FlagState.tested]

theorem Lawful.osFlagPost (h : g.Lawful prio) (opt : FlagOpt) (f : Finset β) :
    (g.osFlagPost opt f).Lawful prio where
  toListed :=
    have hflags : Listed prio { g with flags := posted opt f g.flags } :=
      ⟨h.nodup, h.mem, h.sorted⟩
    hflags.foldl_osFlagPostTask g.pendList
  quiet t p ht := by
    rw [h.osFlagPost_task] at ht
    rw [osFlagPost_flags]
    exact (FlagState.tested_pend ht).2
  ready t p rdy ht := by
    rw [h.osFlagPost_task] at ht
    rcases FlagState.tested_woken ht with hst | ⟨-, r, hr, hready⟩
    · exact h.ready t p rdy hst
    · obtain rfl := Option.some.inj hr
      exact ⟨_, hready⟩
  timed t p ht := by
    rw [h.osFlagPost_task] at ht
    rcases FlagState.tested_woken ht with hst | ⟨-, r, hr, -⟩
    · exact h.timed t p hst
    · simp at hr

omit [DecidableEq τ] in
theorem Lawful.take (h : g.Lawful prio) (p : FlagWait β) (rdy : Finset β) :
    (g.take p rdy).Lawful prio where
  nodup := by simpa using h.nodup
  mem := by simpa using h.mem
  sorted := by simpa using h.sorted
  quiet t q ht := by
    rw [take_task] at ht
    exact FlagWait.ready_anti (h.quiet t q ht) take_flags_subset
  ready t q r ht := by
    rw [take_task] at ht
    exact h.ready t q r ht
  timed t q ht := by
    rw [take_task] at ht
    exact h.timed t q ht

theorem Lawful.osFlagBlock (h : g.Lawful prio) (ht : g.task t = .rdy)
    (hready : p.ready g.flags = none) : (g.osFlagBlock prio t p).Lawful prio where
  toListed := h.toListed.osFlagBlock ht
  quiet u q hu := by
    change Function.update g.task t (.pend p) u = .pend q at hu
    by_cases hut : u = t
    · subst hut
      rw [Function.update_self, FlagState.pend.injEq] at hu
      exact hu ▸ hready
    · rw [Function.update_of_ne hut] at hu
      exact h.quiet u q hu
  ready u q r hu := by
    change Function.update g.task t (.pend p) u = .woken q (some r) at hu
    by_cases hut : u = t
    · subst hut
      simp at hu
    · rw [Function.update_of_ne hut] at hu
      exact h.ready u q r hu
  timed u q hu := by
    change Function.update g.task t (.pend p) u = .woken q none at hu
    by_cases hut : u = t
    · subst hut
      simp at hu
    · rw [Function.update_of_ne hut] at hu
      exact h.timed u q hu

/-- A task is readied by other means, or goes on. -/
theorem Lawful.leave (h : g.Lawful prio) (t : τ) (st : FlagState β) (hst : ∀ p, st ≠ .pend p)
    (hwoken : ∀ p rdy, st ≠ .woken p (some rdy))
    (htimed : ∀ p, st = .woken p none → p.timed = true) :
    Lawful prio { g with
      pendList := g.pendList.erase t
      task := Function.update g.task t st } where
  toListed := h.toListed.leave t st hst
  quiet u q hu := by
    by_cases hut : u = t
    · subst hut
      exact absurd (by simpa using hu) (hst q)
    · exact h.quiet u q (by simpa [hut] using hu)
  ready u q r hu := by
    by_cases hut : u = t
    · subst hut
      exact absurd (by simpa using hu) (hwoken q r)
    · exact h.ready u q r (by simpa [hut] using hu)
  timed u q hu := by
    by_cases hut : u = t
    · subst hut
      exact htimed q (by simpa using hu)
    · exact h.timed u q (by simpa [hut] using hu)

/-- A task goes on that did not wait any more. -/
theorem Lawful.goOn (h : g.Lawful prio) (ht : ∀ p, g.task t ≠ .pend p) :
    Lawful prio { g with task := Function.update g.task t .rdy } := by
  have hmem : t ∉ g.pendList := by
    rw [h.mem]
    rintro ⟨p, hp⟩
    exact ht p hp
  simpa [List.erase_of_not_mem hmem] using h.leave t .rdy (by simp) (by simp) (by simp)

theorem Lawful.osTickTimeout (h : g.Lawful prio) (ht : g.task t = .pend p)
    (htimed : p.timed = true) : (g.osTickTimeout t).Lawful prio := by
  unfold FlagGrp.osTickTimeout
  rw [ht]
  exact h.leave t (.woken p none) (by simp) (by simp) (by simp [htimed])

/-- The flags are there, or the call blocks if it may, or it gives up. -/
inductive Pends (prio : τ → Nat) (t : τ) (p : FlagWait β) (g : FlagGrp τ β) (mayBlock : Bool) :
    Option (FlagResult β) → FlagGrp τ β → Prop where
  | takes {rdy : Finset β} :
      p.ready g.flags = some rdy → g.Pends prio t p mayBlock (some (.flags rdy)) (g.take p rdy)
  | blocks :
      mayBlock = true → p.ready g.flags = none →
      g.Pends prio t p mayBlock none (g.osFlagBlock prio t p)
  | fails {r : FlagResult β} :
      mayBlock = false → (∀ rdy, r ≠ .flags rdy) → g.Pends prio t p mayBlock (some r) g

theorem osFlagPend_pends {nonBlocking locked : Bool} {r : Option (FlagResult β)}
    (hpend : g.osFlagPend prio t p nonBlocking locked = (r, g')) :
    g.Pends prio t p (!nonBlocking && !locked) r g' := by
  unfold osFlagPend at hpend
  cases hready : p.ready g.flags with
  | some rdy =>
      simp only [hready, Prod.mk.injEq] at hpend
      obtain ⟨rfl, rfl⟩ := hpend
      exact .takes hready
  | none =>
      cases nonBlocking with
      | true =>
          obtain ⟨rfl, rfl⟩ := by simpa [hready] using hpend
          exact .fails rfl (by simp)
      | false =>
          cases locked with
          | true =>
              obtain ⟨rfl, rfl⟩ := by simpa [hready] using hpend
              exact .fails rfl (by simp)
          | false =>
              obtain ⟨rfl, rfl⟩ := by simpa [hready] using hpend
              exact .blocks rfl hready

/-- The task was readied with flags, or by a time-out. -/
theorem osFlagPendReturn_eq_some {r : FlagResult β}
    (hret : g.osFlagPendReturn t = some (p, r, g')) :
    (∃ rdy, g.task t = .woken p (some rdy) ∧ r = .flags rdy ∧
      g' = { g with task := Function.update g.task t .rdy }.take p rdy) ∨
    g.task t = .woken p none ∧ r = .timeout ∧
      g' = { g with task := Function.update g.task t .rdy } := by
  unfold osFlagPendReturn at hret
  split at hret
  case _ q rdy hst =>
    simp only [Option.some.injEq, Prod.mk.injEq] at hret
    obtain ⟨rfl, rfl, rfl⟩ := hret
    exact .inl ⟨rdy, hst, rfl, rfl⟩
  case _ q hst =>
    simp only [Option.some.injEq, Prod.mk.injEq] at hret
    obtain ⟨rfl, rfl, rfl⟩ := hret
    exact .inr ⟨hst, rfl, rfl⟩
  case _ => simp at hret

theorem Lawful.osFlagPend (h : g.Lawful prio) (ht : g.task t = .rdy)
    {nonBlocking locked : Bool} {r : Option (FlagResult β)}
    (hpend : g.osFlagPend prio t p nonBlocking locked = (r, g')) : g'.Lawful prio := by
  cases osFlagPend_pends hpend with
  | takes hready => exact h.take p _
  | blocks _ hready => exact h.osFlagBlock ht hready
  | fails => exact h

theorem Lawful.osFlagPendReturn (h : g.Lawful prio) {r : FlagResult β}
    (hret : g.osFlagPendReturn t = some (p, r, g')) : g'.Lawful prio := by
  rcases osFlagPendReturn_eq_some hret with ⟨rdy, hst, -, rfl⟩ | ⟨hst, -, rfl⟩
  · exact (h.goOn (by simp [hst])).take p rdy
  · exact h.goOn (by simp [hst])

/-! ### Flags that a task has been readied for -/

/-- A flag that a task has been readied for stays set until the task takes it. -/
def Held (b : β) (g : FlagGrp τ β) : Prop :=
  ∀ t p rdy, g.task t = .woken p (some rdy) → p.consume = true → b ∈ rdy → b ∈ g.flags

variable {b : β}

theorem Held.osFlagPost (h : g.Held b) (hlaw : g.Lawful prio)
    (hopt : opt = .set ∨ b ∉ f) : (g.osFlagPost opt f).Held b := by
  intro t p rdy ht hconsume hb
  rw [osFlagPost_flags]
  rw [hlaw.osFlagPost_task] at ht
  rcases FlagState.tested_woken ht with hst | ⟨-, r, hr, hready⟩
  · have hflag := h t p rdy hst hconsume hb
    cases opt with
    | set => exact Finset.mem_union_left f hflag
    | clr => exact Finset.mem_sdiff.mpr ⟨hflag, hopt.resolve_left (by simp)⟩
  · obtain rfl := Option.some.inj hr
    exact (FlagWait.ready_subset hready).1 hb

omit [DecidableEq τ] in
/-- No task takes a flag that another one has been readied for. -/
theorem Held.take (h : g.Held b)
    (hother : p.consume = true → b ∈ rdy →
      ∀ t q r, g.task t = .woken q (some r) → q.consume = true → b ∉ r) :
    (g.take p rdy).Held b := by
  intro t q r ht hconsume hb
  rw [take_task] at ht
  have hflag := h t q r ht hconsume hb
  rw [take_flags]
  cases hp : p.consume with
  | false => simpa using hflag
  | true =>
      rw [if_pos rfl, Finset.mem_sdiff]
      exact ⟨hflag, fun hrdy => hother hp hrdy t q r ht hconsume hb⟩

omit [DecidableEq β] in
theorem Held.update (h : g.Held b) (ts : List τ) (t : τ) (st : FlagState β)
    (hst : ∀ p rdy, st ≠ .woken p (some rdy)) :
    Held b { g with pendList := ts, task := Function.update g.task t st } := by
  intro u q r hu hconsume hb
  by_cases hut : u = t
  · subst hut
    exact absurd (by simpa using hu) (hst q r)
  · exact h u q r (by simpa [hut] using hu) hconsume hb

/-! ### A group in use by tasks whose waits are known -/

/-- Task `t` is in the call `w t`, and what a task has been readied for is there if `H` holds of
it. -/
structure Serves (prio : τ → Nat) (H : β → Prop) (w : τ → Option (FlagWait β))
    (g : FlagGrp τ β) : Prop extends g.Lawful prio where
  inCall : ∀ t, (g.task t).inCall = w t
  held : ∀ b, H b → g.Held b

/-- No other task is in a call for one of these flags. -/
def Private (H : β → Prop) (w : τ → Option (FlagWait β)) (t : τ) (want : Finset β) : Prop :=
  ∀ u q b, u ≠ t → w u = some q → H b → b ∈ want → b ∉ q.want

namespace Serves

variable {H : β → Prop} {w : τ → Option (FlagWait β)}

omit [DecidableEq τ] in
theorem runs (h : g.Serves prio H w) (ht : w t = none) : g.task t = .rdy := by
  have hin := h.inCall t
  cases hst : g.task t <;> simp_all [FlagState.inCall]

theorem osFlagPost (h : g.Serves prio H w) (f : Finset β) :
    (g.osFlagPost .set f).Serves prio H w where
  toLawful := h.toLawful.osFlagPost .set f
  inCall t := by rw [h.osFlagPost_task, FlagState.tested_inCall, h.inCall]
  held b hb := (h.held b hb).osFlagPost h.toLawful (.inl rfl)

omit [DecidableEq τ] in
theorem take (h : g.Serves prio H w) (ht : g.task t = .rdy) (hsub : rdy ⊆ p.want)
    (hprivate : Private H w t p.want) : (g.take p rdy).Serves prio H w where
  toLawful := h.toLawful.take p rdy
  inCall u := by rw [take_task, h.inCall]
  held b hb := by
    refine (h.held b hb).take ?_
    intro _ hrdy u q r hu _ hbr
    obtain ⟨flags, hwas⟩ := h.ready u q r hu
    have hut : u ≠ t := by
      rintro rfl
      simp [ht] at hu
    have hwu : w u = some q := by rw [← h.inCall u, hu, FlagState.inCall]
    exact hprivate u q b hut hwu hb (hsub hrdy) ((FlagWait.ready_subset hwas).2 hbr)

/-- `OSFlagPend` with `OS_OPT_PEND_BLOCKING` takes flags that are there, or the task waits. -/
theorem osFlagPend (h : g.Serves prio H w) (ht : w t = none) (hconsume : p.consume = true)
    (hprivate : Private H w t p.want) {r : Option (FlagResult β)}
    (hpend : g.osFlagPend prio t p false false = (r, g')) :
    (∃ rdy, r = some (.flags rdy) ∧ p.ready g.flags = some rdy ∧ g'.flags = g.flags \ rdy ∧
      g'.Serves prio H w) ∨
    r = none ∧ p.ready g.flags = none ∧ g'.flags = g.flags ∧
      g'.Serves prio H (Function.update w t (some p)) := by
  have hrdy := h.runs ht
  cases osFlagPend_pends hpend with
  | @takes rdy hready =>
      refine .inl ⟨rdy, rfl, hready, ?_, h.take hrdy (FlagWait.ready_subset hready).2 hprivate⟩
      rw [take_flags, if_pos hconsume]
  | blocks _ hready =>
      refine .inr ⟨rfl, hready, rfl, h.toLawful.osFlagBlock hrdy hready, ?_, ?_⟩
      · intro u
        change (Function.update g.task t (.pend p) u).inCall = _
        by_cases hut : u = t
        · subst hut
          simp [FlagState.inCall]
        · simp [hut, h.inCall]
      · exact fun b hb => (h.held b hb).update _ t (.pend p) (by simp)
  | fails hblock => simp at hblock

/-- A task that returns from its wait takes flags that it was readied for, or timed out. -/
theorem osFlagPendReturn (h : g.Serves prio H w) (hconsume : ∀ q, w t = some q → q.consume = true)
    (hprivate : ∀ q, w t = some q → Private H w t q.want) {r : FlagResult β}
    (hret : g.osFlagPendReturn t = some (p, r, g')) :
    w t = some p ∧ g'.Serves prio H (Function.update w t none) ∧
      ((∃ rdy, r = .flags rdy ∧ (∃ flags, p.ready flags = some rdy) ∧
        (∀ b, H b → b ∈ rdy → b ∈ g.flags) ∧ g'.flags = g.flags \ rdy) ∨
      r = .timeout ∧ p.timed = true ∧ g'.flags = g.flags) := by
  have hgo (hin : w t = some p) (hst : ∀ q, g.task t ≠ .pend q) :
      Serves prio H (Function.update w t none)
        { g with task := Function.update g.task t .rdy } := by
    refine ⟨h.toLawful.goOn hst, ?_, fun b hb => (h.held b hb).update _ t .rdy (by simp)⟩
    intro u
    by_cases hut : u = t
    · subst hut
      simp [FlagState.inCall]
    · simp [hut, h.inCall]
  rcases osFlagPendReturn_eq_some hret with ⟨rdy, hst, rfl, rfl⟩ | ⟨hst, rfl, rfl⟩
  · have hin : w t = some p := by rw [← h.inCall t, hst, FlagState.inCall]
    obtain ⟨flags, hwas⟩ := h.ready t p rdy hst
    have hp := hconsume p hin
    refine ⟨hin, ?_, .inl ⟨rdy, rfl, ⟨flags, hwas⟩, ?_, by rw [take_flags, if_pos hp]⟩⟩
    · refine (hgo hin (by simp [hst])).take (t := t) (by simp) (FlagWait.ready_subset hwas).2 ?_
      intro u q b hut hu
      exact hprivate p hin u q b hut (by simpa [hut] using hu)
    · exact fun b hb => h.held b hb t p rdy hst hp
  · have hin : w t = some p := by rw [← h.inCall t, hst, FlagState.inCall]
    exact ⟨hin, hgo hin (by simp [hst]), .inr ⟨rfl, h.timed t p hst, rfl⟩⟩

theorem osTickTimeout (h : g.Serves prio H w) (ht : g.task t = .pend p) (htimed : p.timed = true) :
    (g.osTickTimeout t).flags = g.flags ∧ (g.osTickTimeout t).Serves prio H w := by
  have hlaw := h.toLawful.osTickTimeout ht htimed
  unfold FlagGrp.osTickTimeout at hlaw ⊢
  rw [ht] at hlaw ⊢
  refine ⟨rfl, hlaw, ?_, fun b hb => (h.held b hb).update _ t (.woken p none) (by simp)⟩
  intro u
  by_cases hut : u = t
  · subst hut
    simp [FlagState.inCall, ← h.inCall u, ht]
  · simp [hut, h.inCall]

end Serves

end FlagGrp

/-! ### Runs -/

section Runs

variable [DecidableEq τ] [DecidableEq β] {prio : τ → Nat} {s s' : FlagRun τ β}
  {e : FlagCall τ β} {b : β} {c : τ} {before : Bool}

theorem FlagGrp.Lawful.step (h : s.grp.Lawful prio) (hpossible : e.Possible s)
    (hstep : (flagMachine prio).step s e = some s') : s'.grp.Lawful prio := by
  cases e with
  | post opt f =>
      obtain rfl := Option.some.inj hstep
      exact h.osFlagPost opt f
  | pend t p nonBlocking locked =>
      obtain rfl := Option.some.inj hstep
      exact h.osFlagPend hpossible (Prod.mk.eta ..).symm
  | pendReturn t =>
      obtain ⟨⟨p, r, grp⟩, hret, rfl⟩ := Option.map_eq_some_iff.mp hstep
      exact h.osFlagPendReturn hret
  | timeout t =>
      obtain rfl := Option.some.inj hstep
      obtain ⟨p, ht, htimed⟩ := hpossible
      exact h.osTickTimeout ht htimed

/-- Flag `b`, which only `c` consumes, is a latch. -/
structure FlagRun.Latched (b : β) (c : τ) (before : Bool) (s : FlagRun τ β) : Prop where
  only : ∀ t p, (s.grp.task t).inCall = some p → p.consume = true → b ∈ p.want → t = c
  held : s.grp.Held b
  history : latch.run before (flagHistory b s.log) = some (decide (b ∈ s.grp.flags))

omit [DecidableEq τ] in
theorem flagHistory_append (log log' : List (FlagObs τ β)) :
    flagHistory b (log ++ log') = flagHistory b log ++ flagHistory b log' :=
  List.filterMap_append

namespace FlagRun.Latched

variable {t : τ} {p : FlagWait β} {rdy f : Finset β}

omit [DecidableEq τ] in
/-- Flags that were set are taken. -/
theorem history_take (h : latch.run before (flagHistory b s.log) = some (decide (b ∈ s.grp.flags)))
    (hset : p.consume = true → b ∈ rdy → b ∈ s.grp.flags) :
    latch.run before (flagHistory b (s.log ++ [.returned t p (.flags rdy)])) =
      some (decide (b ∈ (s.grp.take p rdy).flags)) := by
  rw [flagHistory_append, Machine.run_append, h, FlagGrp.take_flags]
  by_cases htake : p.consume = true ∧ b ∈ rdy
  · obtain ⟨hp, hb⟩ := htake
    simp [flagHistory, hp, hb, hset hp hb, latch, Machine.run]
  · cases hp : p.consume with
    | false => simp [flagHistory, hp]
    | true =>
        have hb : b ∉ rdy := fun hb => htake ⟨hp, hb⟩
        simp [flagHistory, hp, hb]

omit [DecidableEq τ] in
/-- Nobody takes the flag. -/
theorem idle (h : s.Latched b c before) {r : FlagResult β} (hr : ∀ rdy, r ≠ .flags rdy) :
    Latched b c before ⟨s.grp, s.log ++ [.returned t p r]⟩ where
  only := h.only
  held := h.held
  history := by
    cases r with
    | flags rdy => exact absurd rfl (hr rdy)
    | wouldBlock => simpa [flagHistory_append, flagHistory] using h.history
    | schedLocked => simpa [flagHistory_append, flagHistory] using h.history
    | timeout => simpa [flagHistory_append, flagHistory] using h.history

theorem osFlagPost (h : s.Latched b c before) (hlaw : s.grp.Lawful prio) {opt : FlagOpt}
    (hsole : FlagCall.Sole b c (.post opt f)) :
    Latched b c before ⟨s.grp.osFlagPost opt f, s.log ++ [.posted opt f]⟩ where
  only t p ht := by
    rw [hlaw.osFlagPost_task, FlagState.tested_inCall] at ht
    exact h.only t p ht
  held := by
    cases opt with
    | set => exact h.held.osFlagPost hlaw (.inl rfl)
    | clr => exact h.held.osFlagPost hlaw (.inr hsole)
  history := by
    rw [flagHistory_append, Machine.run_append, h.history, FlagGrp.osFlagPost_flags]
    cases opt with
    | set => by_cases hb : b ∈ f <;> simp [flagHistory, FlagGrp.posted, hb, latch, Machine.run]
    | clr =>
        have hb : b ∉ f := hsole
        simp [flagHistory, FlagGrp.posted, hb]

omit [DecidableEq τ] in
/-- A task with nothing to come takes flags that are set. -/
theorem take (h : s.Latched b c before) (hlaw : s.grp.Lawful prio)
    (hgone : s.grp.task t = .rdy) (hmine : p.consume = true → b ∈ rdy → t = c)
    (hset : p.consume = true → b ∈ rdy → b ∈ s.grp.flags) :
    Latched b c before ⟨s.grp.take p rdy, s.log ++ [.returned t p (.flags rdy)]⟩ where
  only u q hu := by
    rw [FlagGrp.take_task] at hu
    exact h.only u q hu
  held := by
    refine h.held.take ?_
    intro hp hb u q r hu hq hbr
    -- the one consumer of the flag is the task itself
    obtain ⟨flags, hwas⟩ := hlaw.ready u q r hu
    have huc : u = c :=
      h.only u q (by simp [hu, FlagState.inCall]) hq ((FlagWait.ready_subset hwas).2 hbr)
    rw [huc, ← hmine hp hb, hgone] at hu
    simp at hu
  history := history_take h.history hset

/-- The task's own state changes, and it is not readied. -/
theorem update (h : s.Latched b c before) (ts : List τ) (t : τ) (st : FlagState β)
    (hst : ∀ p rdy, st ≠ .woken p (some rdy))
    (hmine : ∀ p, st.inCall = some p → p.consume = true → b ∈ p.want → t = c) :
    Latched b c before
      ⟨{ s.grp with pendList := ts, task := Function.update s.grp.task t st }, s.log⟩ where
  only u q hu := by
    by_cases hut : u = t
    · subst hut
      exact hmine q (by simpa using hu)
    · exact h.only u q (by simpa [hut] using hu)
  held := h.held.update ts t st hst
  history := h.history

theorem osFlagPend (h : s.Latched b c before) (hlaw : s.grp.Lawful prio)
    (ht : s.grp.task t = .rdy) {nonBlocking locked : Bool} {r : Option (FlagResult β)}
    {grp : FlagGrp τ β} (hpend : s.grp.osFlagPend prio t p nonBlocking locked = (r, grp))
    (hsole : FlagCall.Sole b c (.pend t p nonBlocking locked)) :
    Latched b c before ⟨grp, s.log ++ (r.map (.returned t p)).toList⟩ := by
  cases FlagGrp.osFlagPend_pends hpend with
  | takes hready =>
      have hsub := FlagWait.ready_subset hready
      exact h.take hlaw ht (fun hp hb => hsole hp (hsub.2 hb)) fun _ hb => hsub.1 hb
  | blocks =>
      have hblock := h.update (osPendListInsertPrio prio t s.grp.pendList) t (.pend p)
        (by simp) fun q hq => by
          obtain rfl : p = q := by simpa [FlagState.inCall] using hq
          exact hsole
      simpa [FlagGrp.osFlagBlock] using hblock
  | fails _ hr => exact h.idle hr

theorem osFlagPendReturn (h : s.Latched b c before) (hlaw : s.grp.Lawful prio)
    {r : FlagResult β} {grp : FlagGrp τ β} (hret : s.grp.osFlagPendReturn t = some (p, r, grp)) :
    Latched b c before ⟨grp, s.log ++ [.returned t p r]⟩ := by
  have hgo : Latched b c before ⟨{ s.grp with task := Function.update s.grp.task t .rdy }, s.log⟩ :=
    h.update _ t .rdy (by simp) (by simp [FlagState.inCall])
  rcases FlagGrp.osFlagPendReturn_eq_some hret with ⟨rdy, hst, rfl, rfl⟩ | ⟨hst, rfl, rfl⟩
  · have hmine := h.only t p (by simp [hst, FlagState.inCall])
    obtain ⟨flags, hwas⟩ := hlaw.ready t p rdy hst
    exact hgo.take (hlaw.goOn (by simp [hst])) (by simp)
      (fun hp hb => hmine hp ((FlagWait.ready_subset hwas).2 hb)) (h.held t p rdy hst)
  · exact hgo.idle (by simp)

theorem osTickTimeout (h : s.Latched b c before) (t : τ) :
    Latched b c before ⟨s.grp.osTickTimeout t, s.log⟩ := by
  unfold FlagGrp.osTickTimeout
  cases hst : s.grp.task t with
  | pend p =>
      refine h.update _ t (.woken p none) (by simp) fun q hq => ?_
      obtain rfl : p = q := by simpa [FlagState.inCall] using hq
      exact h.only t p (by simp [hst, FlagState.inCall])
  | rdy => exact h
  | woken p r => exact h

theorem step (h : s.Latched b c before) (hlaw : s.grp.Lawful prio) (hpossible : e.Possible s)
    (hsole : e.Sole b c) (hstep : (flagMachine prio).step s e = some s') :
    s'.Latched b c before := by
  cases e with
  | post opt f =>
      obtain rfl := Option.some.inj hstep
      exact h.osFlagPost hlaw hsole
  | pend t p nonBlocking locked =>
      obtain rfl := Option.some.inj hstep
      exact h.osFlagPend hlaw hpossible (Prod.mk.eta ..).symm hsole
  | pendReturn t =>
      obtain ⟨⟨p, r, grp⟩, hret, rfl⟩ := Option.map_eq_some_iff.mp hstep
      exact h.osFlagPendReturn hlaw hret
  | timeout t =>
      obtain rfl := Option.some.inj hstep
      exact h.osTickTimeout t

end FlagRun.Latched

/-- The group as `OSFlagCreate` leaves it, with these flags -/
def FlagRun.create (flags : Finset β) : FlagRun τ β := ⟨⟨flags, [], fun _ => .rdy⟩, []⟩

omit [DecidableEq τ] [DecidableEq β] in
theorem FlagGrp.Lawful.create [DecidableEq β] (flags : Finset β) :
    (FlagRun.create flags : FlagRun τ β).grp.Lawful prio where
  nodup := List.nodup_nil
  mem := by simp [FlagRun.create]
  sorted := List.Pairwise.nil
  quiet := by simp [FlagRun.create]
  ready := by simp [FlagRun.create]
  timed := by simp [FlagRun.create]

omit [DecidableEq τ] in
theorem FlagRun.Latched.create (flags : Finset β) :
    (FlagRun.create flags : FlagRun τ β).Latched b c (decide (b ∈ flags)) where
  only := by simp [FlagRun.create, FlagState.inCall]
  held := by simp [FlagRun.create, FlagGrp.Held]
  history := rfl

/-- **Event flags.** However the calls of the tasks and the interrupts interleave: no task
waits for flags that are set, the pend list holds the waiting tasks by priority, and a flag
that only one task consumes and nobody clears is a latch: it is set while a post is to be
taken, and it is taken once for every time it was set. -/
theorem event_flags {flags : Finset β} {calls : List (FlagCall τ β)} {s : FlagRun τ β}
    (hpossible : (flagMachine prio).Guarded (fun s e => e.Possible s) (.create flags) calls)
    (hrun : (flagMachine prio).run (.create flags) calls = some s) :
    s.grp.Lawful prio ∧
      ∀ b c, (∀ e ∈ calls, e.Sole b c) →
        latch.run (decide (b ∈ flags)) (flagHistory b s.log) = some (decide (b ∈ s.grp.flags)) := by
  constructor
  · let Inv := fun s : FlagRun τ β => s.grp.Lawful prio
    have hlaw : Inv s := Machine.run_invariant
      (fun _ _ _ h hok hstep => FlagGrp.Lawful.step h hok hstep)
      (FlagGrp.Lawful.create flags) hpossible hrun
    exact hlaw
  · intro b c hsole
    let Inv := fun s : FlagRun τ β => s.grp.Lawful prio ∧ s.Latched b c (decide (b ∈ flags))
    have hinv : Inv s := Machine.run_invariant
      (fun _ _ _ h hok hstep => ⟨h.1.step hok.1 hstep, h.2.step h.1 hok.1 hok.2 hstep⟩)
      ⟨FlagGrp.Lawful.create flags, FlagRun.Latched.create flags⟩
      (hpossible.and_forall hsole) hrun
    exact hinv.2.history

end Runs

/-- The first task waits, is readied for its flag and takes it; the second one finds the
other flag set, and then waits for it in vain. -/
def flagCalls : List (FlagCall Bool Bool) :=
  [.pend false ⟨{false}, .any, true, false⟩ false false,
    .post .set {true},
    .post .set {false},
    .pendReturn false,
    .pend true ⟨{true}, .all, true, true⟩ false false,
    .pend true ⟨{true}, .all, true, true⟩ false false,
    .timeout true,
    .pendReturn true]

theorem event_flags_two : ∃ s,
    (flagMachine fun t => if t then 5 else 3).run (.create ∅) flagCalls = some s ∧
      s.grp.Lawful (fun t => if t then 5 else 3) ∧
      latch.run false (flagHistory true s.log) = some (decide (true ∈ s.grp.flags)) := by
  have hpossible : (flagMachine fun t => if t then 5 else 3).Guarded
      (fun s e => e.Possible s) (.create ∅) flagCalls := by
    refine .cons rfl rfl <| .cons trivial rfl <| .cons trivial rfl <| .cons trivial rfl <|
      .cons rfl rfl <| .cons rfl rfl <| .cons ⟨_, rfl, rfl⟩ rfl <| .cons trivial rfl trivial
  obtain ⟨s, hrun⟩ : ∃ s, (flagMachine fun t => if t then 5 else 3).run (.create ∅) flagCalls =
      some s := Option.isSome_iff_exists.mp rfl
  obtain ⟨hlaw, hlatch⟩ := event_flags hpossible hrun
  refine ⟨s, hrun, hlaw, hlatch true true ?_⟩
  simp [flagCalls, FlagCall.Sole]

end WifiExpander
