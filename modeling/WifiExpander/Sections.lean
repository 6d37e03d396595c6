import WifiExpander.Inheritance
import WifiExpander.IntrusiveList

/-!
Sections that run under a mutex.

Tasks take a mutex, run the statements of a section one by one and give the mutex
back; the kernel may switch tasks before every statement and every call. Whatever
the order, the sections have the effect of running each as a whole, in the order in
which they end: the other modules may take a section for one step.

A task waits for the mutex without a time-out, as the application's tasks do, and
does not look at what `OSMutexPend` reports.
-/

namespace WifiExpander

open Theory

variable {κ τ ι σ ρ : Type}

/-! ### Calls for other mutexes -/

/-- The call is for another mutex, or for none. -/
def MutexCall.Elsewhere (m : κ) (s : Mutexes κ τ) : MutexCall κ τ → Prop
  | .pend _ m' _ _ | .post _ m' => m' ≠ m
  | .pendReturn t => ∀ r, (s.tcb t).state ≠ .woken m r
  | .timeout t => (s.tcb t).state ≠ .pend m
  | .block _ | .unblock _ => True

namespace Mutexes

/-- The mutex is as before, and so is what the tasks have to do with it. -/
structure SameAt (m : κ) (s s' : Mutexes κ τ) : Prop where
  owner : (s'.mutex m).owner = (s.mutex m).owner
  nesting : (s'.mutex m).nesting = (s.mutex m).nesting
  pend : ∀ t, (s'.tcb t).state = .pend m ↔ (s.tcb t).state = .pend m
  woken : ∀ t r, (s'.tcb t).state = .woken m r ↔ (s.tcb t).state = .woken m r

variable {s s' s'' : Mutexes κ τ} {m : κ} {t u : τ}

theorem Reprioritised.sameAt (h : s.Reprioritised s') (m : κ) : SameAt m s s' where
  owner := h.owner m
  nesting := h.nesting m
  pend t := by rw [h.state]
  woken t r := by rw [h.state]

theorem SameAt.trans (h : SameAt m s s') (h' : SameAt m s' s'') : SameAt m s s'' where
  owner := h'.owner.trans h.owner
  nesting := h'.nesting.trans h.nesting
  pend t := (h'.pend t).trans (h.pend t)
  woken t r := (h'.woken t r).trans (h.woken t r)

theorem SameAt.record (h : SameAt m s s') (o : MutexObs κ τ) : SameAt m s (s'.record o) :=
  ⟨h.owner, h.nesting, h.pend, h.woken⟩

variable [DecidableEq κ] [DecidableEq τ] {fuel : Nat}

omit [DecidableEq κ] in
theorem SameAt.state (s : Mutexes κ τ) {w : MutexWait κ} (hpend : (s.tcb t).state ≠ .pend m)
    (hwoken : ∀ r, (s.tcb t).state ≠ .woken m r) (hpend' : w ≠ .pend m)
    (hwoken' : ∀ r, w ≠ .woken m r) : SameAt m s (s.setState t w) := by
  constructor <;> simp only [setState, setTcb, Function.update_apply] <;> grind

/-- A call for another mutex leaves the mutex alone. -/
theorem Coherent.elsewhere (h : s.Coherent) {e : MutexCall κ τ} (possible : e.Possible s)
    (elsewhere : e.Elsewhere m s) (hstep : (mutexMachine fuel).step s e = some s') :
    SameAt m s s' := by
  have hdoes := h.does fuel possible
  rw [hstep] at hdoes
  generalize hresult : some s' = result at hdoes
  cases hdoes with
  | @takes t m' _ _ hm ht =>
      obtain rfl := Option.some.inj hresult
      have hne : m' ≠ m := elsewhere
      constructor <;> simp only [Mutexes.record, osMutexGrpAdd, setMutex, setTcb,
        Function.update_apply] <;> grind
  | @nests t m' _ _ hm hlt =>
      obtain rfl := Option.some.inj hresult
      have hne : m' ≠ m := elsewhere
      constructor <;> simp only [Mutexes.record, setMutex, Function.update_apply] <;> grind
  | refused _ _ _ | denied _ =>
      obtain rfl := Option.some.inj hresult
      exact ⟨rfl, rfl, fun _ => .rfl, fun _ _ => .rfl⟩
  | @waits t u m' _ _ hm hu ht =>
      obtain ⟨s₁, hs₁, rfl⟩ := Option.map_eq_some_iff.mp hresult.symm
      have hne : m' ≠ m := elsewhere
      have hsame := h.inherit hs₁
      have hrdy := (hsame.state t).trans ht
      refine (hsame.sameAt m).trans ?_
      constructor <;> simp only [Mutexes.osPend, Mutexes.setState, setPendList, setMutex, setTcb,
        Function.update_apply] <;> grind
  | @returns t m' r ht =>
      obtain rfl := Option.some.inj hresult
      refine (SameAt.state (t := t) s ?_ elsewhere ?_ ?_).record _ <;> simp [ht]
  | @unnests t m' hm hlt =>
      obtain rfl := Option.some.inj hresult
      have hne : m' ≠ m := elsewhere
      constructor <;> simp only [Mutexes.record, setMutex, Function.update_apply] <;> grind
  | @frees t m' hm hone hlist ht =>
      obtain rfl := Option.some.inj hresult
      have hne : m' ≠ m := elsewhere
      constructor <;>
        simp only [Mutexes.record, leave, setMutex, setTcb, Function.update_apply] <;> grind
  | @handsOver t head m' ts hm hone hlist ht =>
      obtain rfl := Option.some.inj hresult
      have hne : m' ≠ m := elsewhere
      have hpend := (h.waiting m' head).mp (hlist ▸ List.mem_cons_self)
      refine SameAt.record ?_ _
      constructor <;> simp only [handOver_mutex, handOver_state, Function.update_apply] <;> grind
  | @givesUp t u m' ht hm =>
      have hne : (s.tcb t).state ≠ .pend m := elsewhere
      have hwake : SameAt m s (s.wake t m' .timeout) := by
        constructor <;> simp only [Mutexes.wake, Mutexes.setState, setPendList, setMutex, setTcb,
          Function.update_apply] <;> grind
      split at hresult
      · exact hwake.trans (((h.wake ht).osTaskChangePrio hresult.symm).sameAt m)
      · obtain rfl := Option.some.inj hresult
        exact hwake
  | @blocks t ht =>
      obtain rfl := Option.some.inj hresult
      refine SameAt.state (t := t) s ?_ ?_ ?_ ?_ <;> simp [ht]
  | @unblocks t ht =>
      obtain rfl := Option.some.inj hresult
      refine SameAt.state (t := t) s ?_ ?_ ?_ ?_ <;> simp [ht]

/-! ### Calls for the mutex of the sections -/

variable [Fintype τ]

/-- A task that does not have the mutex gets it if it is free, and waits else. -/
theorem Inherits.enter (h : s.Inherits) (hfuel : Fintype.card τ ≤ fuel)
    (ht : (s.tcb t).state = .rdy) (hown : (s.mutex m).owner ≠ some t) :
    ∃ s', s.osMutexPend fuel t m false false = some s' ∧ s'.Inherits ∧
      (∀ u ≠ t, (s'.tcb u).state = (s.tcb u).state) ∧
      ((s.mutex m).owner = none ∧ (s'.mutex m).owner = some t ∧ (s'.mutex m).nesting = 1 ∧
          (s'.tcb t).state = .rdy ∨
        (s.mutex m).owner ≠ none ∧ (s'.mutex m).owner = (s.mutex m).owner ∧
          (s'.mutex m).nesting = (s.mutex m).nesting ∧ (s'.tcb t).state = .pend m) := by
  obtain ⟨s', hstep, h'⟩ := h.step hfuel (e := .pend t m false false) ht trivial
  refine ⟨s', hstep, h', ?_⟩
  have hdoes : s.Does fuel (.pend t m false false) _ :=
    h.coherent.osMutexPend_does ht false false
  change s.osMutexPend fuel t m false false = some s' at hstep
  rw [hstep] at hdoes
  generalize hresult : some s' = result at hdoes
  cases hdoes with
  | takes hm _ =>
      obtain rfl := Option.some.inj hresult
      simp only [Mutexes.record, osMutexGrpAdd, setMutex, setTcb, Function.update_apply]
      grind
  | nests hm _ => exact absurd hm hown
  | refused _ _ hcause => simp [hown] at hcause
  | waits hm hu _ =>
      obtain ⟨s₁, hs₁, rfl⟩ := Option.map_eq_some_iff.mp hresult.symm
      have hsame := h.coherent.inherit hs₁
      have howner := hsame.owner m
      have hnesting := hsame.nesting m
      have hstate := hsame.state
      simp only [Mutexes.osPend, Mutexes.setState, setPendList, setMutex, setTcb,
        Function.update_apply]
      grind

/-- The owner gives the mutex to a task that waits for it, or to none. -/
theorem Inherits.leave (h : s.Inherits) (hfuel : Fintype.card τ ≤ fuel)
    (ht : (s.tcb t).state = .rdy) (hm : (s.mutex m).owner = some t)
    (hone : (s.mutex m).nesting = 1) :
    ∃ s', s.osMutexPost t m = some s' ∧ s'.Inherits ∧
      ((s'.mutex m).owner = none ∧ (∀ u, (s'.tcb u).state = (s.tcb u).state) ∨
        ∃ head, (s.tcb head).state = .pend m ∧ (s'.mutex m).owner = some head ∧
          (s'.mutex m).nesting = 1 ∧ (s'.tcb head).state = .woken m .ok ∧
          ∀ u ≠ head, (s'.tcb u).state = (s.tcb u).state) := by
  obtain ⟨s', hstep, h'⟩ := h.step hfuel (e := .post t m) ht trivial
  refine ⟨s', hstep, h', ?_⟩
  have hdoes : s.Does fuel (.post t m) _ := h.coherent.osMutexPost_does ht
  change s.osMutexPost t m = some s' at hstep
  rw [hstep] at hdoes
  generalize hresult : some s' = result at hdoes
  cases hdoes with
  | denied hnot => exact absurd hm hnot
  | unnests _ hlt => omega
  | frees _ _ _ _ =>
      obtain rfl := Option.some.inj hresult
      simp only [Mutexes.record, Mutexes.leave, setMutex, setTcb, Function.update_apply]
      grind
  | @handsOver _ head _ ts _ _ hlist _ =>
      obtain rfl := Option.some.inj hresult
      have hpend := (h.coherent.waiting m head).mp (hlist ▸ List.mem_cons_self)
      refine .inr ⟨head, hpend, ?_⟩
      change ((s.handOver t head ts m).mutex m).owner = _ ∧
        ((s.handOver t head ts m).mutex m).nesting = _ ∧
        ((s.handOver t head ts m).tcb head).state = _ ∧
        ∀ u ≠ head, ((s.handOver t head ts m).tcb u).state = _
      simp only [handOver_mutex, handOver_state, Function.update_apply]
      grind

omit [DecidableEq κ] [Fintype τ] in
/-- The call returns, to a task that has been given the mutex. -/
theorem Inherits.resume (h : s.Inherits) (ht : (s.tcb t).state = .woken m .ok) :
    ∃ s', s.osMutexPendReturn t = some s' ∧ s'.Inherits ∧ s'.mutex = s.mutex ∧
      (s'.tcb t).state = .rdy ∧ ∀ u ≠ t, (s'.tcb u).state = (s.tcb u).state := by
  refine ⟨(s.setState t .rdy).record (.pended t m .ok), by simp only [osMutexPendReturn, ht],
    (h.setState (by simp [ht]) (.inl rfl)).record _, rfl, ?_, ?_⟩
  · simp [Mutexes.record, Mutexes.setState, setTcb]
  · rintro u hu
    simp [Mutexes.record, Mutexes.setState, setTcb, hu]

end Mutexes

/-! ### Sections -/

/-- A statement, on what the tasks share and on the variables of the task -/
abbrev Stmt (σ ρ : Type) := σ × ρ → Option (σ × ρ)

def runStmts : List (Stmt σ ρ) → Stmt σ ρ
  | [], x => some x
  | a :: b, x => (a x).bind (runStmts b)

/-- The sections, by name -/
structure SectionCode (ι σ ρ : Type) where
  body : ι → List (Stmt σ ρ)
  locals : ρ

/-- Each section as one step -/
def SectionCode.whole (C : SectionCode ι σ ρ) : Machine σ ι where
  step x i := (runStmts (C.body i) (x, C.locals)).map Prod.fst

theorem SectionCode.whole_step (C : SectionCode ι σ ρ) (x : σ) (i : ι) :
    C.whole.step x i = (runStmts (C.body i) (x, C.locals)).map Prod.fst := rfl

/-- Where a task is: `entering` from the call of `OSMutexPend` until it returns. -/
inductive SectionPc (ι σ ρ : Type) where
  | out
  | entering (i : ι)
  | within (i : ι) (rest : List (Stmt σ ρ)) (locals : ρ)

/-- The kernel, what the tasks share, and the sections that have ended -/
structure Sections (κ τ ι σ ρ : Type) where
  kernel : Mutexes κ τ
  shared : σ
  pc : τ → SectionPc ι σ ρ
  done : List ι

inductive SectionEvent (κ τ ι : Type) where
  | enter (t : τ) (i : ι)
  | resume (t : τ)
  | stmt (t : τ)
  | leave (t : τ)
  /-- A call that is not for the mutex of the sections -/
  | other (e : MutexCall κ τ)

namespace Sections

variable [DecidableEq κ] [DecidableEq τ]

def setPc (t : τ) (c : SectionPc ι σ ρ) (s : Sections κ τ ι σ ρ) : Sections κ τ ι σ ρ :=
  { s with pc := Function.update s.pc t c }

/-- The sections `C` under the mutex `m` -/
def machine (fuel : Nat) (m : κ) (C : SectionCode ι σ ρ) :
    Machine (Sections κ τ ι σ ρ) (SectionEvent κ τ ι) where
  step s
    | .enter t i =>
        match s.pc t with
        | .out => do
            let kernel ← s.kernel.osMutexPend fuel t m false false
            let pc := if (kernel.tcb t).state = .rdy then .within i (C.body i) C.locals
              else .entering i
            some ({ s with kernel }.setPc t pc)
        | _ => none
    | .resume t =>
        match s.pc t with
        | .entering i => do
            let kernel ← s.kernel.osMutexPendReturn t
            some ({ s with kernel }.setPc t (.within i (C.body i) C.locals))
        | _ => none
    | .stmt t =>
        match s.pc t with
        | .within i (a :: b) r => do
            let (shared, r) ← a (s.shared, r)
            some ({ s with shared }.setPc t (.within i b r))
        | _ => none
    | .leave t =>
        match s.pc t with
        | .within i [] _ => do
            let kernel ← s.kernel.osMutexPost t m
            some ({ s with kernel, done := s.done ++ [i] }.setPc t .out)
        | _ => none
    | .other e => do
        let kernel ← (mutexMachine fuel).step s.kernel e
        some { s with kernel }

/-- The event can come next. A task enters a section only if the section can be run
then: `valid` are the sequences of sections that can be. -/
def Allowed (m : κ) (valid : List ι → Prop) (s : Sections κ τ ι σ ρ) :
    SectionEvent κ τ ι → Prop
  | .enter t i => (s.kernel.tcb t).state = .rdy ∧ s.pc t = .out ∧
      ((s.kernel.mutex m).owner = none → valid (s.done ++ [i]))
  | .resume t => (∃ r, (s.kernel.tcb t).state = .woken m r) ∧
      ∃ i, s.pc t = .entering i ∧ valid (s.done ++ [i])
  | .stmt t => (s.kernel.tcb t).state = .rdy ∧ ∃ i a b r, s.pc t = .within i (a :: b) r
  | .leave t => (s.kernel.tcb t).state = .rdy ∧ ∃ i r, s.pc t = .within i [] r
  | .other e => e.Possible s.kernel ∧ e.Level s.kernel ∧ e.Elsewhere m s.kernel

/-- A task within a section has the mutex, and the others wait for it or are out. What
the tasks share is what the sections that have ended made of `x₀`, up to the
statements of a section that has not. -/
structure Serial (m : κ) (C : SectionCode ι σ ρ) (x₀ : σ) (valid : List ι → Prop)
    (s : Sections κ τ ι σ ρ) : Prop where
  kernel : s.kernel.Inherits
  out : ∀ t, s.pc t = .out → (s.kernel.mutex m).owner ≠ some t ∧
    (s.kernel.tcb t).state ≠ .pend m ∧ ∀ r, (s.kernel.tcb t).state ≠ .woken m r
  entering : ∀ t i, s.pc t = .entering i →
    (s.kernel.tcb t).state = .pend m ∨ (s.kernel.tcb t).state = .woken m .ok
  within : ∀ t i b r, s.pc t = .within i b r → (s.kernel.mutex m).owner = some t ∧
    (s.kernel.mutex m).nesting = 1 ∧ ∀ r, (s.kernel.tcb t).state ≠ .woken m r
  idle : (∀ t i b r, s.pc t ≠ .within i b r) → C.whole.run x₀ s.done = some s.shared
  busy : ∀ t i b r, s.pc t = .within i b r → ∃ x, C.whole.run x₀ s.done = some x ∧
    runStmts b (s.shared, r) = runStmts (C.body i) (x, C.locals) ∧ valid (s.done ++ [i])
  ended : valid s.done

variable [Fintype τ] {fuel : Nat} {m : κ} {C : SectionCode ι σ ρ} {x₀ : σ}
  {s : Sections κ τ ι σ ρ} {t : τ} {i : ι} {valid : List ι → Prop}

omit [DecidableEq κ] [DecidableEq τ] [Fintype τ] in
/-- No two tasks are within a section at once. -/
theorem Serial.unique (h : s.Serial m C x₀ valid) {u : τ} {i j : ι} {b c : List (Stmt σ ρ)}
    {r q : ρ} (ht : s.pc t = .within i b r) (hu : s.pc u = .within j c q) : t = u :=
  Option.some.inj ((h.within t i b r ht).1.symm.trans (h.within u j c q hu).1)

theorem Serial.enter (h : s.Serial m C x₀ valid) (hfuel : Fintype.card τ ≤ fuel)
    (ht : (s.kernel.tcb t).state = .rdy) (hout : s.pc t = .out)
    (hvalid : (s.kernel.mutex m).owner = none → valid (s.done ++ [i])) :
    ∃ s', (machine fuel m C).step s (.enter t i) = some s' ∧ s'.Serial m C x₀ valid := by
  obtain ⟨k, hrun, hkernel, hothers, hcase⟩ := h.kernel.enter hfuel ht (h.out t hout).1
  refine ⟨_, by simp only [machine, hout, hrun, Option.bind_eq_bind, Option.bind_some]; rfl, ?_⟩
  rcases hcase with ⟨hfree, howner, hone, hrdy⟩ | ⟨hheld, howner, hnesting, hpend⟩
  · -- the mutex was free, so nobody is within a section
    have hnobody : ∀ u j b r, s.pc u ≠ .within j b r := by
      rintro u j b r hu
      have := (h.within u j b r hu).1
      rw [hfree] at this
      cases this
    have hidle := h.idle hnobody
    rw [if_pos hrdy]
    obtain ⟨-, out, entering, within, -, -, ended⟩ := h
    constructor <;> simp only [setPc, Function.update_apply]
    · exact hkernel
    · grind
    · grind
    · grind
    · intro hnone
      exact absurd (by simp) (hnone t i (C.body i) C.locals)
    · rintro u j b r hu
      by_cases hut : u = t
      · rw [if_pos hut] at hu
        cases hu
        exact ⟨s.shared, hidle, rfl, hvalid hfree⟩
      · rw [if_neg hut] at hu
        exact absurd hu (hnobody u j b r)
    · exact ended
  · have hnot : (k.tcb t).state ≠ .rdy := by simp [hpend]
    rw [if_neg hnot]
    obtain ⟨-, out, entering, within, idle, busy, ended⟩ := h
    constructor <;> simp only [setPc, Function.update_apply]
    · exact hkernel
    · grind
    · grind
    · grind
    · rintro hnone
      refine idle fun u j b r hu => ?_
      have hut : u ≠ t := by
        rintro rfl
        rw [hout] at hu
        cases hu
      exact hnone u j b r (by rw [if_neg hut, hu])
    · rintro u j b r hu
      by_cases hut : u = t
      · rw [if_pos hut] at hu
        cases hu
      · rw [if_neg hut] at hu
        exact busy u j b r hu
    · exact ended

omit [Fintype τ] in
theorem Serial.resume (h : s.Serial m C x₀ valid) (ht : s.pc t = .entering i)
    (hwoken : ∃ r, (s.kernel.tcb t).state = .woken m r)
    (hvalid : valid (s.done ++ [i])) :
    ∃ s', (machine fuel m C).step s (.resume t) = some s' ∧ s'.Serial m C x₀ valid := by
  obtain ⟨r, hwoken⟩ := hwoken
  have hok : (s.kernel.tcb t).state = .woken m .ok := by
    rcases h.entering t i ht with hpend | hok
    · rw [hpend] at hwoken
      cases hwoken
    · exact hok
  obtain ⟨howner, hone⟩ : (s.kernel.mutex m).owner = some t ∧ (s.kernel.mutex m).nesting = 1 := by
    simpa using h.kernel.coherent.handed t m .ok hok
  obtain ⟨k, hrun, hkernel, hmutex, hrdy, hothers⟩ := h.kernel.resume hok
  have hnobody : ∀ u j b r, s.pc u ≠ .within j b r := by
    rintro u j b r hu
    obtain rfl := Option.some.inj ((h.within u j b r hu).1.symm.trans howner)
    rw [ht] at hu
    cases hu
  have hidle := h.idle hnobody
  refine ⟨_, by simp only [machine, ht, hrun, Option.bind_eq_bind, Option.bind_some]; rfl, ?_⟩
  obtain ⟨-, out, entering, within, -, -, ended⟩ := h
  constructor <;> simp only [setPc, Function.update_apply]
  · exact hkernel
  · grind
  · grind
  · grind
  · intro hnone
    exact absurd (by simp) (hnone t i (C.body i) C.locals)
  · rintro u j b r hu
    by_cases hut : u = t
    · rw [if_pos hut] at hu
      cases hu
      exact ⟨s.shared, hidle, rfl, hvalid⟩
    · rw [if_neg hut] at hu
      exact absurd hu (hnobody u j b r)
  · exact ended

omit [Fintype τ] in
theorem Serial.stmt (h : s.Serial m C x₀ valid)
    (hvalid : ∀ is, valid is → ∃ y, C.whole.run x₀ is = some y) {a : Stmt σ ρ}
    {b : List (Stmt σ ρ)} {r : ρ} (ht : s.pc t = .within i (a :: b) r) :
    ∃ s', (machine fuel m C).step s (.stmt t) = some s' ∧ s'.Serial m C x₀ valid := by
  obtain ⟨x, hx, hsame, hok⟩ := h.busy t i (a :: b) r ht
  obtain ⟨y, hy⟩ := hvalid _ hok
  rw [Machine.run_append, hx] at hy
  -- the rest of the section can be run, so this statement can
  obtain ⟨⟨shared, q⟩, ha⟩ : ∃ z, a (s.shared, r) = some z := by
    cases ha : a (s.shared, r) with
    | none =>
        simp only [runStmts, ha, Option.bind_none] at hsame
        simp [Machine.run, SectionCode.whole_step, ← hsame] at hy
    | some z => exact ⟨z, rfl⟩
  refine ⟨_, by simp only [machine, ht, ha, Option.bind_eq_bind, Option.bind_some]; rfl, ?_⟩
  have honly : ∀ u j c q, s.pc u = .within j c q → u = t := fun u j c q hu => h.unique hu ht
  obtain ⟨kernel, out, entering, within, -, -, ended⟩ := h
  constructor <;> simp only [setPc, Function.update_apply]
  · exact kernel
  · grind
  · grind
  · grind
  · intro hnone
    exact absurd (by simp) (hnone t i b q)
  · rintro u j c q' hu
    by_cases hut : u = t
    · rw [if_pos hut] at hu
      cases hu
      refine ⟨x, hx, ?_, hok⟩
      rw [← hsame, runStmts, ha, Option.bind_some]
    · rw [if_neg hut] at hu
      exact absurd (honly u j c q' hu) hut
  · exact ended

theorem Serial.leave (h : s.Serial m C x₀ valid) (hfuel : Fintype.card τ ≤ fuel)
    (hrdy : (s.kernel.tcb t).state = .rdy) {r : ρ} (ht : s.pc t = .within i [] r) :
    ∃ s', (machine fuel m C).step s (.leave t) = some s' ∧ s'.Serial m C x₀ valid := by
  obtain ⟨hm, hone, -⟩ := h.within t i [] r ht
  obtain ⟨k, hrun, hkernel, hcase⟩ := h.kernel.leave hfuel hrdy hm hone
  obtain ⟨x, hx, hsame, hok⟩ := h.busy t i [] r ht
  refine ⟨_, by simp only [machine, ht, hrun, Option.bind_eq_bind, Option.bind_some]; rfl, ?_⟩
  have hdone : C.whole.run x₀ (s.done ++ [i]) = some s.shared := by
    have hwhole : C.whole.step x i = some s.shared := by
      rw [SectionCode.whole_step, ← hsame]
      rfl
    rw [Machine.run_append, hx]
    simp [Machine.run, hwhole]
  have honly : ∀ u j c q, s.pc u = .within j c q → u = t := fun u j c q hu => h.unique hu ht
  have hgone : ∀ u j c q, (if u = t then (.out : SectionPc ι σ ρ) else s.pc u) ≠ .within j c q := by
    rintro u j c q hu
    by_cases hut : u = t
    · rw [if_pos hut] at hu
      cases hu
    · rw [if_neg hut] at hu
      exact hut (honly u j c q hu)
  obtain ⟨-, out, entering, within, -, -, -⟩ := h
  constructor <;> simp only [setPc, Function.update_apply]
  · exact hkernel
  · grind
  · grind
  · grind
  · exact fun _ => hdone
  · rintro u j c q hu
    exact absurd hu (hgone u j c q)
  · exact hok

theorem Serial.other (h : s.Serial m C x₀ valid) (hfuel : Fintype.card τ ≤ fuel) {e : MutexCall κ τ}
    (possible : e.Possible s.kernel) (level : e.Level s.kernel)
    (elsewhere : e.Elsewhere m s.kernel) :
    ∃ s', (machine fuel m C).step s (.other e) = some s' ∧ s'.Serial m C x₀ valid := by
  obtain ⟨k, hrun, hkernel⟩ := h.kernel.step hfuel possible level
  obtain ⟨howner, hnesting, hpend, hwoken⟩ := h.kernel.coherent.elsewhere possible elsewhere hrun
  refine ⟨_, by simp only [machine, hrun, Option.bind_eq_bind, Option.bind_some]; rfl, ?_⟩
  obtain ⟨-, out, entering, within, idle, busy, ended⟩ := h
  constructor
  · exact hkernel
  · grind
  · grind
  · grind
  · exact idle
  · exact busy
  · exact ended

/-- **Step.** Each event can be taken and keeps the sections in series. -/
theorem Serial.step (h : s.Serial m C x₀ valid) (hfuel : Fintype.card τ ≤ fuel)
    (hvalid : ∀ is, valid is → ∃ y, C.whole.run x₀ is = some y) {e : SectionEvent κ τ ι}
    (allowed : s.Allowed m valid e) :
    ∃ s', (machine fuel m C).step s e = some s' ∧ s'.Serial m C x₀ valid := by
  cases e with
  | enter t i =>
      obtain ⟨ht, hout, hok⟩ := allowed
      exact h.enter hfuel ht hout hok
  | resume t =>
      obtain ⟨hwoken, i, hentering, hok⟩ := allowed
      exact h.resume hentering hwoken hok
  | stmt t =>
      obtain ⟨-, i, a, b, r, ht⟩ := allowed
      exact h.stmt hvalid ht
  | leave t =>
      obtain ⟨hrdy, i, r, ht⟩ := allowed
      exact h.leave hfuel hrdy ht
  | other e =>
      obtain ⟨possible, level, elsewhere⟩ := allowed
      exact h.other hfuel possible level elsewhere

/-- No task is within a section, or on its way into one. -/
structure Start (x₀ : σ) (s : Sections κ τ ι σ ρ) : Prop where
  kernel : s.kernel.Start
  shared : s.shared = x₀
  pc : ∀ t, s.pc t = .out
  done : s.done = []

omit [DecidableEq κ] [DecidableEq τ] [Fintype τ] in
theorem Start.serial (h : s.Start x₀) (hnil : valid []) : s.Serial m C x₀ valid where
  kernel := h.kernel.inherits
  out t _ := by
    rw [h.kernel.mutex m]
    rcases h.kernel.state t with ht | ht <;> simp [ht]
  entering t i ht := by simp [h.pc] at ht
  within t i b r ht := by simp [h.pc] at ht
  idle _ := by simp [h.done, h.shared]
  busy t i b r ht := by simp [h.pc] at ht
  ended := h.done ▸ hnil

/-- **Run.** The sections of every run are in series. -/
theorem Start.run (h : s.Start x₀) (hfuel : Fintype.card τ ≤ fuel) (hnil : valid [])
    (hvalid : ∀ is, valid is → ∃ y, C.whole.run x₀ is = some y) {es : List (SectionEvent κ τ ι)}
    (guarded : (machine fuel m C).Guarded (Allowed m valid) s es) :
    ∃ s', (machine fuel m C).run s es = some s' ∧ s'.Serial m C x₀ valid :=
  Machine.run_progress (Serial m C x₀ valid) (fun _ _ h hok => h.step hfuel hvalid hok)
    (h.serial hnil) guarded

end Sections

/-! ### The statements of list.c -/

variable {α ω : Type} [DecidableEq α]

/-- `prev` and `next` of a call -/
abbrev ListArgs (α : Type) := Option α × Option α

/-- The statements of `_list_add` -/
def listAddStmts (new : α) : List (Stmt (ListHeap α ω) (ListArgs α)) :=
  [fun (h, prev, next) => next.map fun n => (h.setPrev n (some new), prev, next),
    fun (h, prev, next) => some (h.setNext new next, prev, next),
    fun (h, prev, next) => some (h.setPrev new prev, prev, next),
    fun (h, prev, next) => prev.map fun p => (h.setNext p (some new), prev, next)]

/-- The statements of `_list_del` -/
def listDelStmts : List (Stmt (ListHeap α ω) (ListArgs α)) :=
  [fun (h, prev, next) => next.map fun n => (h.setPrev n prev, prev, next),
    fun (h, prev, next) => prev.map fun p => (h.setNext p next, prev, next)]

/-- The calls on the list at `head`, statement by statement; the first one evaluates the
arguments. -/
def listCode (head : α) : SectionCode (ListOp α) (ListHeap α ω) (ListArgs α) where
  locals := (none, none)
  body
    | .add new => (fun (h, _) => some (h, some head, (h head).next)) :: listAddStmts new
    | .addTail new => (fun (h, _) => some (h, (h head).prev, some head)) :: listAddStmts new
    | .del entry =>
        (fun (h, _) => some (h, (h entry).prev, (h entry).next)) :: (listDelStmts ++
          [fun (h, r) => some (h.setNext entry none, r),
            fun (h, r) => some (h.setPrev entry none, r)])

/-- The statements of a call, one after the other, are the call. -/
theorem listCode_whole (head : α) :
    (listCode head).whole = (ListOp.heapMachine head : Machine (ListHeap α ω) _) := by
  have hstep : ∀ (h : ListHeap α ω) op, (listCode head).whole.step h op = op.exec head h := by
    rintro h (new | new | entry)
    · cases hnext : (h head).next <;>
        simp [SectionCode.whole_step, listCode, listAddStmts, runStmts, ListOp.exec, listAdd, hnext,
          listAddBetween]
    · cases hprev : (h head).prev <;>
        simp [SectionCode.whole_step, listCode, listAddStmts, runStmts, ListOp.exec, listAddTail,
          hprev, listAddBetween]
    · cases hprev : (h entry).prev <;> cases hnext : (h entry).next <;>
        simp [SectionCode.whole_step, listCode, listDelStmts, runStmts, ListOp.exec, listDel, hprev,
          hnext, listDelBetween]
  exact congrArg Machine.mk (funext fun h => funext fun op => hstep h op)

variable [DecidableEq κ] [DecidableEq τ] [Fintype τ]

/-- **The list under its mutex.** Tasks call `list_add`, `list_add_tail` and `list_del`
under a mutex, and may be switched before every statement. Where each call can be made
when its section begins (what it deletes is on the list, what it adds is not), and
time-outs of other mutexes are level, they leave the list that the calls as a whole leave,
in the order in which they ended; no two tasks are in a call at once and no statement
dereferences a null pointer. -/
theorem list_sections {fuel : Nat} (hfuel : Fintype.card τ ≤ fuel) {m : κ} {head : α}
    {h₀ : ListHeap α ω} {xs : List α} (hl : IsList h₀ head xs)
    {s₀ : Sections κ τ (ListOp α) (ListHeap α ω) (ListArgs α)} (start : s₀.Start h₀)
    {es : List (SectionEvent κ τ (ListOp α))}
    (guarded : (Sections.machine fuel m (listCode head)).Guarded
      (Sections.Allowed m fun ops => ∃ ys, (ListOp.seqMachine head).run xs ops = some ys) s₀ es) :
    ∃ s ys, (Sections.machine fuel m (listCode head)).run s₀ es = some s ∧
      (ListOp.seqMachine head).run xs s.done = some ys ∧
      (∀ t u i j b c r q, s.pc t = .within i b r → s.pc u = .within j c q → t = u) ∧
      ((∀ t i b r, s.pc t ≠ .within i b r) → IsList s.shared head ys) := by
  have hruns : ∀ ops, (∃ ys, (ListOp.seqMachine head).run xs ops = some ys) →
      ∃ h, (listCode head).whole.run h₀ ops = some h := by
    rintro ops ⟨ys, hrun⟩
    obtain ⟨h, hheap, -⟩ := ListOp.run_of_run hl hrun
    exact ⟨h, listCode_whole head ▸ hheap⟩
  obtain ⟨s, hrun, hserial⟩ := start.run hfuel ⟨xs, rfl⟩ hruns guarded
  obtain ⟨ys, hys⟩ := hserial.ended
  refine ⟨s, ys, hrun, hys, fun t u i j b c r q ht hu => hserial.unique ht hu, ?_⟩
  intro hnobody
  obtain ⟨h, hheap, hlist, -⟩ := ListOp.run_of_run hl hys
  have hidle := hserial.idle hnobody
  rw [listCode_whole, hheap] at hidle
  exact Option.some.inj hidle ▸ hlist

/-- The first task adds node 3 to the list of 1 and 2, and is switched for the second,
which takes node 1 off. -/
def twoSections : List (SectionEvent Unit Bool (ListOp Nat)) :=
  [.enter true (.addTail 3), .stmt true, .stmt true, .enter false (.del 1), .stmt true, .stmt true,
    .stmt true, .leave true, .resume false, .stmt false, .stmt false, .stmt false, .stmt false,
    .stmt false, .leave false]

theorem list_sections_two :
    ∃ s ys, (Sections.machine 2 () (listCode 0)).run
        ⟨Mutexes.twoTasks, twoNodes, fun _ => .out, []⟩ twoSections = some s ∧
      (ListOp.seqMachine 0).run [1, 2] s.done = some ys ∧
      ((∀ t i b r, s.pc t ≠ .within i b r) → IsList s.shared 0 ys) := by
  have htwo : IsList twoNodes 0 [1, 2] := ⟨by simp, by simp [Linked, twoNodes]⟩
  have hguarded : (Sections.machine 2 () (listCode 0)).Guarded
      (Sections.Allowed () fun ops => ∃ ys, (ListOp.seqMachine 0).run [1, 2] ops = some ys)
      ⟨Mutexes.twoTasks, twoNodes, fun _ => .out, []⟩ twoSections := by
    refine .cons ⟨rfl, rfl, fun _ => ⟨_, rfl⟩⟩ rfl ?_
    iterate 2 refine .cons ⟨rfl, _, _, _, _, rfl⟩ rfl ?_
    refine .cons ⟨rfl, rfl, fun h => by cases h⟩ rfl ?_
    iterate 3 refine .cons ⟨rfl, _, _, _, _, rfl⟩ rfl ?_
    refine .cons ⟨rfl, _, _, rfl⟩ rfl ?_
    refine .cons ⟨⟨_, rfl⟩, _, rfl, _, rfl⟩ rfl ?_
    iterate 5 refine .cons ⟨rfl, _, _, _, _, rfl⟩ rfl ?_
    exact .cons ⟨rfl, _, _, rfl⟩ rfl trivial
  obtain ⟨s, ys, hrun, hdone, -, hlist⟩ := list_sections (by simp) htwo
    ⟨Mutexes.twoTasks_start, rfl, fun _ => rfl, rfl⟩ hguarded
  exact ⟨s, ys, hrun, hdone, hlist⟩

end WifiExpander
