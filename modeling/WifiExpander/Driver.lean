import WifiExpander.Isolation

/-!
One task among the others.

Some statements are about what a single task sends while everything else goes on.
A `Driver` is such a task: its own steps, and the calls it makes. `Driven` runs it
next to the other tasks, whose steps are those of `Sys`. An invariant of the
task's own state and of its place in the call is then shown step by step
(`Driver.Keeps`), and `Driver.run_keeps` carries it through every interleaving of
the code in which the buffers stay apart.
-/

namespace WifiExpander

open WifiExpander.Theory

/-! ### The steps of one task -/

/-- The task that takes this step of a call. -/
def Event.task : Event → Option Task
  | .take t _ | .fill t | .link t => some t
  | _ => none

namespace Sys

variable {σ : Type} [SendOps σ]

/-- The entry that the task's next step links. -/
def entry (s : Sys σ) (t : Task) : Option UartSendFormat :=
  match s.pc t with
  | .filled c _ _ => ((SendOps.vars s.st).statics c.static).map (SendOps.vars s.st).mem
  | _ => none

variable {s s' : Sys σ} {t : Task} {c : Call} {b : BufId} {sn : UInt8}

/-- A task moves only by its own steps. -/
theorem step_pc {e : Event} (h : s.step e = some s') (hne : e.task ≠ some t) :
    s'.pc t = s.pc t := by
  cases e with
  | take t' c =>
      have ht : t ≠ t' := fun heq => hne (by rw [heq]; rfl)
      simp only [step] at h
      split at h
      · split at h
        · obtain ⟨⟨pBuf, st⟩, -, hend⟩ := Option.bind_eq_some_iff.mp h
          cases pBuf <;> cases hend <;> simp [setPc, ht]
        · cases h
          rfl
      · cases h
        rfl
  | fill t' | link t' =>
      have ht : t ≠ t' := fun heq => hne (by rw [heq]; rfl)
      simp only [step] at h
      split at h
      · obtain ⟨st, -, hend⟩ := Option.bind_eq_some_iff.mp h
        cases hend
        simp [setPc, ht]
      · cases h
        rfl
  | tick | inspect | answer =>
      obtain ⟨st, -, hend⟩ := Option.bind_eq_some_iff.mp h
      cases hend
      rfl
  | pend | transmit | complete | otherMsgs =>
      cases h
      rfl

/-- After the take the task has a buffer, or there was none. -/
theorem step_take {s s' : Sys Pool} (h : s.step (.take t c) = some s') (hpc : s.pc t = .idle)
    (hmakes : t.makes c = true) :
    s'.pc t = .idle ∧ s.st.free = [] ∨ ∃ b, s'.pc t = .taken c b := by
  simp only [step, hpc, hmakes, if_true, SendOps.takeBuf, Option.bind_eq_bind,
    Option.bind_some] at h
  cases hfree : s.st.free with
  | nil =>
      rw [Pool.takeBuf_nil hfree] at h
      cases h
      exact .inl ⟨hpc, rfl⟩
  | cons b rest =>
      rw [Pool.takeBuf_cons hfree] at h
      cases h
      exact .inr ⟨b, by simp [setPc]⟩

theorem step_fill (h : s.step (.fill t) = some s') (hpc : s.pc t = .taken c b) :
    ∃ sn, s'.pc t = .filled c b sn := by
  simp only [step, hpc] at h
  obtain ⟨st, -, hend⟩ := Option.bind_eq_some_iff.mp h
  cases hend
  exact ⟨_, by simp only [setPc, Function.update_self]; rfl⟩

theorem step_link (h : s.step (.link t) = some s') (hpc : s.pc t = .filled c b sn) :
    s'.pc t = .idle := by
  simp only [step, hpc] at h
  obtain ⟨st, -, hend⟩ := Option.bind_eq_some_iff.mp h
  cases hend
  simp [setPc]

/-- **A task links what it filled**: the frame of its call, with the call's type. -/
theorem History.entry {s : Sys Pool} {Inv : Pool → (BufId → Prop) → Prop} (h : s.History)
    (hok : Ok Inv s) (hpc : s.pc t = .filled c b sn) :
    ∃ f, s.entry t = some f ∧ f.frame = c.bytes sn ∧ f.poll.type = c.pollType := by
  have hstatic := hok.static t c (by simp [hpc, Pc.call])
  rw [hpc] at hstatic
  obtain ⟨hframe, htype⟩ := h.filled t c b sn hpc
  exact ⟨s.st.mem b, by simp [Sys.entry, hpc, SendOps.vars, hstatic, Pc.buf], hframe, htype⟩

theorem Rep.entry {s : Sys Tx} {v : Sys Pool} (h : s.Rep v) : s.entry t = v.entry t := by
  simp only [Sys.entry, h.pc, h.vars]

end Sys

/-! ### The task and its surroundings -/

/-- A task: its own steps, which may look at `OSMsgPool.NbrFree`, the call it makes
next, and what it notes when the call has obtained a buffer or not and when it has
linked its entry. -/
structure Driver (δ ε : Type) where
  task : Task
  own : δ → Nat → ε → δ
  call : δ → Option Call
  took : δ → Bool → δ
  linked : δ → UartSendFormat → δ

/-- The task's own state next to the send path and the other tasks. -/
structure Driven (τ δ : Type) where
  sys : Sys τ
  loc : δ

inductive DriverEvent (ε : Type) where
  | own (e : ε)
  /-- the task calls, and asks for a buffer -/
  | take
  | fill
  | link
  /-- a step of another task -/
  | other (e : Event)

namespace Driver

variable {δ ε τ : Type} [SendOps τ] (D : Driver δ ε)

def step (s : Driven τ δ) : DriverEvent ε → Option (Driven τ δ)
  | .own e => some { s with loc := D.own s.loc (SendOps.vars s.sys.st).nbrFree e }
  | .take =>
      match s.sys.pc D.task, D.call s.loc with
      | .idle, some c => do
          let sys ← s.sys.step (.take D.task c)
          some ⟨sys, D.took s.loc (sys.pc D.task).buf.isSome⟩
      | _, _ => some s
  | .fill => do
      let sys ← s.sys.step (.fill D.task)
      some { s with sys }
  | .link => do
      let sys ← s.sys.step (.link D.task)
      match s.sys.entry D.task with
      | some f => some ⟨sys, D.linked s.loc f⟩
      | none => some { s with sys }
  | .other e =>
      if e.task = some D.task then some s
      else do
        let sys ← s.sys.step e
        some { s with sys }

def machine (τ : Type) [SendOps τ] : Machine (Driven τ δ) (DriverEvent ε) := ⟨D.step⟩

/-- A run of the code from `uart_context_init` on. -/
def runFrom (loc : δ) (heap : Heap) (mem : BufId → UartSendFormat) (msgPoolSize : Nat)
    (es : List (DriverEvent ε)) : Option (Driven Tx δ) := do
  let st ← Tx.uartContextInit heap mem msgPoolSize
  (D.machine Tx).run ⟨.start st, loc⟩ es

/-- Every event of that run is taken from a state where `ok` holds of it. -/
def GuardedFrom (ok : Driven Tx δ → DriverEvent ε → Prop) (loc : δ) (heap : Heap)
    (mem : BufId → UartSendFormat) (msgPoolSize : Nat) (es : List (DriverEvent ε)) : Prop :=
  match Tx.uartContextInit heap mem msgPoolSize with
  | none => True
  | some st => (D.machine Tx).Guarded ok ⟨.start st, loc⟩ es

instance (ok : Driven Tx δ → DriverEvent ε → Prop) [∀ s e, Decidable (ok s e)] (loc : δ)
    (heap : Heap) (mem : BufId → UartSendFormat) (msgPoolSize : Nat)
    (es : List (DriverEvent ε)) : Decidable (D.GuardedFrom ok loc heap mem msgPoolSize es) :=
  match hinit : Tx.uartContextInit heap mem msgPoolSize with
  | none => .isTrue (by simp only [GuardedFrom, hinit])
  | some st =>
      decidable_of_iff ((D.machine Tx).Guarded ok ⟨.start st, loc⟩ es)
        (by simp only [GuardedFrom, hinit])

/-- The buffers stay apart, the task's own steps meet `Own`, and its calls find the
free list as `Take` says. -/
def Clean (Own : δ → ε → Prop) (Take : List BufId → Prop) (s : Driven τ δ) :
    DriverEvent ε → Prop
  | .own e => Own s.loc e
  | .take => ∀ c ∈ D.call s.loc,
      s.sys.NoOverlap (.take D.task c) ∧ Take (SendOps.freeBufs s.sys.st)
  | .fill | .link => True
  | .other e => s.sys.NoOverlap e ∧ s.sys.InspectFresh e

instance (Own : δ → ε → Prop) (Take : List BufId → Prop) [∀ l e, Decidable (Own l e)]
    [∀ free, Decidable (Take free)] (s : Driven τ δ) : ∀ e, Decidable (D.Clean Own Take s e)
  | .own e => inferInstanceAs (Decidable (Own s.loc e))
  | .take => inferInstanceAs (Decidable (∀ c ∈ D.call s.loc, _ ∧ _))
  | .fill | .link => isTrue trivial
  | .other _ => inferInstanceAs (Decidable (_ ∧ _))

/-! ### Invariants of the task -/

/-- `Keep` relates the task's state to where it is in its call; these are the steps
that have to preserve it. -/
structure Keeps (Own : δ → ε → Prop) (Take : List BufId → Prop) (Keep : δ → Pc → Prop) :
    Prop where
  own : ∀ {l p e}, Keep l p → Own l e → ∀ nbrFree, Keep (D.own l nbrFree e) p
  makes : ∀ {l c}, Keep l .idle → D.call l = some c → D.task.makes c = true
  refused : ∀ {l c}, Keep l .idle → D.call l = some c → Take [] → Keep (D.took l false) .idle
  took : ∀ {l c}, Keep l .idle → D.call l = some c → ∀ b, Keep (D.took l true) (.taken c b)
  filled : ∀ {l c b}, Keep l (.taken c b) → ∀ sn, Keep l (.filled c b sn)
  linked : ∀ {l c b sn f}, Keep l (.filled c b sn) → f.frame = c.bytes sn →
    f.poll.type = c.pollType → Keep (D.linked l f) .idle

variable {D} {Own : δ → ε → Prop} {Take : List BufId → Prop} {Keep : δ → Pc → Prop}

/-- The invariant of the whole system over sequences. -/
structure Inv (D : Driver δ ε) (Keep : δ → Pc → Prop) (v : Driven Pool δ) : Prop where
  ok : v.sys.Ok Pool.Separate
  history : v.sys.History
  keep : Keep v.loc (v.sys.pc D.task)

/-- A step of the system, with the task's own part still to be shown. -/
theorem Inv.sys {v : Driven Pool δ} (h : Inv D Keep v) {e : Event} (hover : v.sys.NoOverlap e)
    (hfresh : v.sys.InspectFresh e) :
    ∃ w, v.sys.step e = some w ∧ w.Ok Pool.Separate ∧ w.History := by
  obtain ⟨w, hstep, hmoves, hok⟩ := h.ok.step Pool.Separate.closed hover hfresh
    (by cases e <;> simp [Sys.Visits])
  exact ⟨w, hstep, hok, h.history.moves h.ok hmoves⟩

theorem Inv.take (hk : D.Keeps Own Take Keep) {v : Driven Pool δ} (h : Inv D Keep v)
    (hclean : D.Clean Own Take v .take) : ∃ v', D.step v .take = some v' ∧ Inv D Keep v' := by
  simp only [step]
  cases hpc : v.sys.pc D.task with
  | taken | filled => exact ⟨v, rfl, h⟩
  | idle =>
      cases hcall : D.call v.loc with
      | none => exact ⟨v, rfl, h⟩
      | some c =>
          have hkeep := h.keep
          rw [hpc] at hkeep
          obtain ⟨hover, hfree⟩ := hclean c hcall
          obtain ⟨w, hstep, hok, hhist⟩ := h.sys (e := .take D.task c) hover trivial
          refine ⟨⟨w, D.took v.loc (w.pc D.task).buf.isSome⟩, ?_, hok, hhist, ?_⟩
          · simp only [hstep, Option.bind_eq_bind, Option.bind_some]
          · rcases Sys.step_take hstep hpc (hk.makes hkeep hcall) with ⟨hidle, hnil⟩ | ⟨b, htaken⟩
            · have hnone : Take [] := by
                have : SendOps.freeBufs v.sys.st = [] := hnil
                rwa [this] at hfree
              simp only [hidle]
              exact hk.refused hkeep hcall hnone
            · simp only [htaken]
              exact hk.took hkeep hcall b

theorem Inv.fill (hk : D.Keeps Own Take Keep) {v : Driven Pool δ} (h : Inv D Keep v) :
    ∃ v', D.step v .fill = some v' ∧ Inv D Keep v' := by
  obtain ⟨w, hstep, hok, hhist⟩ := h.sys (e := .fill D.task) trivial trivial
  refine ⟨{ v with sys := w }, ?_, hok, hhist, ?_⟩
  · simp only [step, hstep, Option.bind_eq_bind, Option.bind_some]
  · have hkeep := h.keep
    cases hpc : v.sys.pc D.task with
    | taken c b =>
        obtain ⟨sn, hfilled⟩ := Sys.step_fill hstep hpc
        rw [hpc] at hkeep
        rw [hfilled]
        exact hk.filled hkeep sn
    | idle | filled =>
        simp only [Sys.step, hpc, Option.some.injEq] at hstep
        rw [← hstep]
        exact hkeep

theorem Inv.link (hk : D.Keeps Own Take Keep) {v : Driven Pool δ} (h : Inv D Keep v) :
    ∃ v', D.step v .link = some v' ∧ Inv D Keep v' := by
  obtain ⟨w, hstep, hok, hhist⟩ := h.sys (e := .link D.task) trivial trivial
  have hkeep := h.keep
  simp only [step, hstep, Option.bind_eq_bind, Option.bind_some]
  cases hpc : v.sys.pc D.task with
  | filled c b sn =>
      obtain ⟨f, hentry, hframe, htype⟩ := h.history.entry h.ok hpc
      rw [hpc] at hkeep
      rw [hentry]
      refine ⟨_, rfl, hok, hhist, ?_⟩
      simp only [Sys.step_link hstep hpc]
      exact hk.linked hkeep hframe htype
  | idle | taken =>
      have hnone : v.sys.entry D.task = none := by simp [Sys.entry, hpc]
      rw [hnone]
      refine ⟨_, rfl, hok, hhist, ?_⟩
      simp only [Sys.step, hpc, Option.some.injEq] at hstep
      rw [← hstep]
      exact hkeep

/-- **Every step can be taken and keeps the invariant.** -/
theorem Inv.step (hk : D.Keeps Own Take Keep) {v : Driven Pool δ} (h : Inv D Keep v)
    {e : DriverEvent ε} (hclean : D.Clean Own Take v e) :
    ∃ v', D.step v e = some v' ∧ Inv D Keep v' := by
  cases e with
  | own e => exact ⟨_, rfl, h.ok, h.history, hk.own h.keep hclean _⟩
  | take => exact h.take hk hclean
  | fill => exact h.fill hk
  | link => exact h.link hk
  | other e =>
      simp only [Driver.step]
      by_cases htask : e.task = some D.task
      · exact ⟨v, if_pos htask, h⟩
      · obtain ⟨w, hstep, hok, hhist⟩ := h.sys hclean.1 hclean.2
        refine ⟨{ v with sys := w }, ?_, hok, hhist, ?_⟩
        · simp only [if_neg htask, hstep, Option.bind_eq_bind, Option.bind_some]
        · simp only [Sys.step_pc hstep htask]
          exact h.keep

/-- The code's system `s` implements the system `v` over sequences. -/
structure Rep (s : Driven Tx δ) (v : Driven Pool δ) : Prop where
  sys : s.sys.Rep v.sys
  loc : s.loc = v.loc

namespace Rep

variable {s : Driven Tx δ} {v v' : Driven Pool δ}

theorem clean (h : Rep s v) {e : DriverEvent ε} (hclean : D.Clean Own Take s e) :
    D.Clean Own Take v e := by
  cases e with
  | own e =>
      rw [Clean, ← h.loc]
      exact hclean
  | take =>
      rw [Clean, ← h.loc, ← h.sys.freeBufs]
      exact fun c hc => ⟨(h.sys.noOverlap _).mp (hclean c hc).1, (hclean c hc).2⟩
  | fill | link => trivial
  | other e => exact ⟨(h.sys.noOverlap e).mp hclean.1, (h.sys.inspectFresh e).mp hclean.2⟩

theorem take (h : Rep s v) (hv : D.step v .take = some v') :
    ∃ s', D.step s .take = some s' ∧ Rep s' v' := by
  simp only [Driver.step, h.sys.pc, h.loc] at hv ⊢
  cases hpc : v.sys.pc D.task with
  | taken | filled =>
      simp only [hpc] at hv ⊢
      cases hv
      exact ⟨s, rfl, h⟩
  | idle =>
      cases hcall : D.call v.loc with
      | none =>
          simp only [hpc, hcall] at hv ⊢
          cases hv
          exact ⟨s, rfl, h⟩
      | some c =>
          simp only [hpc, hcall] at hv ⊢
          obtain ⟨w, hstep, hend⟩ := Option.bind_eq_some_iff.mp hv
          cases hend
          obtain ⟨w', hstep', hrep⟩ := h.sys.step hstep
          refine ⟨⟨w', D.took v.loc (w'.pc D.task).buf.isSome⟩, ?_, hrep, by rw [hrep.pc]⟩
          simp only [hstep', Option.bind_eq_bind, Option.bind_some]

theorem link (h : Rep s v) (hv : D.step v .link = some v') :
    ∃ s', D.step s .link = some s' ∧ Rep s' v' := by
  obtain ⟨w, hstep, hend⟩ := Option.bind_eq_some_iff.mp hv
  obtain ⟨w', hstep', hrep⟩ := h.sys.step hstep
  simp only [Driver.step, hstep', Option.bind_eq_bind, Option.bind_some, h.sys.entry, h.loc]
  cases hentry : v.sys.entry D.task with
  | none =>
      simp only [hentry] at hend
      cases hend
      exact ⟨_, rfl, hrep, rfl⟩
  | some f =>
      simp only [hentry] at hend
      cases hend
      exact ⟨_, rfl, hrep, rfl⟩

/-- Every step over sequences is a step of the code. -/
theorem step (h : Rep s v) {e : DriverEvent ε} (hv : D.step v e = some v') :
    ∃ s', D.step s e = some s' ∧ Rep s' v' := by
  cases e with
  | own e =>
      cases hv
      exact ⟨_, rfl, h.sys, by simp only [h.loc, h.sys.vars]⟩
  | take => exact h.take hv
  | fill =>
      obtain ⟨w, hstep, hend⟩ := Option.bind_eq_some_iff.mp hv
      cases hend
      obtain ⟨w', hstep', hrep⟩ := h.sys.step hstep
      refine ⟨{ s with sys := w' }, ?_, hrep, h.loc⟩
      simp only [Driver.step, hstep', Option.bind_eq_bind, Option.bind_some]
  | link => exact h.link hv
  | other e =>
      simp only [Driver.step] at hv ⊢
      by_cases htask : e.task = some D.task
      · rw [if_pos htask] at hv ⊢
        cases hv
        exact ⟨s, rfl, h⟩
      · rw [if_neg htask] at hv ⊢
        obtain ⟨w, hstep, hend⟩ := Option.bind_eq_some_iff.mp hv
        cases hend
        obtain ⟨w', hstep', hrep⟩ := h.sys.step hstep
        refine ⟨{ s with sys := w' }, ?_, hrep, h.loc⟩
        simp only [hstep', Option.bind_eq_bind, Option.bind_some]

end Rep

/-- **Every interleaving of the task with the others**: the code runs on, and the
invariant of the task holds. -/
theorem run_keeps (hk : D.Keeps Own Take Keep) {loc : δ} (hinit : Keep loc .idle) {heap : Heap}
    {mem : BufId → UartSendFormat} {msgPoolSize : Nat} {es : List (DriverEvent ε)}
    (guarded : D.GuardedFrom (D.Clean Own Take) loc heap mem msgPoolSize es) :
    ∃ s, D.runFrom loc heap mem msgPoolSize es = some s ∧ Keep s.loc (s.sys.pc D.task) := by
  obtain ⟨st, hst, hrep⟩ := uartContextInit_spec heap mem msgPoolSize
  have hrep' : Rep ⟨.start st, loc⟩ ⟨.start (Pool.boot mem msgPoolSize), loc⟩ :=
    ⟨⟨hrep, rfl, rfl, rfl⟩, rfl⟩
  have hstart : Inv D Keep ⟨.start (Pool.boot mem msgPoolSize), loc⟩ :=
    ⟨.start (Pool.Separate.boot mem msgPoolSize), .boot mem msgPoolSize, hinit⟩
  simp only [GuardedFrom, hst] at guarded
  have hguard : ∀ (s : Driven Tx δ) (v : Driven Pool δ) e, Rep s v → Inv D Keep v →
      D.Clean Own Take s e → D.Clean Own Take v e := fun _ _ _ hs _ hclean => hs.clean hclean
  have hprogress : ∀ (v : Driven Pool δ) e, Inv D Keep v → D.Clean Own Take v e →
      ∃ v', (D.machine Pool).step v e = some v' ∧ Inv D Keep v' :=
    fun _ _ hv hclean => hv.step hk hclean
  obtain ⟨s, v, hrun, hsv, hv⟩ := Machine.run_refines (M := D.machine Tx) (A := D.machine Pool)
    hguard hprogress (fun _ _ _ _ hs hv => hs.step hv) hrep' hstart guarded
  refine ⟨s, by simp only [runFrom, hst, Option.bind_eq_bind, Option.bind_some]; exact hrun, ?_⟩
  rw [hsv.loc, hsv.sys.pc]
  exact hv.keep

end Driver

end WifiExpander
