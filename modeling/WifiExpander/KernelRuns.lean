import WifiExpander.KernelQueue

/-!
Runs of the message queues: any number of queues and tasks, on the memory of
`os_msg.c`.

The invariant is proved for the sequences the queues stand for; the memory
follows them call by call, so that each run on the memory is one on sequences.
-/

namespace WifiExpander

open Theory

variable {σ κ τ α : Type} [DecidableEq κ] [DecidableEq τ]

/-! ### Runs on sequences -/

/-- The invariant of the queues; `fifo` are those that are kept first in, first out. -/
structure Kernel.Inv (prio : τ → Nat) (sizes : κ → Nat) (fifo : κ → Prop)
    (k : Kernel (MsgSeqs κ α) κ τ α) : Prop where
  listed : k.tasks.Listed prio
  lawful : k.tasks.Lawful fifo k.store.entries
  size_eq : k.store.size = sizes
  bounded : ∀ q, (k.store.entries q).length ≤ sizes q

/-- The calls of a run: possible, and first in, first out where this is asked for. -/
def QCall.Keeps (fifo : κ → Prop) (k : Kernel σ κ τ α) (e : QCall κ τ α) : Prop :=
  e.Possible k ∧ ∀ q, fifo q → e.Fifo q

instance QCall.Keeps.decidable [Fintype κ] [DecidableEq α] (fifo : κ → Prop)
    [DecidablePred fifo] (k : Kernel σ κ τ α) (e : QCall κ τ α) : Decidable (e.Keeps fifo k) :=
  inferInstanceAs (Decidable (e.Possible k ∧ ∀ q, fifo q → e.Fifo q))

namespace Kernel.Inv

variable {prio : τ → Nat} {sizes : κ → Nat} {fifo : κ → Prop}
  {k : Kernel (MsgSeqs κ α) κ τ α} {q : κ} {t : τ}

/-- A call that leaves the queues as they are. -/
private theorem of_tasks (h : k.Inv prio sizes fifo) {w : Tasks κ τ α} (listed : w.Listed prio)
    (lawful : w.Lawful fifo k.store.entries) :
    (⟨k.store, w⟩ : Kernel _ κ τ α).Inv prio sizes fifo :=
  ⟨listed, lawful, h.size_eq, h.bounded⟩

/-- Another sequence in queue `q`, within its size. -/
private theorem of_entries (h : k.Inv prio sizes fifo) {w : Tasks κ τ α} {vs : List (Msg α)}
    {n : Nat} (listed : w.Listed prio)
    (lawful : w.Lawful fifo (Function.update k.store.entries q vs)) (hlen : vs.length ≤ sizes q) :
    (⟨{ k.store with entries := Function.update k.store.entries q vs, nbrFree := n }, w⟩ :
      Kernel _ κ τ α).Inv prio sizes fifo := by
  refine ⟨listed, lawful, h.size_eq, ?_⟩
  intro p
  by_cases hp : p = q
  · subst hp
    simpa using hlen
  · simpa [hp] using h.bounded p

/-- A message given to several waiting tasks. -/
private theorem foldl_osPost {w : Tasks κ τ α} {entries : κ → List (Msg α)}
    (listed : w.Listed prio) (lawful : w.Lawful fifo entries) (hempty : entries q = [])
    (v : Msg α) (ts : List τ) (hts : ∀ t ∈ ts, ∀ q', w.task t = .pend q' → q' = q) :
    (ts.foldl (fun k t => k.osPost q v t) w).Listed prio ∧
      (ts.foldl (fun k t => k.osPost q v t) w).Lawful fifo entries := by
  induction ts generalizing w with
  | nil => exact ⟨listed, lawful⟩
  | cons t ts ih =>
      rw [List.foldl_cons]
      apply ih (listed.osPost q v t) (lawful.osPost hempty v (hts t List.mem_cons_self))
      intro u hu q' hpend
      apply hts u (List.mem_cons_of_mem t hu) q'
      -- a task that still waits waited before
      unfold Tasks.osPost at hpend
      cases ht : w.task t with
      | rdy => simpa only [ht] using hpend
      | woken r => simpa only [ht] using hpend
      | pend p =>
          simp only [ht, Tasks.wake_of_pend ht, Tasks.record] at hpend
          by_cases hut : u = t
          · simp [hut] at hpend
          · simpa [hut] using hpend

/-- Several waiting tasks aborted. -/
private theorem foldl_abort {w : Tasks κ τ α} {entries : κ → List (Msg α)}
    (listed : w.Listed prio) (lawful : w.Lawful fifo entries) (ts : List τ) :
    (ts.foldl (fun k t => k.wake t .abort) w).Listed prio ∧
      (ts.foldl (fun k t => k.wake t .abort) w).Lawful fifo entries := by
  induction ts generalizing w with
  | nil => exact ⟨listed, lawful⟩
  | cons t ts ih => exact ih (listed.wake t _) (lawful.wake t rfl)

theorem osqPost (h : k.Inv prio sizes fifo) (q : κ) (v : Msg α) {opt : PostOrder} (all : Bool)
    (hfifo : fifo q → opt = .fifo) :
    ∃ k', k.osqPost seqStore q v opt all = some k' ∧ k'.Inv prio sizes fifo := by
  have hrefused : ∀ err,
      (⟨k.store, k.tasks.record [.refused q v err]⟩ : Kernel _ κ τ α).Inv prio sizes fifo := by
    intro err
    exact h.of_tasks (h.listed.record _) (h.lawful.record_other
      (fun _ => rfl) (fun _ => rfl) (fun _ => rfl) fun _ => rfl)
  unfold Kernel.osqPost
  cases hlist : k.tasks.pendList q with
  | nil =>
      simp only [seqStore, MsgSeqs.put, Option.bind_eq_bind, Option.bind_some]
      by_cases hfull : (k.store.entries q).length ≥ k.store.size q
      · simp only [if_pos hfull]
        exact ⟨_, rfl, hrefused .wouldOvf⟩
      · simp only [if_neg hfull]
        by_cases hnone : k.store.nbrFree = 0
        · simp only [if_pos hnone]
          exact ⟨_, rfl, hrefused .noMoreRsrc⟩
        · simp only [if_neg hnone]
          refine ⟨_, rfl, h.of_entries (h.listed.record _) (h.lawful.put hfifo hlist v) ?_⟩
          rw [h.size_eq] at hfull
          cases opt <;> simp [MsgSeqs.putEntry] <;> omega
  | cons t ts =>
      have hempty : k.store.entries q = [] := h.lawful.idle q (by simp [hlist])
      have hts : ∀ u ∈ t :: ts, ∀ q', k.tasks.task u = .pend q' → q' = q := by
        intro u hu q' hpend
        rw [← hlist, h.listed.waiting, hpend] at hu
        exact TaskState.pend.inj hu
      cases all with
      | true =>
          obtain ⟨listed, lawful⟩ := foldl_osPost h.listed h.lawful hempty v (t :: ts) hts
          exact ⟨_, rfl, h.of_tasks listed lawful⟩
      | false =>
          exact ⟨_, rfl, h.of_tasks (h.listed.osPost q v t)
            (h.lawful.osPost hempty v (hts t List.mem_cons_self))⟩

theorem osqPend (h : k.Inv prio sizes fifo) (q : κ) (ht : k.tasks.task t = .rdy)
    (nonBlocking locked : Bool) :
    ∃ k', k.osqPend seqStore prio q t nonBlocking locked = some k' ∧
      k'.Inv prio sizes fifo := by
  unfold Kernel.osqPend
  simp only [seqStore, MsgSeqs.get, Option.bind_eq_bind, Option.bind_some]
  cases hentries : k.store.entries q with
  | cons v vs =>
      refine ⟨_, rfl, h.of_entries (h.listed.record _) (h.lawful.get hentries ht) ?_⟩
      have hlen := h.bounded q
      rw [hentries, List.length_cons] at hlen
      omega
  | nil =>
      have hother : ∀ r : PendResult α, (TaskState.woken r : TaskState κ α).message = [] →
          (⟨k.store, k.tasks.record [.returned t r]⟩ : Kernel _ κ τ α).Inv prio sizes fifo := by
        intro r hr
        apply h.of_tasks (h.listed.record _)
        apply h.lawful.record_other
        · exact fun _ => rfl
        · exact fun _ => rfl
        · exact fun _ => rfl
        · intro u
          cases r with
          | msg v => cases hr
          | wouldBlock => rfl
          | schedLocked => rfl
          | abort => rfl
          | timeout => rfl
      cases nonBlocking with
      | true => exact ⟨_, rfl, hother .wouldBlock rfl⟩
      | false =>
          cases locked with
          | true => exact ⟨_, rfl, hother .schedLocked rfl⟩
          | false =>
              exact ⟨_, rfl, h.of_tasks (h.listed.osPend ht q) (h.lawful.osPend prio hentries ht)⟩

theorem osqPendReturn (h : k.Inv prio sizes fifo) {r : PendResult α}
    (ht : k.tasks.task t = .woken r) :
    ∃ k', k.osqPendReturn t = some k' ∧ k'.Inv prio sizes fifo := by
  have hlisted : ({ k.tasks with task := Function.update k.tasks.task t .rdy } :
      Tasks κ τ α).Listed prio := by
    constructor
    · intro q u
      by_cases hu : u = t
      · subst hu
        simp only [Function.update_self]
        rw [h.listed.waiting, ht]
        simp
      · simp only [Function.update_of_ne hu]
        exact h.listed.waiting q u
    · exact h.listed.nodup
    · exact h.listed.sorted
  unfold Kernel.osqPendReturn
  simp only [ht]
  exact ⟨_, rfl, h.of_tasks (hlisted.record _) (h.lawful.pendReturn ht)⟩

theorem osqPendAbort (h : k.Inv prio sizes fifo) (q : κ) (all : Bool) :
    (k.osqPendAbort q all).Inv prio sizes fifo := by
  unfold Kernel.osqPendAbort
  cases k.tasks.pendList q with
  | nil => exact h
  | cons t ts =>
      cases all with
      | true =>
          obtain ⟨listed, lawful⟩ := foldl_abort h.listed h.lawful (t :: ts)
          exact h.of_tasks listed lawful
      | false => exact h.of_tasks (h.listed.wake t _) (h.lawful.wake t rfl)

/-- Every call that can be made keeps the invariant. -/
theorem step (h : k.Inv prio sizes fifo) {e : QCall κ τ α} (he : e.Keeps fifo k) :
    ∃ k', (osqMachine seqStore prio).step k e = some k' ∧ k'.Inv prio sizes fifo := by
  cases e with
  | post q v opt all => exact h.osqPost q v all fun hq => he.2 q hq rfl
  | pend q t nonBlocking locked => exact h.osqPend q he.1 nonBlocking locked
  | pendReturn t =>
      obtain ⟨r, ht⟩ := he.1
      exact h.osqPendReturn ht
  | flush q =>
      exact ⟨_, rfl, h.of_entries h.listed (h.lawful.flush fun hq => he.2 q hq rfl) (by simp)⟩
  | pendAbort q all => exact ⟨_, rfl, h.osqPendAbort q all⟩
  | timeout t => exact ⟨_, rfl, h.of_tasks (h.listed.wake t _) (h.lawful.wake t rfl)⟩

end Kernel.Inv

/-! ### Runs on the memory -/

namespace MsgQueues

/-- The elements of the pool, at `none`, and of each queue, followed from the first -/
def elements (s : MsgQueues κ α) : Option κ → List MsgPtr
  | none => walk s.mem.next s.mem.pool.nbrFree s.mem.pool.nextPtr
  | some q => walk s.mem.next (s.msgQ q).nbrEntries (s.msgQ q).outPtr

/-- The messages in a queue, in the order in which they come out -/
def contents (s : MsgQueues κ α) (q : κ) : List (Msg α) :=
  (s.elements (some q)).map fun p => (s.mem.msg p).msg

/-- The pool of `size` elements and queues of the given sizes -/
def boot (sizes : κ → Nat) (size : Nat) (m : MsgMem α) : MsgQueues κ α :=
  ⟨m.osMsgPoolInit size, fun q => osMsgQInit (sizes q)⟩

end MsgQueues

omit [DecidableEq κ] in
theorem MsgRep.elements_eq {size : Nat} {s : MsgQueues κ α} {w : MsgSeqs κ α}
    {nodes : Option κ → List MsgPtr} (h : MsgRep size s.mem s.msgQ w nodes) :
    s.elements = nodes := by
  funext c
  cases c with
  | none =>
      rw [MsgQueues.elements, h.nbrFree]
      exact (h.chains.chain none).walk_length
  | some q =>
      rw [MsgQueues.elements, h.nbrEntries]
      exact (h.chains.chain (some q)).walk_length

omit [DecidableEq κ] in
theorem MsgRep.contents_eq {size : Nat} {s : MsgQueues κ α} {w : MsgSeqs κ α}
    {nodes : Option κ → List MsgPtr} (h : MsgRep size s.mem s.msgQ w nodes) (q : κ) :
    s.contents q = w.entries q := by
  rw [MsgQueues.contents, h.elements_eq, h.entries]

namespace Kernel

/-- Before any call: empty queues, and no task waits -/
def boot (store : σ) : Kernel σ κ τ α := ⟨store, fun _ => [], fun _ => .rdy, []⟩

/-- The memory stands for the sequences, with the same tasks. -/
def Rep (size : Nat) (k : Kernel (MsgQueues κ α) κ τ α) (a : Kernel (MsgSeqs κ α) κ τ α) : Prop :=
  k.tasks = a.tasks ∧ ∃ nodes, MsgRep size k.store.mem k.store.msgQ a.store nodes

/-- What a store does: a result and a store that again stands for the sequences. -/
private theorem Rep.call {size : Nat} {β : Type}
    {f : OsMsgQ → MsgMem α → Option (β × OsMsgQ × MsgMem α)} {s : MsgQueues κ α} {q : κ}
    {r : β} {w : MsgSeqs κ α}
    (h : ∃ mq m' nodes', f (s.msgQ q) s.mem = some (r, mq, m') ∧
      MsgRep size m' (Function.update s.msgQ q mq) w nodes') :
    ∃ s' nodes', s.call f q = some (r, s') ∧ MsgRep size s'.mem s'.msgQ w nodes' := by
  obtain ⟨mq, m', nodes', hf, hrep⟩ := h
  exact ⟨⟨m', Function.update s.msgQ q mq⟩, nodes', by simp [MsgQueues.call, hf], hrep⟩

variable {prio : τ → Nat} {size : Nat} {k : Kernel (MsgQueues κ α) κ τ α}
  {a a' : Kernel (MsgSeqs κ α) κ τ α} {e : QCall κ τ α}

/-- Every call on the memory does what it does on the sequences. -/
theorem Rep.step (h : Rep size k a) (hstep : (osqMachine seqStore prio).step a e = some a') :
    ∃ k', (osqMachine msgStore prio).step k e = some k' ∧ Rep size k' a' := by
  obtain ⟨htasks, nodes, hrep⟩ := h
  cases e with
  | post q v opt all =>
      simp only [osqMachine, osqPost] at hstep ⊢
      rw [htasks]
      cases hlist : a.tasks.pendList q with
      | nil =>
          simp only [hlist] at hstep ⊢
          obtain ⟨s', nodes', hcall, hrep'⟩ :=
            Rep.call (f := fun mq m => m.osMsgQPut opt v mq) (hrep.osMsgQPut opt v q)
          simp only [seqStore, msgStore, hcall, Option.bind_eq_bind, Option.bind_some] at hstep ⊢
          cases hr : (a.store.put opt v q).1 with
          | ok u =>
              simp only [hr, Option.some.injEq] at hstep ⊢
              subst hstep
              exact ⟨_, rfl, rfl, nodes', hrep'⟩
          | error err =>
              simp only [hr, Option.some.injEq] at hstep ⊢
              subst hstep
              exact ⟨_, rfl, rfl, nodes', hrep'⟩
      | cons t ts =>
          simp only [hlist] at hstep ⊢
          cases all with
          | true =>
              simp only [if_true, Option.some.injEq] at hstep ⊢
              subst hstep
              exact ⟨_, rfl, rfl, nodes, hrep⟩
          | false =>
              simp only [Bool.false_eq_true, if_false, Option.some.injEq] at hstep ⊢
              subst hstep
              exact ⟨_, rfl, rfl, nodes, hrep⟩
  | pend q t nonBlocking locked =>
      simp only [osqMachine, osqPend] at hstep ⊢
      obtain ⟨s', nodes', hcall, hrep'⟩ :=
        Rep.call (f := fun mq m => m.osMsgQGet mq) (hrep.osMsgQGet q)
      simp only [seqStore, msgStore, hcall, Option.bind_eq_bind, Option.bind_some] at hstep ⊢
      rw [htasks]
      cases hr : (a.store.get q).1 with
      | some v =>
          simp only [hr, Option.some.injEq] at hstep ⊢
          subst hstep
          exact ⟨_, rfl, rfl, nodes', hrep'⟩
      | none =>
          simp only [hr] at hstep ⊢
          cases nonBlocking with
          | true =>
              simp only [if_true, Option.some.injEq] at hstep ⊢
              subst hstep
              exact ⟨_, rfl, rfl, nodes', hrep'⟩
          | false =>
              cases locked with
              | true =>
                  simp only [Bool.false_eq_true, if_false, if_true, Option.some.injEq] at hstep ⊢
                  subst hstep
                  exact ⟨_, rfl, rfl, nodes', hrep'⟩
              | false =>
                  simp only [Bool.false_eq_true, if_false, Option.some.injEq] at hstep ⊢
                  subst hstep
                  exact ⟨_, rfl, rfl, nodes', hrep'⟩
  | pendReturn t =>
      simp only [osqMachine, osqPendReturn] at hstep ⊢
      rw [htasks]
      cases ht : a.tasks.task t with
      | rdy => simp only [ht, reduceCtorEq] at hstep
      | pend q => simp only [ht, reduceCtorEq] at hstep
      | woken r =>
          simp only [ht, Option.some.injEq] at hstep ⊢
          subst hstep
          exact ⟨_, rfl, rfl, nodes, hrep⟩
  | flush q =>
      simp only [osqMachine, osqFlush] at hstep ⊢
      obtain ⟨s', nodes', hcall, hrep'⟩ :=
        Rep.call (f := fun mq m => m.osMsgQFreeAll mq) (hrep.osMsgQFreeAll q)
      simp only [seqStore, msgStore, hcall, Option.bind_eq_bind, Option.bind_some,
        Option.some.injEq] at hstep ⊢
      subst hstep
      exact ⟨_, rfl, htasks, nodes', hrep'⟩
  | pendAbort q all =>
      simp only [osqMachine, osqPendAbort, Option.some.injEq] at hstep ⊢
      rw [htasks]
      subst hstep
      refine ⟨_, rfl, ?_⟩
      cases a.tasks.pendList q with
      | nil => exact ⟨htasks, nodes, hrep⟩
      | cons t ts =>
          cases all with
          | true => exact ⟨rfl, nodes, hrep⟩
          | false => exact ⟨rfl, nodes, hrep⟩
  | timeout t =>
      simp only [osqMachine, Option.some.injEq] at hstep ⊢
      subst hstep
      exact ⟨_, rfl, congrArg (Tasks.wake t .timeout) htasks, nodes, hrep⟩

end Kernel

section Run

variable {prio : τ → Nat} {fifo : κ → Prop}

theorem Kernel.Inv.boot (prio : τ → Nat) (sizes : κ → Nat) (fifo : κ → Prop) (size : Nat) :
    (Kernel.boot (MsgSeqs.empty sizes size) : Kernel (MsgSeqs κ α) κ τ α).Inv prio sizes
      fifo := by
  constructor
  · constructor
    · intro q t
      simp [Kernel.boot]
    · intro q
      exact List.nodup_nil
    · intro q
      exact List.Pairwise.nil
  · constructor
    · intro q hne
      rfl
    · intro q
      exact List.Subperm.refl _
    · intro q hq
      rfl
    · intro t
      rfl
  · rfl
  · intro q
    exact Nat.zero_le _

/-- A run on the memory and what it stands for. -/
theorem Kernel.run_rep (sizes : κ → Nat) (size : Nat) (m : MsgMem α) {es : List (QCall κ τ α)}
    (guarded : (osqMachine msgStore prio).Guarded (QCall.Keeps fifo)
      (Kernel.boot (MsgQueues.boot sizes size m)) es) :
    ∃ k a, (osqMachine msgStore prio).run (Kernel.boot (MsgQueues.boot sizes size m)) es = some k ∧
      Kernel.Rep size k a ∧ Kernel.Inv prio sizes fifo a := by
  have guard : ∀ (k : Kernel (MsgQueues κ α) κ τ α) (a : Kernel (MsgSeqs κ α) κ τ α) e,
      Kernel.Rep size k a → Kernel.Inv prio sizes fifo a → QCall.Keeps fifo k e →
      QCall.Keeps fifo a e := by
    rintro k a e ⟨htasks, -⟩ - ⟨hpossible, hfifo⟩
    refine ⟨?_, hfifo⟩
    cases e with
    | pend q t nonBlocking locked =>
        simp only [QCall.Possible] at hpossible ⊢
        rwa [← htasks]
    | pendReturn t =>
        simp only [QCall.Possible] at hpossible ⊢
        rwa [← htasks]
    | _ => trivial
  have rel : Kernel.Rep size (Kernel.boot (MsgQueues.boot sizes size m) : Kernel _ κ τ α)
      (Kernel.boot (MsgSeqs.empty sizes size)) :=
    ⟨rfl, poolNodes size, MsgRep.boot sizes size m⟩
  exact Machine.run_refines guard (fun a e hinv hkeeps => hinv.step hkeeps)
    (fun k a e a' hrep hstep => hrep.step hstep) rel (Kernel.Inv.boot prio sizes fifo size) guarded

/-- **Message queues.** However tasks post, pend, flush and abort, and whatever
times out, no null pointer is followed; a task waits on an empty queue only, and
in the order of priorities; what the tasks got and what is in a queue was posted
to it, each message once; and where all posts are first in, first out, the
messages came out in the order in which they were accepted. -/
theorem kernel_queue_fifo (sizes : κ → Nat) (size : Nat) (m : MsgMem α)
    (es : List (QCall κ τ α))
    (guarded : (osqMachine msgStore prio).Guarded (QCall.Keeps fifo)
      (Kernel.boot (MsgQueues.boot sizes size m)) es) :
    ∃ k, (osqMachine msgStore prio).run (Kernel.boot (MsgQueues.boot sizes size m)) es = some k ∧
      (∀ q, k.tasks.pendList q ≠ [] → k.store.contents q = []) ∧
      (∀ q, (k.tasks.pendList q).Pairwise fun t u => prio t ≤ prio u) ∧
      (∀ q, (QObs.taken q k.tasks.log ++ k.store.contents q).Subperm
        (QObs.accepted q k.tasks.log)) ∧
      (∀ q, fifo q →
        QObs.accepted q k.tasks.log = QObs.taken q k.tasks.log ++ k.store.contents q) ∧
      ∀ t, QObs.takenBy t k.tasks.log =
        QObs.returnedTo t k.tasks.log ++ (k.tasks.task t).message := by
  obtain ⟨k, a, hrun, ⟨htasks, nodes, hrep⟩, hinv⟩ := Kernel.run_rep sizes size m guarded
  refine ⟨k, hrun, ?_⟩
  simp only [htasks, hrep.contents_eq]
  exact ⟨hinv.lawful.idle, hinv.listed.sorted, hinv.lawful.once, hinv.lawful.inOrder,
    hinv.lawful.handed⟩

/-- Two queues and two tasks: a full pool, a task that waits, a message for it. -/
def kernelCalls : List (QCall Bool Bool Nat) :=
  [.post false ⟨some 1, 4⟩ .fifo false, .post false ⟨some 2, 4⟩ .fifo false,
    .post true ⟨some 3, 4⟩ .fifo false, .pend false false false false,
    .pend true true false false, .post true ⟨some 5, 4⟩ .fifo true, .pendReturn true]

theorem kernel_queue_fifo_two :
    ∃ k, (osqMachine msgStore fun _ : Bool => 0).run
        (Kernel.boot (MsgQueues.boot (fun _ => 2) 2 ⟨fun _ => ⟨none, none, 0⟩, ⟨none, 0, 0⟩⟩))
        kernelCalls = some k ∧
      (∀ q, k.tasks.pendList q ≠ [] → k.store.contents q = []) ∧
      (∀ q, (k.tasks.pendList q).Pairwise fun _ _ => (0 : Nat) ≤ 0) ∧
      (∀ q, (QObs.taken q k.tasks.log ++ k.store.contents q).Subperm
        (QObs.accepted q k.tasks.log)) ∧
      (∀ q, True →
        QObs.accepted q k.tasks.log = QObs.taken q k.tasks.log ++ k.store.contents q) ∧
      ∀ t, QObs.takenBy t k.tasks.log =
        QObs.returnedTo t k.tasks.log ++ (k.tasks.task t).message :=
  kernel_queue_fifo _ 2 _ kernelCalls (by decide +kernel)

/-- **Message pool.** In every run each `OS_MSG` is on exactly one chain, of the
pool or of one queue, and once; `NbrFree` is the length of the pool's chain,
`NbrUsed` that of the others; and no queue exceeds its size. -/
theorem kernel_pool_conserved [Fintype κ] (sizes : κ → Nat) (size : Nat) (m : MsgMem α)
    (es : List (QCall κ τ α))
    (guarded : (osqMachine msgStore prio).Guarded (fun k e => e.Possible k)
      (Kernel.boot (MsgQueues.boot sizes size m)) es) :
    ∃ k, (osqMachine msgStore prio).run (Kernel.boot (MsgQueues.boot sizes size m)) es = some k ∧
      (∀ p, p < size → ∃! c, p ∈ k.store.elements c) ∧ (∀ c, (k.store.elements c).Nodup) ∧
      k.store.mem.pool.nbrFree = (k.store.elements none).length ∧
      k.store.mem.pool.nbrUsed = ∑ q, (k.store.contents q).length ∧
      ∀ q, (k.store.contents q).length ≤ sizes q := by
  have keeps : (osqMachine msgStore prio).Guarded (QCall.Keeps fun _ => False)
      (Kernel.boot (MsgQueues.boot sizes size m)) es :=
    guarded.imp fun k e he => ⟨he, fun q hq => hq.elim⟩
  obtain ⟨k, a, hrun, ⟨htasks, nodes, hrep⟩, hinv⟩ := Kernel.run_rep sizes size m keeps
  refine ⟨k, hrun, ?_⟩
  simp only [hrep.elements_eq, hrep.contents_eq]
  refine ⟨?_, hrep.chains.nodup, hrep.nbrFree, hrep.nbrUsed_eq_sum, hinv.bounded⟩
  intro p hp
  obtain ⟨c, hc⟩ := (hrep.members p).mp hp
  exact ⟨c, hc, fun d hd => hrep.chains.disjoint d c p hd hc⟩

theorem kernel_pool_conserved_two :
    ∃ k, (osqMachine msgStore fun _ : Bool => 0).run
        (Kernel.boot (MsgQueues.boot (fun _ => 2) 2 ⟨fun _ => ⟨none, none, 0⟩, ⟨none, 0, 0⟩⟩))
        kernelCalls = some k ∧
      (∀ p, p < 2 → ∃! c, p ∈ k.store.elements c) ∧ (∀ c, (k.store.elements c).Nodup) ∧
      k.store.mem.pool.nbrFree = (k.store.elements none).length ∧
      k.store.mem.pool.nbrUsed = ∑ q, (k.store.contents q).length ∧
      ∀ q, (k.store.contents q).length ≤ 2 :=
  kernel_pool_conserved _ 2 _ kernelCalls (by decide +kernel)

end Run

end WifiExpander
