import WifiExpander.Creation
import WifiExpander.Theory.History
import WifiExpander.Theory.Machine

/-!
A buffer factory in use: `buf_factory_produce` and `buf_factory_recycle` of
`app/buf_factory.c` over any number of buffers.

The two functions are stated for arbitrary addresses, so that the send path's
factory and the ones of `create_buf_factory` are instances. What is outstanding and
what has been free for how long is read off the history of the calls; the free list
in memory is proved to follow it.
-/

namespace WifiExpander

open WifiExpander.Theory

/-! ### The functions over any addresses -/

section

variable {α ω β : Type} [DecidableEq α]

/-- `buf_factory_produce`, for a factory whose list is at `list`; `buffer` tells which
`struct Buffer` an owner pointer points to. -/
def produceFrom (list : α) (buffer : ω → Option β) (h : ListHeap α ω) :
    Option (Option β × ListHeap α ω) :=
  if listEmpty h list then some (none, h)
  else do
    let nodeOfBuf ← (h list).next
    let buf ← (h nodeOfBuf).owner.bind buffer
    let h ← listDel h nodeOfBuf
    some (some buf, h)

/-- `buf_factory_recycle` of a buffer with this `node` -/
def recycleTo (list node : α) (h : ListHeap α ω) : Option (ListHeap α ω) :=
  listAddTail h node list

variable {list : α} {buffer : ω → Option β} {h : ListHeap α ω}

/-- An empty list yields NULL. -/
theorem produceFrom_nil (hlist : IsList h list []) :
    produceFrom list buffer h = some (none, h) := by
  rw [produceFrom, if_pos (hlist.listEmpty_iff.mpr rfl)]

/-- Otherwise the owner of the first node is handed out. -/
theorem produceFrom_cons (node : β → α) {b : β} {free : List β}
    (hlist : IsList h list ((b :: free).map node))
    (howner : (h (node b)).owner.bind buffer = some b) :
    ∃ h', produceFrom list buffer h = some (some b, h') ∧ IsList h' list (free.map node) ∧
      ∀ a, (h' a).owner = (h a).owner := by
  have hempty : ¬ listEmpty h list = true := by
    intro hn
    have := hlist.listEmpty_iff.mp hn
    cases this
  have hnext : (h list).next = some (node b) := by
    simpa using IsRing.next_head hlist
  have hfirst : IsList h list ([] ++ node b :: free.map node) := hlist
  obtain ⟨h', hdel, hrest, -, -, howner', -⟩ := hfirst.listDel
  refine ⟨h', ?_, hrest, howner'⟩
  rw [produceFrom, if_neg hempty]
  simp [hnext, howner, hdel]

end

/-- The send path's factory is an instance. -/
theorem bufFactoryProduce_eq (h : Heap) :
    bufFactoryProduce h =
      produceFrom .factoryList (fun o => match o with
        | .buffer b => some b
        | _ => none) h := by
  unfold bufFactoryProduce produceFrom
  split
  · rfl
  · cases hnext : (h .factoryList).next with
    | none => rfl
    | some a =>
        simp only [Option.bind_eq_bind, Option.bind_some]
        cases howner : (h a).owner with
        | none => rfl
        | some o => cases o <;> rfl

theorem bufFactoryRecycle_eq (h : Heap) (b : BufId) :
    bufFactoryRecycle h b = recycleTo .factoryList (.node b) h := rfl

namespace BufPool

/-! ### Calls and their history -/

inductive PoolCall where
  | produce
  | recycle (buf : Nat)
deriving DecidableEq

/-- A call that has returned; `none` is NULL. -/
inductive PoolObs where
  | produced (buf : Option Nat)
  | recycled (buf : Nat)
deriving DecidableEq

/-- A factory in use. -/
structure PoolState where
  mem : FactoryMem
  hist : List PoolObs

/-- The buffers that are outstanding after these calls. -/
def outstanding (hist : List PoolObs) : List Nat :=
  hist.foldl (fun out o =>
    match o with
    | .produced (some b) => out ++ [b]
    | .produced none => out
    | .recycled b => out.erase b) []

/-- The buffers that are free after these calls, the one that has been free longest
first; at first all of them are, in the order of the array. -/
def waiting (num : Nat) (hist : List PoolObs) : List Nat :=
  hist.foldl (fun free o =>
    match o with
    | .produced (some b) => free.erase b
    | .produced none => free
    | .recycled b => free ++ [b]) (List.range num)

/-- `struct Buffer` behind an owner pointer -/
def PoolPtr.buffer? : PoolPtr → Option Nat
  | .buffer i => some i
  | .list => none

def poolStep (s : PoolState) : PoolCall → Option PoolState
  | .produce => do
      let (buf, heap) ← produceFrom .list PoolPtr.buffer? s.mem.heap
      some ⟨{ s.mem with heap }, s.hist ++ [.produced buf]⟩
  | .recycle buf => do
      let node ← (s.mem.bufArray buf).node
      let heap ← recycleTo .list (.node node) s.mem.heap
      some ⟨{ s.mem with heap }, s.hist ++ [.recycled buf]⟩

def pool : Machine PoolState PoolCall := ⟨poolStep⟩

/-- Only outstanding buffers are recycled. -/
def Returns (s : PoolState) : PoolCall → Prop
  | .produce => True
  | .recycle buf => buf ∈ outstanding s.hist

instance : ∀ (s : PoolState) (c : PoolCall), Decidable (Returns s c)
  | _, .produce => isTrue trivial
  | s, .recycle buf => inferInstanceAs (Decidable (buf ∈ outstanding s.hist))

/-- A call of `buf_factory_produce` returned NULL if nothing was free, and otherwise
what had been free longest. -/
def Served (num : Nat) (before : List PoolObs) (o : PoolObs) : Prop :=
  ∀ r, o = .produced r →
    (r = none ↔ ∀ b < num, b ∈ outstanding before) ∧
      ∀ b, r = some b → b ∉ outstanding before ∧ (waiting num before).head? = some b

/-- What holds of a factory of `num` buffers created as `m` after the calls `s.hist`. -/
structure Contract (num : Nat) (m : FactoryMem) (node : Nat → Block) (s : PoolState) : Prop where
  /-- free and outstanding buffers are the created ones, each once -/
  conserved : (waiting num s.hist ++ outstanding s.hist).Perm (List.range num)
  /-- the factory's list holds the free ones -/
  list : IsList s.mem.heap .list ((waiting num s.hist).map fun b => .node (node b))
  served : Past (Served num) s.hist
  /-- no buffer has lost its memory or its node -/
  kept : s.mem.bufArray = m.bufArray
  owner : ∀ b < num, (s.mem.heap (.node (node b))).owner = some (.buffer b)

/-! ### One call -/

@[simp] theorem outstanding_produced (hist : List PoolObs) (b : Nat) :
    outstanding (hist ++ [.produced (some b)]) = outstanding hist ++ [b] := by
  simp [outstanding]

@[simp] theorem outstanding_null (hist : List PoolObs) :
    outstanding (hist ++ [.produced none]) = outstanding hist := by
  simp [outstanding]

@[simp] theorem outstanding_recycled (hist : List PoolObs) (b : Nat) :
    outstanding (hist ++ [.recycled b]) = (outstanding hist).erase b := by
  simp [outstanding]

@[simp] theorem waiting_produced (num : Nat) (hist : List PoolObs) (b : Nat) :
    waiting num (hist ++ [.produced (some b)]) = (waiting num hist).erase b := by
  simp [waiting]

@[simp] theorem waiting_null (num : Nat) (hist : List PoolObs) :
    waiting num (hist ++ [.produced none]) = waiting num hist := by
  simp [waiting]

@[simp] theorem waiting_recycled (num : Nat) (hist : List PoolObs) (b : Nat) :
    waiting num (hist ++ [.recycled b]) = waiting num hist ++ [b] := by
  simp [waiting]

namespace Contract

variable {num : Nat} {m : FactoryMem} {mem node : Nat → Block} {s : PoolState}

theorem nodup (h : Contract num m node s) : (waiting num s.hist ++ outstanding s.hist).Nodup :=
  h.conserved.nodup_iff.mpr List.nodup_range

theorem lt_iff (h : Contract num m node s) (b : Nat) :
    b < num ↔ b ∈ waiting num s.hist ∨ b ∈ outstanding s.hist := by
  rw [← List.mem_append, h.conserved.mem_iff, List.mem_range]

/-- Nothing is free. -/
theorem produce_null (h : Contract num m node s) (hwait : waiting num s.hist = []) :
    ∃ s', poolStep s .produce = some s' ∧ Contract num m node s' := by
  have hlist := h.list
  rw [hwait] at hlist
  refine ⟨⟨s.mem, s.hist ++ [.produced none]⟩, ?_, ?_⟩
  · simp [poolStep, produceFrom_nil hlist]
  · constructor
    · simpa using h.conserved
    · simpa using h.list
    · apply h.served.concat
      intro r hr
      cases hr
      constructor
      · constructor
        · intro _ b hb
          have hmem := (h.lt_iff b).mp hb
          rw [hwait] at hmem
          simpa using hmem
        · intro _
          rfl
      · intro b hb
        cases hb
    · exact h.kept
    · exact h.owner

/-- The buffer that has been free longest is handed out. -/
theorem produce_first (h : Contract num m node s) {b : Nat} {free : List Nat}
    (hwait : waiting num s.hist = b :: free) :
    ∃ s', poolStep s .produce = some s' ∧ Contract num m node s' := by
  have hlist := h.list
  have hnodup := h.nodup
  have hconserved := h.conserved
  rw [hwait] at hlist hnodup hconserved
  have hlt : b < num := (h.lt_iff b).mpr (.inl (by rw [hwait]; exact List.mem_cons_self))
  have hnot : b ∉ outstanding s.hist := by
    intro hout
    exact (List.nodup_cons.mp hnodup).1 (List.mem_append_right free hout)
  have howner : (s.mem.heap (.node (node b))).owner.bind PoolPtr.buffer? = some b := by
    rw [h.owner b hlt]
    rfl
  obtain ⟨heap, hproduce, hrest, hsame⟩ :=
    produceFrom_cons (fun b => PoolAddr.node (node b)) hlist howner
  refine ⟨⟨{ s.mem with heap }, s.hist ++ [.produced (some b)]⟩, ?_, ?_⟩
  · simp [poolStep, hproduce]
  · constructor
    · rw [outstanding_produced, waiting_produced, hwait, List.erase_cons_head, ← List.append_assoc]
      exact (List.perm_append_singleton b (free ++ outstanding s.hist)).trans hconserved
    · rw [waiting_produced, hwait, List.erase_cons_head]
      exact hrest
    · apply h.served.concat
      intro r hr
      cases hr
      constructor
      · constructor
        · intro hnone
          cases hnone
        · intro hall
          exact absurd (hall b hlt) hnot
      · intro c hc
        cases hc
        rw [hwait]
        exact ⟨hnot, rfl⟩
    · exact h.kept
    · intro c hc
      rw [hsame]
      exact h.owner c hc

/-- An outstanding buffer goes to the end of the list. -/
theorem recycle (h : Contract num m node s) (created : Created num m mem node) {b : Nat}
    (hout : b ∈ outstanding s.hist) :
    ∃ s', poolStep s (.recycle b) = some s' ∧ Contract num m node s' := by
  have hlt : b < num := (h.lt_iff b).mpr (.inr hout)
  have hnode : (s.mem.bufArray b).node = some (node b) := by
    rw [h.kept, created.buffer b hlt]
  have hinj : ∀ c < num, node c = node b → c = b := by
    intro c hc heq
    have hnodes := (List.nodup_append.mp created.own).2.1
    exact List.inj_on_of_nodup_map hnodes (List.mem_range.mpr hc) (List.mem_range.mpr hlt) heq
  have hfresh : PoolAddr.node (node b) ∉
      PoolAddr.list :: (waiting num s.hist).map fun b => .node (node b) := by
    rw [List.mem_cons, not_or, List.mem_map]
    refine ⟨by simp, ?_⟩
    rintro ⟨c, hc, heq⟩
    obtain rfl := hinj c ((h.lt_iff c).mpr (.inl hc)) (PoolAddr.node.inj heq)
    exact (List.nodup_append.mp h.nodup).2.2 c hc c hout rfl
  obtain ⟨heap, hadd, hlist, hsame, -⟩ := h.list.listAddTail hfresh
  refine ⟨⟨{ s.mem with heap }, s.hist ++ [.recycled b]⟩, ?_, ?_⟩
  · simp [poolStep, hnode, recycleTo, hadd]
  · constructor
    · rw [outstanding_recycled, waiting_recycled, List.append_assoc]
      refine (List.Perm.append_left _ ?_).trans h.conserved
      exact (List.perm_cons_erase hout).symm
    · rw [waiting_recycled, List.map_append]
      exact hlist
    · apply h.served.concat
      intro r hr
      cases hr
    · exact h.kept
    · intro c hc
      rw [hsame]
      exact h.owner c hc

theorem step (h : Contract num m node s) (created : Created num m mem node) {c : PoolCall}
    (hok : Returns s c) : ∃ s', pool.step s c = some s' ∧ Contract num m node s' := by
  cases c with
  | produce =>
      cases hwait : waiting num s.hist with
      | nil => exact h.produce_null hwait
      | cons b free => exact h.produce_first hwait
  | recycle b => exact h.recycle created hok

end Contract

/-! ### All runs -/

/-- A factory that was created. -/
theorem created_of_createBufFactory {grants : Grants} {num size : Nat} {p f : Option Block}
    {h : ListHeap PoolAddr PoolPtr} {m : FactoryMem}
    (hcreate : createBufFactory grants num size p (.start h) = some (0, f, m)) :
    Created num m memoryBlock nodeBlock := by
  cases hfirst : firstRefused grants num size with
  | none =>
      obtain ⟨m', hcreate', hfilled⟩ :=
        createBufFactory_granted (p := p) (h := h) (firstRefused_eq_none.mp hfirst)
      rw [hcreate] at hcreate'
      cases hcreate'
      exact hfilled.created
  | some r =>
      obtain ⟨m', hcreate', -⟩ := createBufFactory_refused (p := p) (h := h) hfirst
      rw [hcreate] at hcreate'
      cases hcreate'

theorem Created.contract {num : Nat} {m : FactoryMem} {mem node : Nat → Block}
    (created : Created num m mem node) : Contract num m node ⟨m, []⟩ := by
  constructor
  · simp [waiting, outstanding]
  · exact created.list
  · intro pre o post heq
    simp at heq
  · rfl
  · exact created.owner

/-- The contract of a created factory, over every sequence of calls that recycles
only outstanding buffers. -/
theorem pool_contract {grants : Grants} {num size : Nat} {p f : Option Block}
    {h : ListHeap PoolAddr PoolPtr} {m : FactoryMem} {calls : List PoolCall}
    (hcreate : createBufFactory grants num size p (.start h) = some (0, f, m))
    (guarded : pool.Guarded Returns ⟨m, []⟩ calls) :
    ∃ s mem node, pool.run ⟨m, []⟩ calls = some s ∧ Created num m mem node ∧
      Contract num m node s := by
  have created := created_of_createBufFactory hcreate
  obtain ⟨s, hrun, hcontract⟩ := Machine.run_progress (Contract num m nodeBlock)
    (fun s c hs hok => hs.step created hok) created.contract guarded
  exact ⟨s, memoryBlock, nodeBlock, hrun, created, hcontract⟩

def grantAll : Grants := fun _ _ => true

/-- Memory in which nothing points anywhere. -/
def blankMem : FactoryMem := .start fun _ => ⟨none, none, none⟩

/-- A factory of two buffers. -/
def twoBuffers : FactoryMem :=
  match createBufFactory grantAll 2 16 none blankMem with
  | some (_, _, m) => m
  | none => blankMem

theorem twoBuffers_created :
    createBufFactory grantAll 2 16 none blankMem = some (0, some 0, twoBuffers) := by
  have hgranted : ∀ k < 2 * 2 + 2, grantAll k (request 2 16 k) = true := fun _ _ => rfl
  obtain ⟨m, hcreate, -⟩ :=
    createBufFactory_granted (p := none) (h := fun _ => ⟨none, none, none⟩) hgranted
  rw [twoBuffers, blankMem, hcreate]

/-- The pool is emptied and one buffer comes back. -/
theorem pool_contract_twoBuffers :
    ∃ s mem node,
      pool.run ⟨twoBuffers, []⟩ [.produce, .produce, .produce, .recycle 1, .produce] = some s ∧
        Created 2 twoBuffers mem node ∧ Contract 2 twoBuffers node s :=
  pool_contract twoBuffers_created (by decide +kernel)

end BufPool

end WifiExpander
