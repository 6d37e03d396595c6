import WifiExpander.BufFactory
import Mathlib.Data.List.Perm.Basic

/-!
`create_buf_factory` of `app/buf_factory.c` with its allocations.

The C heap may refuse any call of `malloc` and `calloc`. Each block is named after
the call that obtained it, so what was obtained and what was freed can be compared.
The loops that free the buffers made so far run over `j` and free what `i` selects:
a refusal after the first buffer leaks blocks and frees others repeatedly.
-/

namespace WifiExpander.BufPool

/-! ### The C heap -/

/-- A block of the C heap: the number of the call that obtained it. -/
abbrev Block := Nat

/-- What a call asks for. -/
inductive Request where
  /-- `sizeof(struct buffer_factory)` -/
  | factory
  /-- `calloc(num, sizeof(struct Buffer))` -/
  | bufArray (num : Nat)
  | memory (size : Nat)
  /-- `sizeof(struct list_head)` -/
  | node
deriving DecidableEq

/-- Which calls succeed. -/
abbrev Grants := Nat → Request → Bool

/-- How often the C heap was asked, what it handed out and what it was given back. -/
structure CHeap where
  calls : Nat
  obtained : List Block
  freed : List Block

def CHeap.malloc (c : CHeap) (grants : Grants) (r : Request) : Option Block × CHeap :=
  if grants c.calls r then
    (some c.calls, { c with calls := c.calls + 1, obtained := c.obtained ++ [c.calls] })
  else (none, { c with calls := c.calls + 1 })

/-- `free`, which does nothing for NULL -/
def CHeap.free (c : CHeap) (p : Option Block) : CHeap := { c with freed := c.freed ++ p.toList }

/-! ### The factory -/

/-- `struct Buffer` -/
structure Buffer where
  memory : Option Block
  node : Option Block

/-- The `list_head` objects of a factory. -/
inductive PoolAddr where
  /-- `buf_factory->list` -/
  | list
  | node (b : Block)
deriving DecidableEq

/-- What an `owner` field points to. -/
inductive PoolPtr where
  | list
  /-- `&buf_array[i]` -/
  | buffer (i : Nat)
deriving DecidableEq

/-- The memory that `create_buf_factory` works on. -/
structure FactoryMem where
  cheap : CHeap
  bufArray : Nat → Buffer
  heap : ListHeap PoolAddr PoolPtr

namespace FactoryMem

def free (m : FactoryMem) (p : Option Block) : FactoryMem := { m with cheap := m.cheap.free p }

/-- `free(buf_factory->buf_array[i].memory)`, as often as `j` runs -/
def freeMemory (i : Nat) : Nat → FactoryMem → FactoryMem
  | 0, m => m
  | j + 1, m => freeMemory i j (m.free (m.bufArray i).memory)

/-- `free(buf_factory->buf_array[i].node)`, as often as `j` runs -/
def freeNode (i : Nat) : Nat → FactoryMem → FactoryMem
  | 0, m => m
  | j + 1, m => freeNode i j (m.free (m.bufArray i).node)

/-- The list heads hold whatever memory held before. -/
def start (h : ListHeap PoolAddr PoolPtr) : FactoryMem :=
  ⟨⟨0, [], []⟩, fun _ => ⟨none, none⟩, h⟩

end FactoryMem

/-- The loop of `create_buf_factory` from buffer `i` on, with `n` buffers to go. The
result tells whether the loop was left at its end. -/
def createLoop (grants : Grants) (size : Nat) (bufFactory bufArray : Block) :
    Nat → Nat → FactoryMem → Option (Bool × FactoryMem)
  | 0, _, m => some (true, m)
  | n + 1, i, m =>
      let (memory, cheap) := m.cheap.malloc grants (.memory size)
      let m := { m with
        cheap
        bufArray := Function.update m.bufArray i { m.bufArray i with memory := memory } }
      match memory with
      | none =>
          let m := m.freeMemory i i
          some (false, (m.free (some bufArray)).free (some bufFactory))
      | some _ =>
          let (node, cheap) := m.cheap.malloc grants .node
          let m := { m with
            cheap
            bufArray := Function.update m.bufArray i { m.bufArray i with node := node } }
          match node with
          | none =>
              let m := m.freeNode i i
              let m := m.freeMemory i (i + 1)
              some (false, (m.free (some bufArray)).free (some bufFactory))
          | some node => do
              let h := m.heap.setOwner (.node node) (some (.buffer i))
              let heap ← listAddTail h (.node node) .list
              createLoop grants size bufFactory bufArray n (i + 1) { m with heap }

/-- `create_buf_factory(num, size, &p)`: the return value and what `p` is then. -/
def createBufFactory (grants : Grants) (num size : Nat) (p : Option Block) (m : FactoryMem) :
    Option (Int × Option Block × FactoryMem) :=
  let (bufFactory, cheap) := m.cheap.malloc grants .factory
  let m := { m with cheap }
  match bufFactory with
  | none => some (-1, p, m)
  | some bufFactory =>
      let m := { m with heap := initListHead m.heap .list .list }
      let (bufArray, cheap) := m.cheap.malloc grants (.bufArray num)
      let m := { m with cheap }
      match bufArray with
      | none => some (-1, p, m.free (some bufFactory))
      | some bufArray => do
          -- `calloc` clears the array
          let m := { m with bufArray := fun _ => ⟨none, none⟩ }
          let (done, m) ← createLoop grants size bufFactory bufArray num 0 m
          if done then some (0, some bufFactory, m) else some (-1, p, m)

/-! ### What is asked for -/

/-- The `k`-th call of a creation that is not cut short. -/
def request (num size : Nat) : Nat → Request
  | 0 => .factory
  | 1 => .bufArray num
  | k + 2 => if k % 2 = 0 then .memory size else .node

/-- The first call that is refused. -/
def firstRefused (grants : Grants) (num size : Nat) : Option Nat :=
  (List.range (2 * num + 2)).find? fun k => !grants k (request num size k)

/-- A factory of `num` buffers, all of them free: each has a block of memory and a
node of its own, the node belongs to it, and the list is in the order of the array. -/
structure Created (num : Nat) (m : FactoryMem) (mem node : Nat → Block) : Prop where
  buffer : ∀ i < num, m.bufArray i = ⟨some (mem i), some (node i)⟩
  own : ((List.range num).map mem ++ (List.range num).map node).Nodup
  owner : ∀ i < num, (m.heap (.node (node i))).owner = some (.buffer i)
  list : IsList m.heap .list ((List.range num).map fun i => .node (node i))

/-- A refused call makes the function return -1, leave `*p` alone and free every
block it had obtained once; otherwise it creates the factory. -/
structure CleansUp (grants : Grants) (num size : Nat) (p : Option Block)
    (h : ListHeap PoolAddr PoolPtr) : Prop where
  refused : (∃ k < 2 * num + 2, grants k (request num size k) = false) →
    ∃ m, createBufFactory grants num size p (.start h) = some (-1, p, m) ∧
      m.cheap.freed.Perm m.cheap.obtained
  created : (∀ k < 2 * num + 2, grants k (request num size k) = true) →
    ∃ bufFactory m mem node,
      createBufFactory grants num size p (.start h) = some (0, some bufFactory, m) ∧
        m.cheap.freed = [] ∧ Created num m mem node

/-! ### The loop -/

theorem CHeap.malloc_granted {c : CHeap} {grants : Grants} {r : Request}
    (h : grants c.calls r = true) :
    c.malloc grants r = (some c.calls, ⟨c.calls + 1, c.obtained ++ [c.calls], c.freed⟩) := by
  rw [CHeap.malloc, if_pos h]

theorem CHeap.malloc_refused {c : CHeap} {grants : Grants} {r : Request}
    (h : grants c.calls r = false) :
    c.malloc grants r = (none, ⟨c.calls + 1, c.obtained, c.freed⟩) := by
  rw [CHeap.malloc, if_neg (by simp [h])]

namespace FactoryMem

theorem free_none (m : FactoryMem) : m.free none = m := by
  simp [FactoryMem.free, CHeap.free]

theorem freeMemory_none {m : FactoryMem} {i : Nat} (h : (m.bufArray i).memory = none) (j : Nat) :
    m.freeMemory i j = m := by
  induction j with
  | zero => rfl
  | succ j ih => rw [freeMemory, h, free_none, ih]

theorem freeNode_none {m : FactoryMem} {i : Nat} (h : (m.bufArray i).node = none) (j : Nat) :
    m.freeNode i j = m := by
  induction j with
  | zero => rfl
  | succ j ih => rw [freeNode, h, free_none, ih]

/-- The same block is freed over and over. -/
theorem freeMemory_some {m : FactoryMem} {i : Nat} {b : Block}
    (h : (m.bufArray i).memory = some b) (j : Nat) :
    (m.freeMemory i j).cheap.obtained = m.cheap.obtained ∧
      (m.freeMemory i j).cheap.freed = m.cheap.freed ++ List.replicate j b := by
  induction j generalizing m with
  | zero => exact ⟨rfl, (List.append_nil _).symm⟩
  | succ j ih =>
      obtain ⟨hobtained, hfreed⟩ := ih (m := m.free (m.bufArray i).memory) h
      refine ⟨hobtained, ?_⟩
      rw [freeMemory, hfreed, List.replicate_succ]
      simp [FactoryMem.free, CHeap.free, h]

end FactoryMem

/-- The blocks of buffer `i` when no call is refused. -/
abbrev memoryBlock (i : Nat) : Block := 2 * i + 2

abbrev nodeBlock (i : Nat) : Block := 2 * i + 3

/-- `i` buffers are made. -/
structure Filled (m : FactoryMem) (i : Nat) : Prop where
  calls : m.cheap.calls = 2 * i + 2
  obtained : m.cheap.obtained = List.range (2 * i + 2)
  freed : m.cheap.freed = []
  made : ∀ j < i, m.bufArray j = ⟨some (memoryBlock j), some (nodeBlock j)⟩
  blank : ∀ j, i ≤ j → m.bufArray j = ⟨none, none⟩
  list : IsList m.heap .list ((List.range i).map fun j => .node (nodeBlock j))
  owner : ∀ j < i, (m.heap (.node (nodeBlock j))).owner = some (.buffer j)

/-- What is freed if call `r` is the first one refused. -/
def freedAt (r : Nat) : List Block :=
  if r % 2 = 0 then [1, 0] else List.replicate (r / 2) (r - 1) ++ [1, 0]

variable {grants : Grants} {size : Nat} {m : FactoryMem} {i : Nat}

/-- The memory of buffer `i` is refused: only the array and the factory are freed. -/
theorem Filled.memory_refused (h : Filled m i)
    (hrefused : grants (2 * i + 2) (.memory size) = false) (n : Nat) :
    ∃ m', createLoop grants size 0 1 (n + 1) i m = some (false, m') ∧
      m'.cheap.obtained = List.range (2 * i + 2) ∧ m'.cheap.freed = [1, 0] := by
  rw [← h.calls] at hrefused
  rw [createLoop, CHeap.malloc_refused hrefused]
  dsimp only
  rw [FactoryMem.freeMemory_none (by simp)]
  refine ⟨_, rfl, h.obtained, ?_⟩
  simp [FactoryMem.free, CHeap.free, h.freed]

/-- The node of buffer `i` is refused: its memory is freed `i + 1` times. -/
theorem Filled.node_refused (h : Filled m i) (hmemory : grants (2 * i + 2) (.memory size) = true)
    (hrefused : grants (2 * i + 3) .node = false) (n : Nat) :
    ∃ m', createLoop grants size 0 1 (n + 1) i m = some (false, m') ∧
      m'.cheap.obtained = List.range (2 * i + 3) ∧
      m'.cheap.freed = List.replicate (i + 1) (memoryBlock i) ++ [1, 0] := by
  rw [← h.calls] at hmemory
  have hrefused' : grants (m.cheap.calls + 1) .node = false := by
    rw [h.calls]
    exact hrefused
  rw [createLoop, CHeap.malloc_granted hmemory]
  dsimp only
  rw [CHeap.malloc_refused hrefused']
  dsimp only
  rw [FactoryMem.freeNode_none (by simp)]
  generalize hm : FactoryMem.mk _ _ m.heap = m₁
  have hbuf : (m₁.bufArray i).memory = some m.cheap.calls := by
    subst hm
    simp
  obtain ⟨hobtained, hfreed⟩ := FactoryMem.freeMemory_some hbuf (i + 1)
  refine ⟨_, rfl, ?_, ?_⟩
  · change (m₁.freeMemory i (i + 1)).cheap.obtained = _
    rw [hobtained, ← hm, List.range_succ, ← h.obtained]
    simp [h.calls]
  · change (m₁.freeMemory i (i + 1)).cheap.freed ++ [1] ++ [0] = _
    rw [hfreed, ← hm, h.calls]
    simp [h.freed]

/-- Both are granted: buffer `i` is made and linked. -/
theorem Filled.next (h : Filled m i) (hmemory : grants (2 * i + 2) (.memory size) = true)
    (hnode : grants (2 * i + 3) .node = true) (n : Nat) :
    ∃ m', Filled m' (i + 1) ∧
      createLoop grants size 0 1 (n + 1) i m = createLoop grants size 0 1 n (i + 1) m' := by
  rw [← h.calls] at hmemory
  have hnode' : grants (m.cheap.calls + 1) .node = true := by
    rw [h.calls]
    exact hnode
  have hfresh : PoolAddr.node (nodeBlock i) ∉
      PoolAddr.list :: (List.range i).map fun j => .node (nodeBlock j) := by
    intro hmem
    rcases List.mem_cons.mp hmem with hmem | hmem
    · cases hmem
    · obtain ⟨j, hj, heq⟩ := List.mem_map.mp hmem
      have hlt := List.mem_range.mp hj
      have hsame : 2 * j + 3 = 2 * i + 3 := PoolAddr.node.inj heq
      omega
  have hlist : IsList (m.heap.setOwner (.node (nodeBlock i)) (some (.buffer i))) .list
      ((List.range i).map fun j => .node (nodeBlock j)) := by
    apply h.list.congr_links
    intro a _
    simp
  obtain ⟨heap, hadd, hlist', howner, -⟩ := hlist.listAddTail hfresh
  have hcalls : m.cheap.calls + 1 = nodeBlock i := by rw [h.calls]
  rw [createLoop, CHeap.malloc_granted hmemory]
  dsimp only
  rw [CHeap.malloc_granted hnode']
  dsimp only
  rw [hcalls, hadd]
  refine ⟨_, ?_, rfl⟩
  constructor
  · rfl
  · change m.cheap.obtained ++ [m.cheap.calls] ++ [nodeBlock i] = _
    rw [h.obtained, h.calls, ← List.range_succ, ← List.range_succ]
    rfl
  · exact h.freed
  · intro j hj
    rcases Nat.lt_succ_iff_lt_or_eq.mp hj with hlt | rfl
    · simp [Function.update_of_ne (Nat.ne_of_lt hlt), h.made j hlt]
    · simp [h.calls]
  · intro j hj
    have hne : j ≠ i := by omega
    simp [Function.update_of_ne hne, h.blank j (by omega)]
  · rw [List.range_succ, List.map_append]
    exact hlist'
  · intro j hj
    rw [howner, ListHeap.setOwner_owner]
    rcases Nat.lt_succ_iff_lt_or_eq.mp hj with hlt | rfl
    · have hne : PoolAddr.node (nodeBlock j) ≠ .node (nodeBlock i) := by
        intro heq
        have hblock : 2 * j + 3 = 2 * i + 3 := PoolAddr.node.inj heq
        omega
      rw [if_neg hne]
      exact h.owner j hlt
    · rw [if_pos rfl]

/-- The loop when no call is refused. -/
theorem Filled.loop (h : Filled m i) {n : Nat}
    (hmemory : ∀ j, i ≤ j → j < i + n → grants (2 * j + 2) (.memory size) = true)
    (hnode : ∀ j, i ≤ j → j < i + n → grants (2 * j + 3) .node = true) :
    ∃ m', createLoop grants size 0 1 n i m = some (true, m') ∧ Filled m' (i + n) := by
  induction n generalizing i m with
  | zero => exact ⟨m, rfl, h⟩
  | succ n ih =>
      obtain ⟨m₁, hfilled, hstep⟩ :=
        h.next (hmemory i (by omega) (by omega)) (hnode i (by omega) (by omega)) n
      obtain ⟨m', hrun, hend⟩ := ih hfilled (fun j hj hlt => hmemory j (by omega) (by omega))
        (fun j hj hlt => hnode j (by omega) (by omega))
      rw [hstep, Nat.add_comm n 1, ← Nat.add_assoc]
      exact ⟨m', hrun, hend⟩

/-- The loop up to the first refused call. -/
theorem Filled.loop_refused (h : Filled m i) {n r : Nat} {num : Nat} (hlow : 2 * i + 2 ≤ r)
    (hhigh : r < 2 * (i + n) + 2)
    (hbefore : ∀ k, 2 * i + 2 ≤ k → k < r → grants k (request num size k) = true)
    (hrefused : grants r (request num size r) = false) :
    ∃ m', createLoop grants size 0 1 n i m = some (false, m') ∧
      m'.cheap.obtained = List.range r ∧ m'.cheap.freed = freedAt r := by
  have hmem : ∀ j, request num size (2 * j + 2) = .memory size := by
    intro j
    simp [request]
  have hnode : ∀ j, request num size (2 * j + 3) = .node := by
    intro j
    simp [request]
  induction n generalizing i m with
  | zero => omega
  | succ n ih =>
      rcases Nat.lt_trichotomy r (2 * i + 3) with hr | rfl | hr
      · obtain rfl : r = 2 * i + 2 := by omega
        rw [hmem] at hrefused
        obtain ⟨m', hrun, hobtained, hfreed⟩ := h.memory_refused hrefused n
        have heven : (2 * i + 2) % 2 = 0 := by omega
        refine ⟨m', hrun, hobtained, ?_⟩
        rw [hfreed, freedAt, if_pos heven]
      · rw [hnode] at hrefused
        have hgranted := hbefore (2 * i + 2) (by omega) (by omega)
        rw [hmem] at hgranted
        obtain ⟨m', hrun, hobtained, hfreed⟩ := h.node_refused hgranted hrefused n
        have hodd : ¬ (2 * i + 3) % 2 = 0 := by omega
        have hhalf : (2 * i + 3) / 2 = i + 1 := by omega
        refine ⟨m', hrun, hobtained, ?_⟩
        rw [hfreed, freedAt, if_neg hodd, hhalf]
        rfl
      · have hgranted := hbefore (2 * i + 2) (by omega) (by omega)
        have hgranted' := hbefore (2 * i + 3) (by omega) (by omega)
        rw [hmem] at hgranted
        rw [hnode] at hgranted'
        obtain ⟨m₁, hfilled, hstep⟩ := h.next hgranted hgranted' n
        rw [hstep]
        exact ih hfilled (by omega) (by omega) fun k hk hlt => hbefore k (by omega) hlt

/-! ### The whole function -/

variable {num : Nat} {p : Option Block} {h : ListHeap PoolAddr PoolPtr}

theorem firstRefused_eq_some {r : Nat} :
    firstRefused grants num size = some r ↔
      r < 2 * num + 2 ∧ grants r (request num size r) = false ∧
        ∀ k < r, grants k (request num size k) = true := by
  rw [firstRefused, List.find?_range_eq_some]
  simp only [Bool.not_eq_true', List.mem_range, Bool.not_eq_false']
  tauto

theorem firstRefused_eq_none :
    firstRefused grants num size = none ↔
      ∀ k < 2 * num + 2, grants k (request num size k) = true := by
  rw [firstRefused, List.find?_eq_none]
  simp

/-- With the first two calls granted the loop starts on an empty factory. -/
theorem createBufFactory_loop (size : Nat) (p : Option Block) (h : ListHeap PoolAddr PoolPtr)
    (hfactory : grants 0 .factory = true) (harray : grants 1 (.bufArray num) = true) :
    ∃ m, Filled m 0 ∧ createBufFactory grants num size p (.start h) =
      (createLoop grants size 0 1 num 0 m).bind fun (done, m) =>
        if done then some (0, some 0, m) else some (-1, p, m) := by
  rw [createBufFactory]
  dsimp only [FactoryMem.start]
  rw [CHeap.malloc_granted hfactory]
  dsimp only
  rw [CHeap.malloc_granted harray]
  refine ⟨_, ?_, rfl⟩
  constructor
  · rfl
  · rfl
  · rfl
  · intro j hj
    omega
  · intro j _
    rfl
  · exact IsList.initListHead h .list .list
  · intro j hj
    omega

/-- What a creation leaves behind if call `r` is the first one refused. -/
theorem createBufFactory_refused {r : Nat} (hr : firstRefused grants num size = some r) :
    ∃ m, createBufFactory grants num size p (.start h) = some (-1, p, m) ∧
      m.cheap.obtained = List.range r ∧
      m.cheap.freed = if r = 0 then [] else if r = 1 then [0] else freedAt r := by
  obtain ⟨hlt, hrefused, hbefore⟩ := firstRefused_eq_some.mp hr
  rcases r with _ | _ | r
  · rw [createBufFactory]
    dsimp only [FactoryMem.start]
    rw [CHeap.malloc_refused hrefused]
    exact ⟨_, rfl, rfl, rfl⟩
  · rw [createBufFactory]
    dsimp only [FactoryMem.start]
    rw [CHeap.malloc_granted (hbefore 0 (by omega))]
    dsimp only
    rw [CHeap.malloc_refused hrefused]
    exact ⟨_, rfl, rfl, rfl⟩
  · obtain ⟨m, hfilled, hcreate⟩ := createBufFactory_loop size p h
      (hbefore 0 (by omega)) (hbefore 1 (by omega))
    have hhigh : r + 2 < 2 * (0 + num) + 2 := by omega
    obtain ⟨m', hrun, hobtained, hfreed⟩ := hfilled.loop_refused (by omega) hhigh
      (fun k _ hk => hbefore k hk) hrefused
    rw [hcreate, hrun]
    refine ⟨m', rfl, hobtained, ?_⟩
    rw [hfreed, if_neg (by omega), if_neg (by omega)]

/-- A creation in which every call is granted. -/
theorem createBufFactory_granted
    (hgranted : ∀ k < 2 * num + 2, grants k (request num size k) = true) :
    ∃ m, createBufFactory grants num size p (.start h) = some (0, some 0, m) ∧ Filled m num := by
  have hmemory : ∀ j, 0 ≤ j → j < 0 + num → grants (2 * j + 2) (.memory size) = true := by
    intro j _ hj
    simpa [request] using hgranted (2 * j + 2) (by omega)
  have hnode : ∀ j, 0 ≤ j → j < 0 + num → grants (2 * j + 3) .node = true := by
    intro j _ hj
    simpa [request] using hgranted (2 * j + 3) (by omega)
  obtain ⟨m, hfilled, hcreate⟩ := createBufFactory_loop size p h
    (hgranted 0 (by omega)) (hgranted 1 (by omega))
  obtain ⟨m', hrun, hend⟩ := hfilled.loop hmemory hnode
  rw [hcreate, hrun]
  rw [Nat.zero_add] at hend
  exact ⟨m', rfl, hend⟩

theorem Filled.created (hfilled : Filled m num) : Created num m memoryBlock nodeBlock := by
  constructor
  · exact hfilled.made
  · rw [List.nodup_append]
    refine ⟨List.nodup_range.map ?_, List.nodup_range.map ?_, ?_⟩
    · intro a b hab
      have hblock : 2 * a + 2 = 2 * b + 2 := hab
      omega
    · intro a b hab
      have hblock : 2 * a + 3 = 2 * b + 3 := hab
      omega
    · simp only [List.mem_map]
      rintro a ⟨j, -, rfl⟩ b ⟨k, -, rfl⟩
      change 2 * j + 2 ≠ 2 * k + 3
      omega
  · exact hfilled.owner
  · exact hfilled.list

/-- From the second buffer on the loops give too few blocks back. -/
theorem freedAt_perm_iff {r : Nat} (hr : 2 ≤ r) : (freedAt r).Perm (List.range r) ↔ r ≤ 3 := by
  constructor
  · intro hperm
    have hlen := hperm.length_eq
    rw [List.length_range, freedAt] at hlen
    split at hlen
    · simp at hlen
      omega
    · simp at hlen
      omega
  · intro hle
    obtain rfl | rfl : r = 2 ∨ r = 3 := by omega
    · decide
    · decide

/-- The function cleans up exactly if the first refused call, if there is one, is
among the first four: those for the factory, the array and the first buffer. -/
theorem cleansUp_iff (grants : Grants) (num size : Nat) (p : Option Block)
    (h : ListHeap PoolAddr PoolPtr) :
    CleansUp grants num size p h ↔ ∀ r, firstRefused grants num size = some r → r ≤ 3 := by
  constructor
  · intro hclean r hr
    obtain ⟨hlt, hrefused, -⟩ := firstRefused_eq_some.mp hr
    obtain ⟨m, hcreate, hperm⟩ := hclean.refused ⟨r, hlt, hrefused⟩
    obtain ⟨m', hcreate', hobtained, hfreed⟩ := createBufFactory_refused (p := p) (h := h) hr
    rw [hcreate] at hcreate'
    cases hcreate'
    by_contra hgt
    rw [hobtained, hfreed, if_neg (by omega), if_neg (by omega),
      freedAt_perm_iff (by omega)] at hperm
    exact hgt hperm
  · intro hfirst
    constructor
    · rintro ⟨k, hk, hrefused⟩
      cases hr : firstRefused grants num size with
      | none =>
          have hgranted := firstRefused_eq_none.mp hr k hk
          rw [hrefused] at hgranted
          cases hgranted
      | some r =>
          obtain ⟨m, hcreate, hobtained, hfreed⟩ := createBufFactory_refused (p := p) (h := h) hr
          refine ⟨m, hcreate, ?_⟩
          rw [hobtained, hfreed]
          rcases r with _ | _ | r
          · decide
          · decide
          · rw [if_neg (by omega), if_neg (by omega), freedAt_perm_iff (by omega)]
            exact hfirst _ hr
    · intro hgranted
      obtain ⟨m, hcreate, hfilled⟩ := createBufFactory_granted (p := p) (h := h) hgranted
      exact ⟨0, m, memoryBlock, nodeBlock, hcreate, hfilled.freed, hfilled.created⟩

/-- Only the memory of the second of two buffers is refused. -/
def refuseSecond : Grants := fun k _ => k ≠ 4

/-- The first buffer's memory and node are lost. -/
theorem second_buffer_leaks :
    ¬ CleansUp refuseSecond 2 16 none (fun _ => ⟨none, none, none⟩) ∧
      ∃ m, createBufFactory refuseSecond 2 16 none (.start fun _ => ⟨none, none, none⟩) =
        some (-1, none, m) ∧ m.cheap.obtained = [0, 1, 2, 3] ∧ m.cheap.freed = [1, 0] := by
  have hfirst : firstRefused refuseSecond 2 16 = some 4 := by decide
  obtain ⟨m, hcreate, hobtained, hfreed⟩ :=
    createBufFactory_refused (p := none) (h := fun _ => ⟨none, none, none⟩) hfirst
  refine ⟨?_, m, hcreate, hobtained, hfreed⟩
  intro hclean
  obtain ⟨m', hcreate', hperm⟩ := hclean.refused ⟨4, by decide, by decide⟩
  rw [hcreate] at hcreate'
  cases hcreate'
  rw [hobtained, hfreed] at hperm
  exact absurd hperm.length_eq (by decide)

end WifiExpander.BufPool
