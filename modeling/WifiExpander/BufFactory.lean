import WifiExpander.IntrusiveList
import Mathlib.Data.Fintype.Basic

/-!
The buffer factory of `app/buf_factory.c`.

The buffers are numbered. `struct Buffer` number `b`, its `memory` and its
`node` are three objects in C; here `b` names the first two and `Addr.node b` is
the third. The `list` field at the start of a buffer's memory is `Addr.entry b`,
so one heap holds the nodes of the factory's free list and of the send list.
-/

namespace WifiExpander

/-- `EMDRV_UARTDRV_MAX_CONCURRENT_TX_BUFS` -/
abbrev uartdrvMaxConcurrentTxBufs : Nat := 6

/-- The buffers that `app_uart_init` creates. -/
abbrev BufId := Fin uartdrvMaxConcurrentTxBufs

/-- The `list_head` objects of the send path. -/
inductive Addr where
  /-- `g_uart_send_list` -/
  | sendList
  /-- `g_uart_send_buf->list` -/
  | factoryList
  /-- the `list` field of a `uart_send_format_t` -/
  | entry (b : BufId)
  /-- `buf_array[b].node` -/
  | node (b : BufId)
deriving DecidableEq

/-- What an `owner` field points to. -/
inductive Ptr where
  | list (a : Addr)
  /-- a `struct Buffer` -/
  | buffer (b : BufId)
  /-- a `uart_send_format_t` -/
  | send (b : BufId)
deriving DecidableEq

abbrev Heap := ListHeap Addr Ptr

/-- The loop of `create_buf_factory` over `buf_array`. -/
def createBufs : List BufId → Heap → Option Heap
  | [], h => some h
  | b :: bs, h => do
      let h ← listAddTail (h.setOwner (.node b) (some (.buffer b))) (.node b) .factoryList
      createBufs bs h

/-- `create_buf_factory`, when every `malloc` succeeds; the heap it starts from
is whatever the memory holds. -/
def createBufFactory (h : Heap) : Option Heap :=
  createBufs (List.finRange _) (initListHead h .factoryList (.list .factoryList))

/-- `buf_factory_produce`; `some none` is the return value `NULL`. -/
def bufFactoryProduce (h : Heap) : Option (Option BufId × Heap) :=
  if listEmpty h .factoryList then some (none, h)
  else do
    let nodeOfBuf ← (h .factoryList).next
    match (h nodeOfBuf).owner with
    | some (.buffer buf) =>
        let h ← listDel h nodeOfBuf
        some (some buf, h)
    | _ => none

/-- `buf_factory_recycle` -/
def bufFactoryRecycle (h : Heap) (buf : BufId) : Option Heap :=
  listAddTail h (.node buf) .factoryList

/-! ### The free list -/

/-- The free list holds the buffers `free`, and every node belongs to its buffer. -/
structure Factory (h : Heap) (free : List BufId) : Prop where
  list : IsList h .factoryList (free.map .node)
  owner : ∀ b, (h (.node b)).owner = some (.buffer b)

namespace Factory

variable {h h' : Heap} {free : List BufId} {b : BufId}

theorem node_injective : Function.Injective Addr.node := fun _ _ h => Addr.node.inj h

theorem nodup (hf : Factory h free) : free.Nodup := hf.list.nodup.of_map

/-- Addresses that the factory's operations never write. -/
def Apart (a : Addr) : Prop := a ≠ .factoryList ∧ ∀ b, a ≠ .node b

theorem Apart.sendList : Apart .sendList := ⟨by simp, by simp⟩

theorem Apart.entry (b : BufId) : Apart (.entry b) := ⟨by simp, by simp⟩

theorem Apart.notMem {a : Addr} (ha : Apart a) (free : List BufId) :
    a ∉ Addr.factoryList :: free.map .node := by
  simp only [List.mem_cons, List.mem_map, not_or, not_exists, not_and]
  exact ⟨ha.1, fun b _ heq => ha.2 b heq.symm⟩

/-- The factory depends only on its own nodes. -/
theorem congr (hf : Factory h free) (head : h' .factoryList = h .factoryList)
    (same : ∀ b, h' (.node b) = h (.node b)) : Factory h' free := by
  refine ⟨hf.list.congr ?_, fun b => by rw [same]; exact hf.owner b⟩
  intro a ha
  rcases List.mem_cons.mp ha with rfl | ha
  · exact head
  · obtain ⟨b, -, rfl⟩ := List.mem_map.mp ha
    exact same b

theorem produce_nil (hf : Factory h []) : bufFactoryProduce h = some (none, h) := by
  have hempty : listEmpty h .factoryList = true := hf.list.listEmpty_iff.mpr rfl
  simp [bufFactoryProduce, hempty]

/-- `buf_factory_produce` hands out the first free buffer. -/
theorem produce_cons (hf : Factory h (b :: free)) :
    ∃ h', bufFactoryProduce h = some (some b, h') ∧ Factory h' free ∧
      ∀ a, Apart a → h' a = h a := by
  have hempty : listEmpty h .factoryList ≠ true := by
    intro hn
    simpa using hf.list.listEmpty_iff.mp hn
  have hnext : (h .factoryList).next = some (.node b) := by
    simpa using Theory.IsRing.next_head hf.list
  obtain ⟨h', hdel, hlist, -, -, howner, hframe⟩ :=
    IsList.listDel (l := []) (e := Addr.node b) (r := free.map Addr.node) hf.list
  refine ⟨h', ?_, ⟨hlist, fun c => by rw [howner]; exact hf.owner c⟩, ?_⟩
  · simp [bufFactoryProduce, hempty, hnext, hf.owner, hdel]
  · exact fun a ha => hframe a (ha.notMem (b :: free))

/-- `buf_factory_recycle` puts a buffer that is not free at the end. -/
theorem recycle (hf : Factory h free) (fresh : b ∉ free) :
    ∃ h', bufFactoryRecycle h b = some h' ∧ Factory h' (free ++ [b]) ∧
      ∀ a, Apart a → h' a = h a := by
  have hfresh : Addr.node b ∉ Addr.factoryList :: free.map .node := by
    simpa [List.mem_map_of_injective node_injective] using fresh
  obtain ⟨h', hadd, hlist, howner, hframe⟩ := hf.list.listAddTail hfresh
  refine ⟨h', hadd, ⟨?_, fun c => by rw [howner]; exact hf.owner c⟩, ?_⟩
  · simpa using hlist
  · exact fun a ha => hframe a (ha.2 b) (ha.notMem free)

end Factory

/-- The loop of `create_buf_factory` appends the buffers to the free list. -/
theorem createBufs_spec {h : Heap} (free bs : List BufId)
    (hlist : IsList h .factoryList (free.map .node))
    (howner : ∀ b ∈ free, (h (.node b)).owner = some (.buffer b)) (hnd : (free ++ bs).Nodup) :
    ∃ h', createBufs bs h = some h' ∧ IsList h' .factoryList ((free ++ bs).map .node) ∧
      ∀ b ∈ free ++ bs, (h' (.node b)).owner = some (.buffer b) := by
  induction bs generalizing free h with
  | nil => exact ⟨h, rfl, by simpa using hlist, by simpa using howner⟩
  | cons b bs ih =>
      have hfresh : b ∉ free := (Theory.notMem_of_nodup_split hnd).1
      have hlist' : IsList (h.setOwner (.node b) (some (.buffer b))) .factoryList
          (free.map .node) := hlist.congr_links fun a _ => by simp
      have hnew : Addr.node b ∉ Addr.factoryList :: free.map .node := by
        simpa [List.mem_map_of_injective Factory.node_injective] using hfresh
      obtain ⟨h₁, hadd, hlist₁, howner₁, -⟩ := hlist'.listAddTail hnew
      have hown : ∀ c ∈ free ++ [b], (h₁ (.node c)).owner = some (.buffer c) := by
        intro c hc
        rw [howner₁, ListHeap.setOwner_owner]
        split
        · simp_all
        · rename_i hne
          have hcf : c ∈ free := by
            rcases List.mem_append.mp hc with hc | hc
            · exact hc
            · exact absurd (congrArg Addr.node (List.mem_singleton.mp hc)) hne
          exact howner c hcf
      obtain ⟨h', hrun, hlist₂, howner₂⟩ :=
        ih (free ++ [b]) (by simpa using hlist₁) hown (by simpa using hnd)
      exact ⟨h', by simp [createBufs, hadd, hrun], by simpa using hlist₂, by simpa using howner₂⟩

/-- After `create_buf_factory` every buffer is free. -/
theorem createBufFactory_spec (h : Heap) :
    ∃ h', createBufFactory h = some h' ∧ Factory h' (List.finRange _) := by
  obtain ⟨h', hrun, hlist, howner⟩ := createBufs_spec []
    (List.finRange uartdrvMaxConcurrentTxBufs)
    (IsList.initListHead h .factoryList (.list .factoryList)) (by simp)
    (by simpa using List.nodup_finRange _)
  exact ⟨h', hrun, ⟨by simpa using hlist, fun b => howner b (by simp [List.mem_finRange])⟩⟩

end WifiExpander
