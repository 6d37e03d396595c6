import Mathlib.Data.Fintype.BigOperators
import WifiExpander.SendPath
import WifiExpander.Theory.Chains

/-!
The kernel's message queues, as `os_msg.c` computes them.

All queues take their `OS_MSG` elements from one pool, `OSMsgPool`, a chain
through `NextPtr`. A queue is a chain from `OutPtr` to `InPtr`. The functions
return `none` where the code would follow a null pointer.

`MsgRep` relates the memory to the sequences that the queues stand for: the pool
and the queues are chains that share no element and together hold all of them.
Every function keeps it and does to the sequences what `osMsgQPut` and its
counterparts for the other end do.
-/

namespace WifiExpander

open Theory

/-- An element of `OSCfg_MsgPool`, by its index -/
abbrev MsgPtr := Nat

/-- What is posted: the pointer, `none` for `DEF_NULL`, and the size -/
structure Msg (α : Type) where
  pVoid : Option α
  msgSize : Nat
deriving DecidableEq

/-- `OS_MSG` without its time stamp -/
structure OsMsg (α : Type) where
  nextPtr : Option MsgPtr
  msg : Msg α

/-- `OS_MSG_POOL` -/
structure OsMsgPool where
  nextPtr : Option MsgPtr
  nbrFree : Nat
  nbrUsed : Nat

/-- `OS_MSG_Q` -/
structure OsMsgQ where
  inPtr : Option MsgPtr
  outPtr : Option MsgPtr
  nbrEntriesSize : Nat
  nbrEntries : Nat

/-- `OS_OPT_POST_FIFO` and `OS_OPT_POST_LIFO` -/
inductive PostOrder where
  | fifo
  | lifo
deriving DecidableEq

/-- The elements, and `OSMsgPool` -/
structure MsgMem (α : Type) where
  msg : MsgPtr → OsMsg α
  pool : OsMsgPool

variable {α κ : Type}

namespace MsgMem

/-- The `NextPtr` of each element -/
def next (m : MsgMem α) (p : MsgPtr) : Option MsgPtr := (m.msg p).nextPtr

def setNext (m : MsgMem α) (p : MsgPtr) (q : Option MsgPtr) : MsgMem α :=
  { m with msg := Function.update m.msg p { m.msg p with nextPtr := q } }

/-- The message is deposited in the element. -/
def setMsg (m : MsgMem α) (p : MsgPtr) (v : Msg α) : MsgMem α :=
  { m with msg := Function.update m.msg p { m.msg p with msg := v } }

@[simp] theorem next_setNext (m : MsgMem α) (p : MsgPtr) (q : Option MsgPtr) :
    (m.setNext p q).next = Function.update m.next p q := by
  funext x
  by_cases hx : x = p
  · subst hx
    simp [next, setNext]
  · simp [next, setNext, hx]

@[simp] theorem next_setMsg (m : MsgMem α) (p : MsgPtr) (v : Msg α) :
    (m.setMsg p v).next = m.next := by
  funext x
  by_cases hx : x = p
  · subst hx
    simp [next, setMsg]
  · simp [next, setMsg, hx]

@[simp] theorem next_withPool (m : MsgMem α) (pool : OsMsgPool) :
    ({ m with pool := pool } : MsgMem α).next = m.next := rfl

@[simp] theorem msg_setNext (m : MsgMem α) (p x : MsgPtr) (q : Option MsgPtr) :
    ((m.setNext p q).msg x).msg = (m.msg x).msg := by
  by_cases hx : x = p
  · subst hx
    simp [setNext]
  · simp [setNext, hx]

@[simp] theorem pool_setNext (m : MsgMem α) (p : MsgPtr) (q : Option MsgPtr) :
    (m.setNext p q).pool = m.pool := rfl

@[simp] theorem pool_setMsg (m : MsgMem α) (p : MsgPtr) (v : Msg α) :
    (m.setMsg p v).pool = m.pool := rfl

/-! ### os_msg.c -/

/-- The loop of `OS_MsgPoolInit`, with its two pointers one apart -/
def poolInitLoop : Nat → MsgPtr → MsgMem α → MsgMem α
  | 0, pMsg1, m => { m with msg := Function.update m.msg pMsg1 ⟨none, none, 0⟩ }
  | loops + 1, pMsg1, m =>
      poolInitLoop loops (pMsg1 + 1)
        { m with msg := Function.update m.msg pMsg1 ⟨some (pMsg1 + 1), none, 0⟩ }

/-- The start of the kernel: `OS_MsgPoolInit`, but not for a pool of size 0,
which stays as the zeroed `OSMsgPool` is. -/
def osMsgPoolInit (size : Nat) (m : MsgMem α) : MsgMem α :=
  if 0 < size then { poolInitLoop (size - 1) 0 m with pool := ⟨some 0, size, 0⟩ }
  else { m with pool := ⟨none, 0, 0⟩ }

/-- `OS_MsgQPut` -/
def osMsgQPut (opt : PostOrder) (v : Msg α) (q : OsMsgQ) (m : MsgMem α) :
    Option (Except RtosErr Unit × OsMsgQ × MsgMem α) :=
  if q.nbrEntries ≥ q.nbrEntriesSize then some (.error .wouldOvf, q, m)
  else if m.pool.nbrFree = 0 then some (.error .noMoreRsrc, q, m)
  else do
    let pMsg ← m.pool.nextPtr
    let m := { m with pool := ⟨m.next pMsg, m.pool.nbrFree - 1, m.pool.nbrUsed + 1⟩ }
    if q.nbrEntries = 0 then
      some (.ok (), { q with inPtr := some pMsg, outPtr := some pMsg, nbrEntries := 1 },
        (m.setNext pMsg none).setMsg pMsg v)
    else
      match opt with
      | .fifo => do
          let pMsgIn ← q.inPtr
          some (.ok (), { q with inPtr := some pMsg, nbrEntries := q.nbrEntries + 1 },
            ((m.setNext pMsgIn (some pMsg)).setNext pMsg none).setMsg pMsg v)
      | .lifo =>
          some (.ok (), { q with outPtr := some pMsg, nbrEntries := q.nbrEntries + 1 },
            (m.setNext pMsg q.outPtr).setMsg pMsg v)

/-- `OS_MsgQGet`; no message is `RTOS_ERR_NOT_FOUND`. -/
def osMsgQGet (q : OsMsgQ) (m : MsgMem α) : Option (Option (Msg α) × OsMsgQ × MsgMem α) :=
  if q.nbrEntries = 0 then some (none, q, m)
  else do
    let pMsg ← q.outPtr
    let outPtr := m.next pMsg
    let q :=
      match outPtr with
      | none => { q with outPtr := none, inPtr := none, nbrEntries := 0 }
      | some p => { q with outPtr := some p, nbrEntries := q.nbrEntries - 1 }
    some (some (m.msg pMsg).msg, q,
      { m.setNext pMsg m.pool.nextPtr with
        pool := ⟨some pMsg, m.pool.nbrFree + 1, m.pool.nbrUsed - 1⟩ })

/-- `OS_MsgQFreeAll` -/
def osMsgQFreeAll (q : OsMsgQ) (m : MsgMem α) : Option (Nat × OsMsgQ × MsgMem α) :=
  if q.nbrEntries > 0 then do
    let pMsg ← q.inPtr
    some (q.nbrEntries, { q with nbrEntries := 0, inPtr := none, outPtr := none },
      { m.setNext pMsg m.pool.nextPtr with
        pool := ⟨q.outPtr, m.pool.nbrFree + q.nbrEntries, m.pool.nbrUsed - q.nbrEntries⟩ })
  else some (0, q, m)

end MsgMem

/-- `OS_MsgQInit` -/
def osMsgQInit (size : Nat) : OsMsgQ := ⟨none, none, size, 0⟩

/-! ### What the queues stand for -/

/-- The messages in each queue, first the next one to come out -/
structure MsgSeqs (κ α : Type) where
  size : κ → Nat
  entries : κ → List (Msg α)
  nbrFree : Nat

namespace MsgSeqs

variable [DecidableEq κ]

/-- A message put at the end or in front. -/
def putEntry (opt : PostOrder) (v : Msg α) (entries : List (Msg α)) : List (Msg α) :=
  match opt with
  | .fifo => entries ++ [v]
  | .lifo => v :: entries

def put (opt : PostOrder) (v : Msg α) (q : κ) (s : MsgSeqs κ α) :
    Except RtosErr Unit × MsgSeqs κ α :=
  if (s.entries q).length ≥ s.size q then (.error .wouldOvf, s)
  else if s.nbrFree = 0 then (.error .noMoreRsrc, s)
  else
    (.ok (),
      { s with
        entries := Function.update s.entries q (putEntry opt v (s.entries q))
        nbrFree := s.nbrFree - 1 })

def get (q : κ) (s : MsgSeqs κ α) : Option (Msg α) × MsgSeqs κ α :=
  match s.entries q with
  | [] => (none, s)
  | v :: vs =>
      (some v, { s with entries := Function.update s.entries q vs, nbrFree := s.nbrFree + 1 })

def freeAll (q : κ) (s : MsgSeqs κ α) : Nat × MsgSeqs κ α :=
  ((s.entries q).length,
    { s with
      entries := Function.update s.entries q []
      nbrFree := s.nbrFree + (s.entries q).length })

end MsgSeqs

/-! ### The representation -/

/-- The first element of the pool, at `none`, and of each queue. -/
def msgHeads (m : MsgMem α) (msgQ : κ → OsMsgQ) : Option κ → Option MsgPtr
  | none => m.pool.nextPtr
  | some q => (msgQ q).outPtr

theorem msgHeads_update [DecidableEq κ] (m m' : MsgMem α) (msgQ : κ → OsMsgQ) (q : κ)
    (mq : OsMsgQ) : msgHeads m' (Function.update msgQ q mq) =
      Function.update (Function.update (msgHeads m msgQ) none m'.pool.nextPtr) (some q)
        mq.outPtr := by
  funext c
  cases c with
  | none => simp [msgHeads]
  | some r =>
      by_cases hr : r = q
      · subst hr
        simp [msgHeads]
      · simp [msgHeads, hr]

/-- The pool and the queues are chains that share the `size` elements out. -/
structure MsgRep (size : Nat) (m : MsgMem α) (msgQ : κ → OsMsgQ) (s : MsgSeqs κ α)
    (nodes : Option κ → List MsgPtr) : Prop where
  chains : Chains m.next (msgHeads m msgQ) nodes
  members : ∀ p, p < size ↔ ∃ c, p ∈ nodes c
  inPtr : ∀ q, (msgQ q).inPtr = (nodes (some q)).getLast?
  nbrEntries : ∀ q, (msgQ q).nbrEntries = (nodes (some q)).length
  nbrEntriesSize : ∀ q, (msgQ q).nbrEntriesSize = s.size q
  entries : ∀ q, (nodes (some q)).map (fun p => (m.msg p).msg) = s.entries q
  nbrFree : m.pool.nbrFree = (nodes none).length
  free : m.pool.nbrFree = s.nbrFree
  total : m.pool.nbrFree + m.pool.nbrUsed = size

namespace MsgRep

variable {size : Nat} {m m' : MsgMem α} {msgQ : κ → OsMsgQ} {s : MsgSeqs κ α}
  {nodes : Option κ → List MsgPtr} {q : κ} {mq : OsMsgQ} {p : MsgPtr} {xs ys : List MsgPtr}

theorem length_entries (h : MsgRep size m msgQ s nodes) (q : κ) :
    (msgQ q).nbrEntries = (s.entries q).length := by
  rw [h.nbrEntries, ← h.entries, List.length_map]

theorem length_pool (h : MsgRep size m msgQ s nodes) : s.nbrFree = (nodes none).length :=
  h.free.symm.trans h.nbrFree

theorem pool_nextPtr (h : MsgRep size m msgQ s nodes) : m.pool.nextPtr = (nodes none).head? :=
  h.chains.head_eq none

theorem outPtr (h : MsgRep size m msgQ s nodes) (q : κ) :
    (msgQ q).outPtr = (nodes (some q)).head? :=
  h.chains.head_eq (some q)

/-- Messages are read through the elements of the queue only. -/
theorem map_msg_congr {l : List MsgPtr} (hmsg : ∀ x ∈ l, (m'.msg x).msg = (m.msg x).msg) :
    l.map (fun x => (m'.msg x).msg) = l.map fun x => (m.msg x).msg :=
  List.map_congr_left hmsg

/-- The elements of a queue are among those in use. -/
theorem nbrEntries_le_nbrUsed (h : MsgRep size m msgQ s nodes) (q : κ) :
    (msgQ q).nbrEntries ≤ m.pool.nbrUsed := by
  have hnodup : (nodes none ++ nodes (some q)).Nodup := by
    rw [List.nodup_append]
    refine ⟨h.chains.nodup none, h.chains.nodup (some q), ?_⟩
    rintro x hx y hy rfl
    cases h.chains.disjoint _ _ _ hx hy
  have hsub : nodes none ++ nodes (some q) ⊆ List.range size := by
    intro x hx
    rw [List.mem_range, h.members]
    rcases List.mem_append.mp hx with hx | hx
    · exact ⟨none, hx⟩
    · exact ⟨some q, hx⟩
  have hle := (hnodup.subperm hsub).length_le
  rw [List.length_append, List.length_range, ← h.nbrFree, ← h.nbrEntries] at hle
  have htotal := h.total
  omega

/-- The elements in use are those of the queues. -/
theorem nbrUsed_eq_sum [Fintype κ] (h : MsgRep size m msgQ s nodes) :
    m.pool.nbrUsed = ∑ q, (s.entries q).length := by
  classical
  have hunion : Finset.univ.biUnion (fun c => (nodes c).toFinset) = Finset.range size := by
    ext p
    simp [h.members p]
  have hcard : ∑ c, (nodes c).length = size := by
    rw [← Finset.card_range size, ← hunion, Finset.card_biUnion]
    · exact Finset.sum_congr rfl fun c _ => (List.toFinset_card_of_nodup (h.chains.nodup c)).symm
    · intro c _ d _ hcd
      apply Finset.disjoint_left.mpr
      intro p hc hd
      rw [List.mem_toFinset] at hc hd
      exact hcd (h.chains.disjoint c d p hc hd)
  rw [Fintype.sum_option, ← h.nbrFree] at hcard
  have hqueues : ∑ q, (nodes (some q)).length = ∑ q, (s.entries q).length :=
    Finset.sum_congr rfl fun q _ => by rw [← h.entries q, List.length_map]
  have htotal := h.total
  omega

variable [DecidableEq κ]

/-- Elements moved between the pool and queue `q`. -/
private theorem of_move (h : MsgRep size m msgQ s nodes) {nodes' : Option κ → List MsgPtr}
    {v : List (Msg α)} {n : Nat}
    (chains : Chains m'.next (msgHeads m' (Function.update msgQ q mq)) nodes')
    (hmem : ∀ p, (∃ c, p ∈ nodes' c) ↔ ∃ c, p ∈ nodes c)
    (hother : ∀ r, r ≠ q → nodes' (some r) = nodes (some r))
    (hin : mq.inPtr = (nodes' (some q)).getLast?)
    (hlen : mq.nbrEntries = (nodes' (some q)).length)
    (hsize : mq.nbrEntriesSize = s.size q)
    (hentries : (nodes' (some q)).map (fun p => (m'.msg p).msg) = v)
    (hmsg : ∀ r, r ≠ q → ∀ p ∈ nodes (some r), (m'.msg p).msg = (m.msg p).msg)
    (hnbr : m'.pool.nbrFree = (nodes' none).length) (hfree : m'.pool.nbrFree = n)
    (htotal : m'.pool.nbrFree + m'.pool.nbrUsed = size) :
    MsgRep size m' (Function.update msgQ q mq)
      { s with entries := Function.update s.entries q v, nbrFree := n } nodes' := by
  constructor
  · exact chains
  · intro p
    rw [h.members, hmem]
  · intro r
    by_cases hr : r = q
    · subst hr
      rw [Function.update_self]
      exact hin
    · rw [hother r hr, Function.update_of_ne hr]
      exact h.inPtr r
  · intro r
    by_cases hr : r = q
    · subst hr
      rw [Function.update_self]
      exact hlen
    · rw [hother r hr, Function.update_of_ne hr]
      exact h.nbrEntries r
  · intro r
    by_cases hr : r = q
    · subst hr
      rw [Function.update_self]
      exact hsize
    · rw [Function.update_of_ne hr]
      exact h.nbrEntriesSize r
  · intro r
    by_cases hr : r = q
    · subst hr
      simp only [Function.update_self]
      exact hentries
    · simp only [Function.update_of_ne hr]
      rw [hother r hr, ← h.entries r]
      exact map_msg_congr (hmsg r hr)
  · exact hnbr
  · exact hfree
  · exact htotal

/-- The first element of the pool has become an element of queue `q`. -/
private theorem of_put (h : MsgRep size m msgQ s nodes) (hfree : nodes none = p :: xs)
    {v : List (Msg α)}
    (chains : Chains m'.next (msgHeads m' (Function.update msgQ q mq))
      (Function.update (Function.update nodes none xs) (some q) ys))
    (hmem : ∀ y, y ∈ ys ↔ y = p ∨ y ∈ nodes (some q))
    (hin : mq.inPtr = ys.getLast?) (hlen : mq.nbrEntries = ys.length)
    (hsize : mq.nbrEntriesSize = s.size q)
    (hentries : ys.map (fun x => (m'.msg x).msg) = v)
    (hmsg : ∀ x, x ≠ p → (m'.msg x).msg = (m.msg x).msg)
    (hpool : m'.pool = ⟨m.next p, m.pool.nbrFree - 1, m.pool.nbrUsed + 1⟩) :
    MsgRep size m' (Function.update msgQ q mq)
      { s with entries := Function.update s.entries q v, nbrFree := s.nbrFree - 1 }
      (Function.update (Function.update nodes none xs) (some q) ys) := by
  have hnbr := h.nbrFree
  have htotal := h.total
  rw [hfree, List.length_cons] at hnbr
  apply h.of_move chains (Chains.mem_move hfree (by simp) hmem)
  · intro r hr
    simp [hr]
  · simpa using hin
  · simpa using hlen
  · exact hsize
  · simpa using hentries
  · intro r _ x hx
    apply hmsg
    rintro rfl
    exact h.chains.notMem_of_ne (c := none) (by simp [hfree]) (by simp) hx
  · simp [hpool, hnbr]
  · simp [hpool, h.free]
  · rw [hpool]
    change m.pool.nbrFree - 1 + (m.pool.nbrUsed + 1) = size
    omega

/-- `OS_MsgQPut` puts the message into the sequence of its queue. -/
theorem osMsgQPut (h : MsgRep size m msgQ s nodes) (opt : PostOrder) (v : Msg α) (q : κ) :
    ∃ mq m' nodes', m.osMsgQPut opt v (msgQ q) = some ((s.put opt v q).1, mq, m') ∧
      MsgRep size m' (Function.update msgQ q mq) (s.put opt v q).2 nodes' := by
  unfold MsgMem.osMsgQPut MsgSeqs.put
  rw [h.length_entries, h.nbrEntriesSize]
  by_cases hfull : (s.entries q).length ≥ s.size q
  · rw [if_pos hfull, if_pos hfull]
    exact ⟨msgQ q, m, nodes, rfl, by rwa [Function.update_eq_self]⟩
  rw [if_neg hfull, if_neg hfull, h.free]
  by_cases hnone : s.nbrFree = 0
  · rw [if_pos hnone, if_pos hnone]
    exact ⟨msgQ q, m, nodes, rfl, by rwa [Function.update_eq_self]⟩
  rw [if_neg hnone, if_neg hnone]
  obtain ⟨p, xs, hfree⟩ : ∃ p xs, nodes none = p :: xs := by
    cases hn : nodes none with
    | nil => exact absurd (by rw [h.length_pool, hn]; rfl) hnone
    | cons p xs => exact ⟨p, xs, rfl⟩
  have hnext : m.pool.nextPtr = some p := by rw [h.pool_nextPtr, hfree]; rfl
  obtain ⟨hpop, hloose⟩ := h.chains.pop hfree
  have hpq : p ∉ nodes (some q) := by simpa using hloose (some q)
  simp only [hnext, Option.bind_eq_bind, Option.bind_some]
  by_cases hempty : (s.entries q).length = 0
  · -- the only element of its queue
    have hq : nodes (some q) = [] := by
      rw [← List.length_eq_zero_iff, ← h.nbrEntries, h.length_entries, hempty]
    rw [if_pos hempty]
    refine ⟨_, _, Function.update (Function.update nodes none xs) (some q) [p], rfl, ?_⟩
    apply h.of_put hfree
    · have hpush := hpop.push (c := some q) hloose
      rw [msgHeads_update m]
      simpa [hq, Chains.head_eq h.chains] using hpush
    · simp [hq]
    · rfl
    · rfl
    · rfl
    · have : s.entries q = [] := List.length_eq_zero_iff.mp hempty
      cases opt <;> simp [MsgMem.setMsg, MsgSeqs.putEntry, this]
    · intro x hx
      simp [MsgMem.setMsg, MsgMem.setNext, hx]
    · simp [h.free]
  rw [if_neg hempty]
  cases opt with
  | fifo =>
      obtain ⟨zs, l, hq⟩ : ∃ zs l, nodes (some q) = zs ++ [l] := by
        rcases List.eq_nil_or_concat' (nodes (some q)) with hq | hq
        · rw [← List.length_eq_zero_iff, ← h.nbrEntries, h.length_entries] at hq
          exact absurd hq hempty
        · exact hq
      have hin : (msgQ q).inPtr = some l := by rw [h.inPtr, hq]; simp
      have hlp : p ≠ l := by
        rintro rfl
        simp [hq] at hpq
      simp only [hin, Option.bind_some]
      refine ⟨_, _, Function.update (Function.update nodes none xs) (some q) (zs ++ [l, p]),
        rfl, ?_⟩
      apply h.of_put hfree
      · have hback := hpop.pushBack (c := some q) (by simpa using hq) hloose
        have hout : Function.update (Function.update (msgHeads m msgQ) none (m.next p)) (some q)
            (msgQ q).outPtr = Function.update (msgHeads m msgQ) none (m.next p) := by
          rw [Function.update_eq_self_iff]
          simp [msgHeads]
        rw [msgHeads_update m]
        simpa [hout] using hback
      · intro y
        simp [hq]
        tauto
      · simp
      · simp [← h.length_entries, h.nbrEntries, hq]
      · rfl
      · rw [MsgSeqs.putEntry, ← h.entries, hq]
        have hzs : ∀ x ∈ zs, x ≠ p := by
          rintro x hx rfl
          simp [hq, hx] at hpq
        simp only [List.map_append, List.map_cons, List.map_nil, List.append_assoc,
          List.cons_append, List.nil_append]
        congr 1
        · apply map_msg_congr
          intro x hx
          simp [MsgMem.setMsg, MsgMem.setNext, hzs x hx]
          by_cases hxl : x = l <;> simp [hxl]
        · simp [MsgMem.setMsg, MsgMem.setNext, Ne.symm hlp]
      · intro x hx
        simp [MsgMem.setMsg, hx]
      · simp [h.free]
  | lifo =>
      refine ⟨_, _, Function.update (Function.update nodes none xs) (some q)
        (p :: nodes (some q)), rfl, ?_⟩
      apply h.of_put hfree
      · have hpush := hpop.push (c := some q) hloose
        rw [msgHeads_update m]
        simpa [msgHeads] using hpush
      · intro y
        simp
      · rw [h.inPtr]
        cases hq : nodes (some q) with
        | nil =>
            rw [← List.length_eq_zero_iff, ← h.nbrEntries, h.length_entries] at hq
            exact absurd hq hempty
        | cons y l => simp
      · simp [← h.length_entries, h.nbrEntries]
      · rfl
      · rw [MsgSeqs.putEntry, ← h.entries, List.map_cons]
        congr 1
        · simp [MsgMem.setMsg]
        · apply map_msg_congr
          intro x hx
          have hxp : x ≠ p := by
            rintro rfl
            exact hpq hx
          simp [MsgMem.setMsg, MsgMem.setNext, hxp]
      · intro x hx
        simp [MsgMem.setMsg, hx]
      · simp [h.free]

/-- `OS_MsgQGet` takes the next message out of the sequence. -/
theorem osMsgQGet (h : MsgRep size m msgQ s nodes) (q : κ) :
    ∃ mq m' nodes', m.osMsgQGet (msgQ q) = some ((s.get q).1, mq, m') ∧
      MsgRep size m' (Function.update msgQ q mq) (s.get q).2 nodes' := by
  unfold MsgMem.osMsgQGet MsgSeqs.get
  have hused := h.nbrEntries_le_nbrUsed q
  rw [h.length_entries] at hused ⊢
  cases hentries : s.entries q with
  | nil => exact ⟨msgQ q, m, nodes, by simp, by rwa [Function.update_eq_self]⟩
  | cons v vs =>
      rw [if_neg (by simp)]
      rw [hentries, List.length_cons] at hused
      have hcontent := h.entries q
      rw [hentries] at hcontent
      obtain ⟨p, xs, hq, hv, hvs⟩ := List.map_eq_cons_iff.mp hcontent
      have hout : (msgQ q).outPtr = some p := by rw [h.outPtr, hq]; rfl
      have hnext : m.next p = xs.head? := by
        have hchain := h.chains.chain (some q)
        rw [hq] at hchain
        exact hchain.2.head_eq
      obtain ⟨hpop, hloose⟩ := h.chains.pop hq
      have hpush := hpop.push (c := none) hloose
      have hlen := h.nbrEntries q
      have hlast := h.inPtr q
      rw [hq] at hlen hlast
      simp only [hout, Option.bind_eq_bind, Option.bind_some, hv]
      refine ⟨_, _, Function.update (Function.update nodes (some q) xs) none (p :: nodes none),
        rfl, ?_⟩
      apply h.of_move
      · rw [msgHeads_update m, Function.update_comm (by simp)]
        cases xs with
        | nil => simpa [msgHeads, hnext] using hpush
        | cons y ys => simpa [msgHeads, hnext] using hpush
      · exact Chains.mem_move hq (by simp) fun y => List.mem_cons
      · intro r hr
        simp [hr]
      · cases xs with
        | nil => simp [hnext]
        | cons y ys => simpa [hnext] using hlast
      · cases xs with
        | nil => simp [hnext]
        | cons y ys => simp [hnext, ← hvs]
      · cases xs with
        | nil => simp [hnext, h.nbrEntriesSize]
        | cons y ys => simp [hnext, h.nbrEntriesSize]
      · rw [Function.update_of_ne (by simp), Function.update_self, ← hvs]
        exact map_msg_congr fun x _ => MsgMem.msg_setNext m p x m.pool.nextPtr
      · intro r _ x _
        simp
      · simp [h.nbrFree]
      · simp [h.free]
      · have htotal := h.total
        change m.pool.nbrFree + 1 + (m.pool.nbrUsed - 1) = size
        omega

/-- `OS_MsgQFreeAll` empties the sequence. -/
theorem osMsgQFreeAll (h : MsgRep size m msgQ s nodes) (q : κ) :
    ∃ mq m' nodes', m.osMsgQFreeAll (msgQ q) = some ((s.freeAll q).1, mq, m') ∧
      MsgRep size m' (Function.update msgQ q mq) (s.freeAll q).2 nodes' := by
  unfold MsgMem.osMsgQFreeAll MsgSeqs.freeAll
  have hused := h.nbrEntries_le_nbrUsed q
  have hlen := h.nbrEntries q
  rw [h.length_entries] at hused hlen ⊢
  rcases List.eq_nil_or_concat' (nodes (some q)) with hq | ⟨xs, l, hq⟩
  · have hnil : s.entries q = [] := by
      rw [← h.entries, hq]
      rfl
    refine ⟨msgQ q, m, nodes, by simp [hnil], ?_⟩
    have hsame : Function.update s.entries q [] = s.entries := by
      rw [Function.update_eq_self_iff, hnil]
    simpa [hnil, hsame, Function.update_eq_self] using h
  · have hin : (msgQ q).inPtr = some l := by
      rw [h.inPtr, hq]
      simp
    have hpos : (s.entries q).length > 0 := by
      rw [hlen, hq]
      simp
    rw [if_pos hpos]
    simp only [hin, Option.bind_eq_bind, Option.bind_some]
    have hsplice := h.chains.splice (d := none) (by simp : some q ≠ none) hq
    refine ⟨_, _, Function.update (Function.update nodes none (nodes (some q) ++ nodes none))
      (some q) [], rfl, ?_⟩
    apply h.of_move
    · rw [msgHeads_update m]
      simpa [msgHeads] using hsplice
    · exact Chains.mem_splice (by simp)
    · intro r hr
      simp [hr]
    · simp
    · simp
    · exact h.nbrEntriesSize q
    · simp
    · intro r _ x _
      simp
    · simp [h.nbrFree, hlen]
      omega
    · simp [h.free]
    · have htotal := h.total
      change m.pool.nbrFree + (s.entries q).length + (m.pool.nbrUsed - (s.entries q).length) = size
      omega

end MsgRep

/-! ### Start -/

theorem MsgMem.msg_poolInitLoop {x : MsgPtr} (loops : Nat) {p : MsgPtr} (m : MsgMem α)
    (hx : x < p) : (poolInitLoop loops p m).msg x = m.msg x := by
  induction loops generalizing p m with
  | zero => simp [poolInitLoop, Nat.ne_of_lt hx]
  | succ loops ih =>
      rw [poolInitLoop, ih _ (Nat.lt_succ_of_lt hx)]
      simp [Nat.ne_of_lt hx]

/-- The loop links the elements in the order of the array. -/
theorem MsgMem.chain_poolInitLoop (loops : Nat) (p : MsgPtr) (m : MsgMem α) :
    Chain (poolInitLoop loops p m).next (some p) (List.range' p (loops + 1)) := by
  induction loops generalizing p m with
  | zero => simp [Chain, poolInitLoop, next]
  | succ loops ih =>
      rw [List.range'_succ]
      constructor
      · rfl
      · rw [poolInitLoop, next, msg_poolInitLoop loops _ (Nat.lt_succ_self p)]
        simpa using ih (p + 1) _

/-- The queues after their creation, with an untouched pool. -/
def MsgSeqs.empty (sizes : κ → Nat) (size : Nat) : MsgSeqs κ α := ⟨sizes, fun _ => [], size⟩

/-- The elements that an untouched pool has. -/
def poolNodes (size : Nat) : Option κ → List MsgPtr
  | none => List.range size
  | some _ => []

theorem MsgRep.boot (sizes : κ → Nat) (size : Nat) (m : MsgMem α) :
    MsgRep size (m.osMsgPoolInit size) (fun q => osMsgQInit (sizes q))
      (MsgSeqs.empty sizes size) (poolNodes size) := by
  have hpool : (m.osMsgPoolInit size).pool.nbrFree = size ∧
      (m.osMsgPoolInit size).pool.nbrUsed = 0 := by
    unfold MsgMem.osMsgPoolInit
    by_cases hsize : 0 < size
    · simp [hsize]
    · have : size = 0 := Nat.eq_zero_of_not_pos hsize
      simp [this]
  constructor
  · constructor
    · rintro (_ | q)
      · by_cases hsize : 0 < size
        · obtain ⟨loops, rfl⟩ : ∃ loops, size = loops + 1 := ⟨size - 1, by omega⟩
          have hchain := MsgMem.chain_poolInitLoop loops 0 m
          rw [← List.range_eq_range'] at hchain
          simpa [MsgMem.osMsgPoolInit, msgHeads, poolNodes] using hchain
        · have : size = 0 := Nat.eq_zero_of_not_pos hsize
          simp [this, MsgMem.osMsgPoolInit, msgHeads, poolNodes, Chain]
      · rfl
    · rintro (_ | q)
      · exact List.nodup_range
      · exact List.nodup_nil
    · rintro (_ | q) (_ | r) x hx hx'
      · rfl
      · simp [poolNodes] at hx'
      · simp [poolNodes] at hx
      · simp [poolNodes] at hx
  · intro p
    constructor
    · intro hp
      exact ⟨none, by simpa [poolNodes] using hp⟩
    · rintro ⟨_ | q, hp⟩
      · simpa [poolNodes] using hp
      · simp [poolNodes] at hp
  · intro q
    rfl
  · intro q
    rfl
  · intro q
    rfl
  · intro q
    rfl
  · simp [hpool.1, poolNodes]
  · exact hpool.1
  · rw [hpool.1, hpool.2, Nat.add_zero]

end WifiExpander
