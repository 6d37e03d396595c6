import WifiExpander.Theory.CircularList
import WifiExpander.Theory.Machine

/-!
The intrusive list of `app/list.c`.

A heap gives every `struct list_head` its three fields. The functions return
`none` where the C code would dereference a null pointer. `IsList` is the
representation predicate: a head and a sequence of distinct nodes linked in a
circle; each operation is related to the operation on sequences, and a run of calls
to a run of these.
-/

namespace WifiExpander

open WifiExpander.Theory

/-- `struct list_head`; `none` is the null pointer. -/
structure ListHead (α ω : Type) where
  next : Option α
  prev : Option α
  owner : Option ω
deriving DecidableEq

/-- The `list_head` objects in memory, by address. -/
abbrev ListHeap (α ω : Type) := α → ListHead α ω

variable {α ω : Type} [DecidableEq α]

namespace ListHeap

def setNext (h : ListHeap α ω) (a : α) (v : Option α) : ListHeap α ω :=
  Function.update h a { h a with next := v }

def setPrev (h : ListHeap α ω) (a : α) (v : Option α) : ListHeap α ω :=
  Function.update h a { h a with prev := v }

def setOwner (h : ListHeap α ω) (a : α) (v : Option ω) : ListHeap α ω :=
  Function.update h a { h a with owner := v }

theorem setNext_next (h : ListHeap α ω) (a x : α) (v : Option α) :
    ((h.setNext a v) x).next = if x = a then v else (h x).next := by
  unfold setNext; rw [Function.update_apply]; split <;> simp_all

theorem setPrev_prev (h : ListHeap α ω) (a x : α) (v : Option α) :
    ((h.setPrev a v) x).prev = if x = a then v else (h x).prev := by
  unfold setPrev; rw [Function.update_apply]; split <;> simp_all

@[simp] theorem setNext_prev (h : ListHeap α ω) (a x : α) (v : Option α) :
    ((h.setNext a v) x).prev = (h x).prev := by
  unfold setNext; rw [Function.update_apply]; split <;> simp_all

@[simp] theorem setPrev_next (h : ListHeap α ω) (a x : α) (v : Option α) :
    ((h.setPrev a v) x).next = (h x).next := by
  unfold setPrev; rw [Function.update_apply]; split <;> simp_all

@[simp] theorem setNext_owner (h : ListHeap α ω) (a x : α) (v : Option α) :
    ((h.setNext a v) x).owner = (h x).owner := by
  unfold setNext; rw [Function.update_apply]; split <;> simp_all

@[simp] theorem setPrev_owner (h : ListHeap α ω) (a x : α) (v : Option α) :
    ((h.setPrev a v) x).owner = (h x).owner := by
  unfold setPrev; rw [Function.update_apply]; split <;> simp_all

@[simp] theorem setOwner_next (h : ListHeap α ω) (a x : α) (v : Option ω) :
    ((h.setOwner a v) x).next = (h x).next := by
  unfold setOwner; rw [Function.update_apply]; split <;> simp_all

@[simp] theorem setOwner_prev (h : ListHeap α ω) (a x : α) (v : Option ω) :
    ((h.setOwner a v) x).prev = (h x).prev := by
  unfold setOwner; rw [Function.update_apply]; split <;> simp_all

theorem setOwner_owner (h : ListHeap α ω) (a x : α) (v : Option ω) :
    ((h.setOwner a v) x).owner = if x = a then v else (h x).owner := by
  unfold setOwner; rw [Function.update_apply]; split <;> simp_all

end ListHeap

/-! ### list.c -/

/-- `init_list_head`; `self` is the list's own address as an owner pointer. -/
def initListHead (h : ListHeap α ω) (list : α) (self : ω) : ListHeap α ω :=
  ((h.setNext list (some list)).setPrev list (some list)).setOwner list (some self)

/-- `_list_add` -/
def listAddBetween (h : ListHeap α ω) (new prev next : α) : ListHeap α ω :=
  let h := h.setPrev next (some new)
  let h := h.setNext new (some next)
  let h := h.setPrev new (some prev)
  h.setNext prev (some new)

def listAdd (h : ListHeap α ω) (new head : α) : Option (ListHeap α ω) := do
  let next ← (h head).next
  some (listAddBetween h new head next)

def listAddTail (h : ListHeap α ω) (new head : α) : Option (ListHeap α ω) := do
  let prev ← (h head).prev
  some (listAddBetween h new prev head)

/-- `_list_del` -/
def listDelBetween (h : ListHeap α ω) (prev next : α) : ListHeap α ω :=
  let h := h.setPrev next (some prev)
  h.setNext prev (some next)

def listDel (h : ListHeap α ω) (entry : α) : Option (ListHeap α ω) := do
  let prev ← (h entry).prev
  let next ← (h entry).next
  let h := listDelBetween h prev next
  let h := h.setNext entry none
  some (h.setPrev entry none)

def listEmpty (h : ListHeap α ω) (head : α) : Bool :=
  (h head).next = some head

/-- The first `n` nodes met from `p` on, before `head`. -/
def listWalk (h : ListHeap α ω) (head : α) : Nat → α → List α
  | 0, _ => []
  | n + 1, p =>
      if p = head then []
      else
        match (h p).next with
        | none => [p]
        | some q => p :: listWalk h head n q

/-- The nodes of the list at `head`, as a reader of `next` sees them: at most `n`. -/
def listNodes (h : ListHeap α ω) (head : α) (n : Nat) : List α :=
  match (h head).next with
  | none => []
  | some p => listWalk h head n p

/-! ### Links after the pointer writes -/

theorem listAddBetween_next (h : ListHeap α ω) (new p n x : α) :
    ((listAddBetween h new p n) x).next =
      if x = p then some new else if x = new then some n else (h x).next := by
  simp [listAddBetween, ListHeap.setNext_next]

theorem listAddBetween_prev (h : ListHeap α ω) (new p n x : α) :
    ((listAddBetween h new p n) x).prev =
      if x = new then some p else if x = n then some new else (h x).prev := by
  simp [listAddBetween, ListHeap.setPrev_prev]

@[simp] theorem listAddBetween_owner (h : ListHeap α ω) (new p n x : α) :
    ((listAddBetween h new p n) x).owner = (h x).owner := by
  simp [listAddBetween]

/-- Nodes that are neither the new one nor its neighbours are not written. -/
theorem listAddBetween_frame {h : ListHeap α ω} {new p n x : α} (hnew : x ≠ new) (hp : x ≠ p)
    (hn : x ≠ n) : (listAddBetween h new p n) x = h x := by
  simp [listAddBetween, ListHeap.setNext, ListHeap.setPrev, Function.update_apply, *]

/-! ### The representation predicate -/

/-- The list at `head` holds the nodes `xs`, in this order. -/
def IsList (h : ListHeap α ω) (head : α) (xs : List α) : Prop :=
  IsRing (fun a => (h a).next) (fun a => (h a).prev) head xs

namespace IsList

variable {h h' : ListHeap α ω} {head new e : α} {xs l r : List α}

omit [DecidableEq α] in
theorem nodup (hl : IsList h head xs) : xs.Nodup := (List.nodup_cons.mp (IsRing.nodup hl)).2

omit [DecidableEq α] in
theorem head_notMem (hl : IsList h head xs) : head ∉ xs :=
  (List.nodup_cons.mp (IsRing.nodup hl)).1

omit [DecidableEq α] in
/-- A list depends only on its own nodes. -/
theorem congr (hl : IsList h head xs) (same : ∀ a ∈ head :: xs, h' a = h a) :
    IsList h' head xs :=
  IsRing.congr hl (fun a ha => by rw [same a ha]) (fun a ha => by rw [same a ha])

omit [DecidableEq α] in
theorem congr_links (hl : IsList h head xs)
    (same : ∀ a ∈ head :: xs, (h' a).next = (h a).next ∧ (h' a).prev = (h a).prev) :
    IsList h' head xs :=
  IsRing.congr hl (fun a ha => (same a ha).1) (fun a ha => (same a ha).2)

theorem initListHead (h : ListHeap α ω) (head : α) (self : ω) :
    IsList (WifiExpander.initListHead h head self) head [] :=
  IsRing.empty (by simp [WifiExpander.initListHead, ListHeap.setNext_next])
    (by simp [WifiExpander.initListHead, ListHeap.setPrev_prev])

theorem listEmpty_iff (hl : IsList h head xs) : listEmpty h head = true ↔ xs = [] := by
  rw [listEmpty, decide_eq_true_iff]
  exact IsRing.next_head_eq_iff hl

/-- Following `next` meets the nodes of the list. -/
theorem listNodes (hl : IsList h head xs) {n : Nat} (hn : xs.length ≤ n) :
    WifiExpander.listNodes h head n = xs := by
  have walk : ∀ {r l : List α} {n : Nat}, IsList h head (l ++ r) → r.length ≤ n →
      WifiExpander.listWalk h head n ((r ++ [head]).head (by simp)) = r := by
    intro r
    induction r with
    | nil =>
        intro l n _ _
        cases n <;> simp [WifiExpander.listWalk]
    | cons e r ih =>
        intro l n hl hn
        obtain ⟨n, rfl⟩ := Nat.exists_eq_succ_of_ne_zero (Nat.ne_zero_of_lt (Nat.lt_of_succ_le hn))
        have hne : e ≠ head := fun heq => hl.head_notMem (by simp [heq])
        have hnext := IsRing.next_of_split hl
        have hrest := ih (l := l ++ [e]) (n := n) (by simpa [IsList] using hl) (by simpa using hn)
        simp only [List.cons_append, List.head_cons, WifiExpander.listWalk, if_neg hne, hnext,
          hrest]
  unfold WifiExpander.listNodes
  rw [IsRing.next_head hl]
  exact walk (l := []) hl hn

/-- A node that is not on the list is put between two neighbours. Only the three are
written. -/
theorem listAddBetween {p n : α} {u v : List α} (hl : IsList h head (l ++ r))
    (fresh : new ∉ head :: (l ++ r)) (hp : head :: l = u ++ [p]) (hn : r ++ [head] = n :: v) :
    IsList (WifiExpander.listAddBetween h new p n) head (l ++ new :: r) ∧
      ∀ a, a ≠ new → a ∉ head :: (l ++ r) → WifiExpander.listAddBetween h new p n a = h a := by
  obtain ⟨pmem, nmem⟩ := mem_of_ends hp hn
  have pnew : new ≠ p := fun heq => fresh (heq ▸ pmem)
  have nnew : n ≠ new := fun heq => fresh (heq ▸ nmem)
  constructor
  · refine IsRing.insert (x := new) (p := p) (n := n) hl fresh hp hn ?_ ?_ ?_ ?_ ?_ ?_
    · simp [listAddBetween_next]
    · simp [listAddBetween_prev]
    · simp [listAddBetween_next, pnew]
    · simp [listAddBetween_prev, nnew]
    · intro a ha hap
      have : a ≠ new := fun heq => fresh (heq ▸ ha)
      simp [listAddBetween_next, hap, this]
    · intro a ha han
      have : a ≠ new := fun heq => fresh (heq ▸ ha)
      simp [listAddBetween_prev, han, this]
  · intro a hnew hmem
    exact listAddBetween_frame hnew (fun heq => hmem (heq ▸ pmem)) (fun heq => hmem (heq ▸ nmem))

/-- `list_add` puts a node that is not on the list before its first node. -/
theorem listAdd (hl : IsList h head xs) (fresh : new ∉ head :: xs) :
    ∃ h', WifiExpander.listAdd h new head = some h' ∧ IsList h' head (new :: xs) ∧
      (∀ a, (h' a).owner = (h a).owner) ∧ ∀ a, a ≠ new → a ∉ head :: xs → h' a = h a := by
  have hnext := IsRing.next_head hl
  set n := (xs ++ [head]).head (by simp)
  have hfirst : xs ++ [head] = n :: (xs ++ [head]).tail := (List.cons_head_tail (by simp)).symm
  have hl' : IsList h head ([] ++ xs) := hl
  obtain ⟨hlist, hframe⟩ := hl'.listAddBetween (u := []) fresh rfl hfirst
  refine ⟨WifiExpander.listAddBetween h new head n, ?_, hlist,
    fun a => listAddBetween_owner h new head n a, hframe⟩
  simp [WifiExpander.listAdd, hnext]

/-- `list_add_tail` appends a node that is not on the list. It writes only the
new node, the head and the last node. -/
theorem listAddTail (hl : IsList h head xs) (fresh : new ∉ head :: xs) :
    ∃ h', WifiExpander.listAddTail h new head = some h' ∧ IsList h' head (xs ++ [new]) ∧
      (∀ a, (h' a).owner = (h a).owner) ∧ ∀ a, a ≠ new → a ∉ head :: xs → h' a = h a := by
  have hprev := IsRing.prev_head hl
  set p := (head :: xs).getLast (by simp)
  have hlast : head :: xs = (head :: xs).dropLast ++ [p] :=
    (List.dropLast_append_getLast (by simp)).symm
  have hl' : IsList h head (xs ++ []) := by
    rw [List.append_nil]
    exact hl
  obtain ⟨hlist, hframe⟩ := hl'.listAddBetween (v := []) (by simpa using fresh) hlast rfl
  refine ⟨WifiExpander.listAddBetween h new p head, ?_, hlist,
    fun a => listAddBetween_owner h new p head a, by simpa using hframe⟩
  simp [WifiExpander.listAddTail, hprev]

/-- `list_del` takes a node off its list and clears its links. It writes only
nodes of the list. -/
theorem listDel (hl : IsList h head (l ++ e :: r)) :
    ∃ h', WifiExpander.listDel h e = some h' ∧ IsList h' head (l ++ r) ∧
      (h' e).next = none ∧ (h' e).prev = none ∧
      (∀ a, (h' a).owner = (h a).owner) ∧ ∀ a, a ∉ head :: (l ++ e :: r) → h' a = h a := by
  set p := (head :: l).getLast (by simp)
  set n := (r ++ [head]).head (by simp)
  have hplast : head :: l = (head :: l).dropLast ++ [p] :=
    (List.dropLast_append_getLast (by simp)).symm
  have hnfirst : r ++ [head] = n :: (r ++ [head]).tail := (List.cons_head_tail (by simp)).symm
  obtain ⟨pmem, nmem⟩ := mem_of_ends hplast hnfirst
  have hperm := cons_middle_perm head e l r
  have epos : e ∉ head :: (l ++ r) := (List.nodup_cons.mp (hperm.nodup_iff.mp (IsRing.nodup hl))).1
  have pe : p ≠ e := fun heq => epos (heq ▸ pmem)
  have ne : n ≠ e := fun heq => epos (heq ▸ nmem)
  have hnext : (h e).next = some n := IsRing.next_of_split hl
  have hprev : (h e).prev = some p :=
    (IsRing.linked_of_split (v := r ++ [head]) hl hplast rfl).2
  let h' := ((listDelBetween h p n).setNext e none).setPrev e none
  have next' : ∀ a, (h' a).next = if a = e then none else if a = p then some n else (h a).next := by
    intro a
    simp [h', listDelBetween, ListHeap.setNext_next]
  have prev' : ∀ a, (h' a).prev = if a = e then none else if a = n then some p else (h a).prev := by
    intro a
    simp [h', listDelBetween, ListHeap.setPrev_prev]
  refine ⟨h', by simp [WifiExpander.listDel, hnext, hprev, h'], ?_, by simp [next'],
    by simp [prev'], fun a => by simp [h', listDelBetween], ?_⟩
  · refine IsRing.remove (p := p) (n := n) hl hplast hnfirst ?_ ?_ ?_ ?_
    · simp [next', pe]
    · simp [prev', ne]
    · intro a ha hap
      have : a ≠ e := fun heq => epos (heq ▸ ha)
      simp [next', this, hap]
    · intro a ha han
      have : a ≠ e := fun heq => epos (heq ▸ ha)
      simp [prev', this, han]
  · intro a ha
    rw [hperm.mem_iff, List.mem_cons, not_or] at ha
    obtain ⟨hae, ha⟩ := ha
    have hap : a ≠ p := fun heq => ha (heq ▸ pmem)
    have han : a ≠ n := fun heq => ha (heq ▸ nmem)
    simp [h', listDelBetween, ListHeap.setNext, ListHeap.setPrev, Function.update_apply, hae, hap,
      han]

/-- `list_del` of any node of the list. -/
theorem listDel_of_mem (hl : IsList h head xs) (he : e ∈ xs) :
    ∃ h', WifiExpander.listDel h e = some h' ∧ IsList h' head (xs.erase e) ∧
      (h' e).next = none ∧ (h' e).prev = none ∧
      (∀ a, (h' a).owner = (h a).owner) ∧ ∀ a, a ∉ head :: xs → h' a = h a := by
  obtain ⟨l, r, rfl⟩ := List.append_of_mem he
  rw [erase_of_nodup_split hl.nodup]
  exact hl.listDel

/-- The functions of `list.c` are the operations on a finite sequence, whatever its
length. -/
theorem implements_sequence (hl : IsList h head xs) :
    (∀ new, new ∉ head :: xs → ∃ h', WifiExpander.listAdd h new head = some h' ∧
      IsList h' head (new :: xs) ∧
      (∀ a, (h' a).owner = (h a).owner) ∧ ∀ a, a ≠ new → a ∉ head :: xs → h' a = h a) ∧
    (∀ new, new ∉ head :: xs → ∃ h', WifiExpander.listAddTail h new head = some h' ∧
      IsList h' head (xs ++ [new]) ∧
      (∀ a, (h' a).owner = (h a).owner) ∧ ∀ a, a ≠ new → a ∉ head :: xs → h' a = h a) ∧
    (∀ e ∈ xs, ∃ h', WifiExpander.listDel h e = some h' ∧ IsList h' head (xs.erase e) ∧
      (h' e).next = none ∧ (h' e).prev = none ∧
      (∀ a, (h' a).owner = (h a).owner) ∧ ∀ a, a ∉ head :: xs → h' a = h a) ∧
    (WifiExpander.listEmpty h head = true ↔ xs = []) := by
  refine ⟨?_, ?_, ?_, hl.listEmpty_iff⟩
  · intro new fresh
    exact hl.listAdd fresh
  · intro new fresh
    exact hl.listAddTail fresh
  · intro e he
    exact hl.listDel_of_mem he

end IsList

/-- The nodes 1 and 2 on the list at 0; the other nodes are on no list. -/
def twoNodes : ListHeap Nat Unit
  | 0 => ⟨some 1, some 2, some ()⟩
  | 1 => ⟨some 2, some 0, none⟩
  | 2 => ⟨some 0, some 1, none⟩
  | _ => ⟨none, none, none⟩

theorem implements_sequence_twoNodes :
    (∃ h, listAdd twoNodes 3 0 = some h ∧ IsList h 0 [3, 1, 2]) ∧
      (∃ h, listAddTail twoNodes 3 0 = some h ∧ IsList h 0 [1, 2, 3]) ∧
      (∃ h, listDel twoNodes 1 = some h ∧ IsList h 0 [2]) ∧ listEmpty twoNodes 0 = false := by
  have htwo : IsList twoNodes 0 [1, 2] := ⟨by decide, by simp [Linked, twoNodes]⟩
  obtain ⟨hadd, htail, hdel, hempty⟩ := IsList.implements_sequence htwo
  obtain ⟨h₁, hrun₁, hlist₁, -⟩ := hadd 3 (by decide)
  obtain ⟨h₂, hrun₂, hlist₂, -⟩ := htail 3 (by decide)
  obtain ⟨h₃, hrun₃, hlist₃, -⟩ := hdel 1 (by decide)
  refine ⟨⟨h₁, hrun₁, hlist₁⟩, ⟨h₂, hrun₂, hlist₂⟩, ⟨h₃, hrun₃, hlist₃⟩, ?_⟩
  rw [Bool.eq_false_iff]
  intro h
  cases hempty.mp h

/-! ### Runs of calls -/

/-- A call that changes the list. -/
inductive ListOp (α : Type) where
  | add (new : α)
  | addTail (new : α)
  | del (entry : α)

namespace ListOp

def operand : ListOp α → α
  | .add a | .addTail a | .del a => a

/-- The call on the list at `head`. -/
def exec (head : α) (h : ListHeap α ω) : ListOp α → Option (ListHeap α ω)
  | .add new => listAdd h new head
  | .addTail new => listAddTail h new head
  | .del entry => listDel h entry

/-- What the call is for: only a node that is not on the list is put on it, and only
one that is on it is taken off. -/
def apply (head : α) (xs : List α) : ListOp α → Option (List α)
  | .add new => if new ∈ head :: xs then none else some (new :: xs)
  | .addTail new => if new ∈ head :: xs then none else some (xs ++ [new])
  | .del entry => if entry ∈ xs then some (xs.erase entry) else none

def heapMachine (head : α) : Machine (ListHeap α ω) (ListOp α) := ⟨exec head⟩

def seqMachine (head : α) : Machine (List α) (ListOp α) := ⟨apply head⟩

variable {h : ListHeap α ω} {head : α} {xs ys : List α}

/-- One call. -/
theorem exec_of_apply {op : ListOp α} (hl : IsList h head xs)
    (happly : apply head xs op = some ys) :
    ∃ h', exec head h op = some h' ∧ IsList h' head ys ∧
      (∀ a, (h' a).owner = (h a).owner) ∧
      ∀ a, a ≠ op.operand → a ∉ head :: xs → h' a = h a := by
  cases op with
  | add new =>
      by_cases hmem : new ∈ head :: xs
      · simp [apply, hmem] at happly
      · simp only [apply, if_neg hmem, Option.some.injEq] at happly
        exact happly ▸ hl.listAdd hmem
  | addTail new =>
      by_cases hmem : new ∈ head :: xs
      · simp [apply, hmem] at happly
      · simp only [apply, if_neg hmem, Option.some.injEq] at happly
        exact happly ▸ hl.listAddTail hmem
  | del entry =>
      by_cases hmem : entry ∈ xs
      · simp only [apply, if_pos hmem, Option.some.injEq] at happly
        obtain ⟨h', hdel, hlist, -, -, howner, hframe⟩ := hl.listDel_of_mem hmem
        exact ⟨h', hdel, happly ▸ hlist, howner, fun a _ ha => hframe a ha⟩
      · simp [apply, hmem] at happly

theorem mem_of_apply {op : ListOp α} {a : α} (happly : apply head xs op = some ys)
    (ha : a ∈ ys) : a = op.operand ∨ a ∈ xs := by
  cases op with
  | add new =>
      simp only [apply, Option.ite_none_left_eq_some, Option.some.injEq] at happly
      obtain ⟨-, rfl⟩ := happly
      exact List.mem_cons.mp ha
  | addTail new =>
      simp only [apply, Option.ite_none_left_eq_some, Option.some.injEq] at happly
      obtain ⟨-, rfl⟩ := happly
      rcases List.mem_append.mp ha with ha | ha
      · exact .inr ha
      · exact .inl (List.mem_singleton.mp ha)
  | del entry =>
      simp only [apply, Option.ite_none_right_eq_some, Option.some.injEq] at happly
      obtain ⟨-, rfl⟩ := happly
      exact .inr (List.mem_of_mem_erase ha)

/-- **Every run of calls on the sequence is a run of calls on the heap.** -/
theorem run_of_run {ops : List (ListOp α)} (hl : IsList h head xs)
    (hrun : (seqMachine head).run xs ops = some ys) :
    ∃ h', (heapMachine head).run h ops = some h' ∧ IsList h' head ys ∧
      (∀ a, (h' a).owner = (h a).owner) ∧
      ∀ a, a ∉ ops.map operand → a ∉ head :: xs → h' a = h a := by
  induction ops generalizing h xs with
  | nil =>
      cases hrun
      exact ⟨h, rfl, hl, fun _ => rfl, fun _ _ _ => rfl⟩
  | cons op ops ih =>
      obtain ⟨zs, hstep, hrest⟩ := Machine.run_cons.mp hrun
      obtain ⟨h₁, hexec, hl₁, howner₁, hframe₁⟩ := exec_of_apply hl hstep
      obtain ⟨h', hrun', hl', howner', hframe'⟩ := ih hl₁ hrest
      refine ⟨h', Machine.run_cons.mpr ⟨h₁, hexec, hrun'⟩, hl', ?_, ?_⟩
      · intro a
        exact (howner' a).trans (howner₁ a)
      · intro a hops ha
        rw [List.map_cons, List.mem_cons, not_or] at hops
        rw [List.mem_cons, not_or] at ha
        have hzs : a ∉ head :: zs := by
          intro hmem
          rcases List.mem_cons.mp hmem with heq | hmem
          · exact ha.1 heq
          · rcases mem_of_apply hstep hmem with heq | hmem
            · exact hops.1 heq
            · exact ha.2 hmem
        rw [hframe' a hops.2 hzs]
        exact hframe₁ a hops.1 (by simp [ha.1, ha.2])

end ListOp

end WifiExpander
