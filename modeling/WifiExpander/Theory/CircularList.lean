import Mathlib.Data.List.Chain
import Mathlib.Data.List.Nodup

/-!
Circular doubly linked lists with a head node, over arbitrary addresses.

A list is a pair of link maps `next prev : α → Option α`. `IsRing next prev h xs`
says that the links run `h, xs, h` in both directions through distinct nodes.
Insertion between two neighbours and removal of a node are stated for any new
link maps that differ from the old ones only where the pointer writes go, so a
program is related to them by comparing its writes, not by its code.
-/

namespace WifiExpander.Theory

variable {α : Type}

/-! ### Splitting a list without repetitions -/

theorem notMem_of_nodup_split {a : α} {l r : List α} (h : (l ++ a :: r).Nodup) :
    a ∉ l ∧ a ∉ r := by
  rw [List.nodup_middle, List.nodup_cons, List.mem_append, not_or] at h
  exact h.1

theorem erase_of_nodup_split [DecidableEq α] {a : α} {l r : List α} (h : (l ++ a :: r).Nodup) :
    (l ++ a :: r).erase a = l ++ r := by
  rw [List.erase_append_right _ (notMem_of_nodup_split h).1, List.erase_cons_head]

/-- A node moved from the middle to the front. -/
theorem cons_middle_perm (h x : α) (l r : List α) :
    (h :: (l ++ x :: r)).Perm (x :: h :: (l ++ r)) :=
  (List.Perm.cons h List.perm_middle).trans (List.Perm.swap x h (l ++ r))

/-- The last node before a split and the first one after it, in a circle through `h`. -/
theorem mem_of_ends {h p n : α} {l r u v : List α} (hp : h :: l = u ++ [p])
    (hn : r ++ [h] = n :: v) : p ∈ h :: (l ++ r) ∧ n ∈ h :: (l ++ r) := by
  have pmem : p ∈ h :: l := by
    rw [hp]
    exact List.mem_append_right u List.mem_cons_self
  have nmem : n ∈ r ++ [h] := by
    rw [hn]
    exact List.mem_cons_self
  constructor
  · rw [← List.cons_append]
    exact List.mem_append_left r pmem
  · rcases List.mem_append.mp nmem with hr | hh
    · exact List.mem_cons_of_mem h (List.mem_append_right l hr)
    · exact List.mem_cons.mpr (.inl (List.mem_singleton.mp hh))

/-! ### Rings -/

/-- `b` follows `a` in both directions. -/
def Linked (next prev : α → Option α) (a b : α) : Prop :=
  next a = some b ∧ prev b = some a

/-- The ring through `head` and the nodes `xs`, in this order. -/
structure IsRing (next prev : α → Option α) (head : α) (xs : List α) : Prop where
  nodup : (head :: xs).Nodup
  chain : (head :: (xs ++ [head])).IsChain (Linked next prev)

namespace IsRing

variable {next prev next' prev' : α → Option α} {head e p n x : α} {xs l r u v : List α}

/-- The links at a split of the ring. -/
theorem linked_of_split (h : IsRing next prev head (l ++ r))
    (hp : head :: l = u ++ [p]) (hn : r ++ [head] = n :: v) : Linked next prev p n := by
  have hsplit : head :: (l ++ r ++ [head]) = u ++ p :: n :: v := by
    rw [List.append_assoc, ← List.cons_append, hp, hn]; simp
  have hc := h.chain
  rw [hsplit] at hc
  exact (List.isChain_append_cons_cons.mp hc).2.1

theorem next_of_split (h : IsRing next prev head (l ++ e :: r)) :
    next e = some ((r ++ [head]).head (by simp)) := by
  have h' : IsRing next prev head ((l ++ [e]) ++ r) := by simpa using h
  obtain ⟨n, v, hn⟩ : ∃ n v, r ++ [head] = n :: v := by
    cases r <;> simp
  have := h'.linked_of_split (u := head :: l) (p := e) (by simp) hn
  simpa [hn] using this.1

theorem next_head (h : IsRing next prev head xs) :
    next head = some ((xs ++ [head]).head (by simp)) := by
  obtain ⟨n, v, hn⟩ : ∃ n v, xs ++ [head] = n :: v := by
    cases xs <;> simp
  have := linked_of_split (l := []) (r := xs) h (u := []) (p := head) rfl hn
  simpa [hn] using this.1

theorem prev_head (h : IsRing next prev head xs) :
    prev head = some ((head :: xs).getLast (by simp)) := by
  have hp : head :: xs = (head :: xs).dropLast ++ [(head :: xs).getLast (by simp)] :=
    (List.dropLast_append_getLast (by simp)).symm
  have h' : IsRing next prev head (xs ++ []) := by simpa using h
  exact (h'.linked_of_split hp (v := []) rfl).2

/-- The head follows itself exactly when the ring has no other node. -/
theorem next_head_eq_iff (h : IsRing next prev head xs) : next head = some head ↔ xs = [] := by
  rw [h.next_head]
  cases xs with
  | nil => simp
  | cons x xs =>
      have : x ≠ head := fun hx => (List.nodup_cons.mp h.nodup).1 (by simp [hx])
      simp [this]

theorem empty (hn : next head = some head) (hp : prev head = some head) :
    IsRing next prev head [] :=
  ⟨by simp, by simp [Linked, hn, hp]⟩

/-- Only the links of the ring's own nodes matter. -/
theorem congr (h : IsRing next prev head xs)
    (hnext : ∀ a ∈ head :: xs, next' a = next a) (hprev : ∀ a ∈ head :: xs, prev' a = prev a) :
    IsRing next' prev' head xs := by
  refine ⟨h.nodup, h.chain.imp_of_mem_imp ?_⟩
  intro a b ha hb hab
  have mem : ∀ c, c ∈ head :: (xs ++ [head]) → c ∈ head :: xs := by
    intro c hc; simp at hc ⊢; tauto
  exact ⟨(hnext a (mem a ha)).trans hab.1, (hprev b (mem b hb)).trans hab.2⟩

/-- In a list without repetitions ending in `p`, a node with a successor is not `p`. -/
private theorem ne_last {a b : α} {l₁ l₂ : List α} (nd : (u ++ [p]).Nodup)
    (eq : u ++ [p] = l₁ ++ a :: b :: l₂) : a ≠ p := by
  rintro rfl
  have hlast : (b :: l₂).getLast (by simp) = a := by
    have := congrArg List.getLast? eq
    simp [List.getLast?_append, List.getLast?_cons_cons] at this
    rw [List.getLast?_eq_some_getLast (by simp : b :: l₂ ≠ [])] at this
    simpa using this.symm
  rw [eq] at nd
  have : a ∈ b :: l₂ := hlast ▸ List.getLast_mem _
  exact (notMem_of_nodup_split nd).2 this

/-- In a list without repetitions beginning with `h`, a successor is not `h`. -/
private theorem ne_first {h a b : α} {t l₁ l₂ : List α} (nd : (h :: t).Nodup)
    (eq : h :: t = l₁ ++ a :: b :: l₂) : b ≠ h := by
  rintro rfl
  cases l₁ with
  | nil =>
      simp only [List.nil_append, List.cons.injEq] at eq
      obtain ⟨rfl, rfl⟩ := eq
      simp at nd
  | cons x l₁ =>
      simp only [List.cons_append, List.cons.injEq] at eq
      obtain ⟨rfl, rfl⟩ := eq
      simp at nd

/-- The nodes up to `p` keep their links when the maps change only at the ends. -/
private theorem left_part (nd : (head :: l).Nodup) (hp : head :: l = u ++ [p])
    (chain : (u ++ [p]).IsChain (Linked next prev))
    (hnext : ∀ a ∈ head :: l, a ≠ p → next' a = next a) (hprev : ∀ a ∈ l, prev' a = prev a) :
    (u ++ [p]).IsChain (Linked next' prev') := by
  rw [List.isChain_iff_forall_rel_of_append_cons_cons] at chain ⊢
  intro a b l₁ l₂ eq
  obtain ⟨hab, hba⟩ := chain eq
  have ha : a ∈ head :: l := by rw [hp, eq]; simp
  have hb : b ∈ head :: l := by rw [hp, eq]; simp
  have hbl : b ∈ l := by simpa [ne_first nd (hp.trans eq)] using hb
  exact ⟨(hnext a ha (ne_last (hp ▸ nd) eq)).trans hab, (hprev b hbl).trans hba⟩

/-- The nodes from `n` on keep their links when the maps change only at the ends. -/
private theorem right_part (nd : (head :: r).Nodup) (hn : r ++ [head] = n :: v)
    (chain : (n :: v).IsChain (Linked next prev))
    (hnext : ∀ a ∈ r, next' a = next a) (hprev : ∀ a ∈ head :: r, a ≠ n → prev' a = prev a) :
    (n :: v).IsChain (Linked next' prev') := by
  have ndr : (r ++ [head]).Nodup := by
    rw [List.perm_append_comm.nodup_iff]
    exact nd
  rw [List.isChain_iff_forall_rel_of_append_cons_cons] at chain ⊢
  intro a b l₁ l₂ eq
  obtain ⟨hab, hba⟩ := chain eq
  have ha : a ∈ r := by
    have hmem : a ∈ r ++ [head] := by rw [hn, eq]; simp
    simpa [ne_last ndr (hn.trans eq)] using hmem
  have hb : b ∈ head :: r := by
    have hmem : b ∈ r ++ [head] := by rw [hn, eq]; simp
    simp at hmem ⊢; tauto
  exact ⟨(hnext a ha).trans hab, (hprev b hb (ne_first (hn ▸ ndr) eq)).trans hba⟩

/-- The ends of the two parts of a ring belong to different parts, the head apart. -/
private theorem ends_apart (nd : (head :: (l ++ r)).Nodup) (hp : head :: l = u ++ [p])
    (hn : r ++ [head] = n :: v) : n ∉ l ∧ p ∉ r := by
  have nmem : n ∈ r ++ [head] := by rw [hn]; simp
  have pmem : p ∈ head :: l := by rw [hp]; simp
  have nodup := List.nodup_cons.mp nd
  have disj : ∀ a ∈ l, ∀ b ∈ r, a ≠ b := (List.nodup_append.mp nodup.2).2.2
  constructor
  · intro hl
    rcases List.mem_append.mp nmem with hr | hh
    · exact disj n hl n hr rfl
    · exact nodup.1 (by simp [List.mem_singleton.mp hh ▸ hl])
  · intro hr
    rcases List.mem_cons.mp pmem with hh | hl
    · exact nodup.1 (by simp [hh ▸ hr])
    · exact disj p hl p hr rfl

/-- **Insertion** of a node between the neighbours `p` and `n`. -/
theorem insert (h : IsRing next prev head (l ++ r)) (fresh : x ∉ head :: (l ++ r))
    (hp : head :: l = u ++ [p]) (hn : r ++ [head] = n :: v)
    (np : next' p = some x) (px : prev' x = some p)
    (nx : next' x = some n) (pn : prev' n = some x)
    (hnext : ∀ a ∈ head :: (l ++ r), a ≠ p → next' a = next a)
    (hprev : ∀ a ∈ head :: (l ++ r), a ≠ n → prev' a = prev a) :
    IsRing next' prev' head (l ++ x :: r) := by
  obtain ⟨hnl, hpr⟩ := ends_apart h.nodup hp hn
  have hc : (head :: (l ++ r ++ [head])).IsChain (Linked next prev) := h.chain
  have hold : head :: (l ++ r ++ [head]) = u ++ p :: n :: v := by
    rw [List.append_assoc, ← List.cons_append, hp, hn]; simp
  have hnew : head :: (l ++ x :: r ++ [head]) = u ++ p :: x :: n :: v := by
    rw [List.append_assoc, ← List.cons_append, hp, List.cons_append, hn]; simp
  rw [hold, List.isChain_append_cons_cons] at hc
  constructor
  · rw [(cons_middle_perm head x l r).nodup_iff, List.nodup_cons]
    exact ⟨fresh, h.nodup⟩
  · rw [hnew, List.isChain_append_cons_cons, List.isChain_cons_cons]
    refine ⟨left_part (h.nodup.sublist (by simp)) hp hc.1 ?_ ?_, ⟨np, px⟩, ⟨nx, pn⟩,
      right_part (h.nodup.sublist (by simp)) hn hc.2.2 ?_ ?_⟩
    · exact fun a ha => hnext a (by simp at ha ⊢; tauto)
    · exact fun a ha => hprev a (by simp [ha]) fun heq => hnl (heq ▸ ha)
    · exact fun a ha => hnext a (by simp [ha]) fun heq => hpr (heq ▸ ha)
    · exact fun a ha => hprev a (by simp at ha ⊢; tauto)

/-- **Removal** of the node `e` between the neighbours `p` and `n`. -/
theorem remove (h : IsRing next prev head (l ++ e :: r))
    (hp : head :: l = u ++ [p]) (hn : r ++ [head] = n :: v)
    (np : next' p = some n) (pn : prev' n = some p)
    (hnext : ∀ a ∈ head :: (l ++ r), a ≠ p → next' a = next a)
    (hprev : ∀ a ∈ head :: (l ++ r), a ≠ n → prev' a = prev a) :
    IsRing next' prev' head (l ++ r) := by
  have nd : (head :: (l ++ r)).Nodup := h.nodup.sublist (by simp)
  obtain ⟨hnl, hpr⟩ := ends_apart nd hp hn
  have hc : (head :: (l ++ e :: r ++ [head])).IsChain (Linked next prev) := h.chain
  have hold : head :: (l ++ e :: r ++ [head]) = u ++ p :: e :: n :: v := by
    rw [List.append_assoc, ← List.cons_append, hp, List.cons_append, hn]; simp
  have hnew : head :: (l ++ r ++ [head]) = u ++ p :: n :: v := by
    rw [List.append_assoc, ← List.cons_append, hp, hn]; simp
  rw [hold, List.isChain_append_cons_cons, List.isChain_cons_cons] at hc
  refine ⟨nd, ?_⟩
  rw [hnew, List.isChain_append_cons_cons]
  refine ⟨left_part (nd.sublist (by simp)) hp hc.1 ?_ ?_, ⟨np, pn⟩,
    right_part (nd.sublist (by simp)) hn hc.2.2.2 ?_ ?_⟩
  · exact fun a ha => hnext a (by simp at ha ⊢; tauto)
  · exact fun a ha => hprev a (by simp [ha]) fun heq => hnl (heq ▸ ha)
  · exact fun a ha => hnext a (by simp [ha]) fun heq => hpr (heq ▸ ha)
  · exact fun a ha => hprev a (by simp at ha ⊢; tauto)

end IsRing

end WifiExpander.Theory
