import Mathlib.Data.List.Nodup
import Mathlib.Logic.Function.Basic

/-!
Singly linked chains that share one pool of nodes.

`Chain next p xs` says that the links from `p` run through `xs` and then end.
A family of chains, one for each place, has no node twice: `Chains` keeps this
with the head of each chain, and every pointer operation of a pool with several
queues (take the first node, put a node in front or at the end, move a whole
chain) is one rule.
-/

namespace WifiExpander.Theory

variable {ι κ : Type} {next : ι → Option ι}

/-- The links from `p` run through `xs` and end. -/
def Chain (next : ι → Option ι) : Option ι → List ι → Prop
  | p, [] => p = none
  | p, x :: xs => p = some x ∧ Chain next (next x) xs

/-- At most `n` nodes from `p` on. -/
def walk (next : ι → Option ι) : Nat → Option ι → List ι
  | 0, _ => []
  | _ + 1, none => []
  | n + 1, some x => x :: walk next n (next x)

namespace Chain

variable {p q : Option ι} {x l : ι} {xs ys : List ι}

theorem walk_length (h : Chain next p xs) : walk next xs.length p = xs := by
  induction xs generalizing p with
  | nil => rfl
  | cons x xs ih =>
      obtain ⟨rfl, hrest⟩ := h
      rw [List.length_cons, walk, ih hrest]

theorem head_eq (h : Chain next p xs) : p = xs.head? := by
  cases xs with
  | nil => exact h
  | cons x xs => exact h.1

/-- The links determine the nodes. -/
theorem unique (h : Chain next p xs) (h' : Chain next p ys) : xs = ys := by
  induction xs generalizing p ys with
  | nil =>
      cases ys with
      | nil => rfl
      | cons y ys => exact absurd (h.symm.trans h'.1) (by simp)
  | cons x xs ih =>
      cases ys with
      | nil => exact absurd (h'.symm.trans h.1) (by simp)
      | cons y ys =>
          obtain rfl : x = y := Option.some.inj (h.1.symm.trans h'.1)
          rw [ih h.2 h'.2]

variable [DecidableEq ι]

/-- A link that is not on the chain may change. -/
theorem update_of_notMem (h : Chain next p xs) (hx : x ∉ xs) :
    Chain (Function.update next x q) p xs := by
  induction xs generalizing p with
  | nil => exact h
  | cons y ys ih =>
      obtain ⟨hp, hrest⟩ := h
      rw [List.mem_cons, not_or] at hx
      constructor
      · exact hp
      · rw [Function.update_of_ne (Ne.symm hx.1)]
        exact ih hrest hx.2

/-- A chain in front of another: the last link is redirected. -/
theorem splice (h : Chain next p (xs ++ [l])) (hl : l ∉ xs) (hr : Chain next q ys)
    (hlr : l ∉ ys) : Chain (Function.update next l q) p (xs ++ l :: ys) := by
  induction xs generalizing p with
  | nil =>
      constructor
      · exact h.1
      · rw [Function.update_self]
        exact hr.update_of_notMem hlr
  | cons y xs ih =>
      obtain ⟨hp, hrest⟩ := h
      rw [List.mem_cons, not_or] at hl
      constructor
      · exact hp
      · rw [Function.update_of_ne (Ne.symm hl.1)]
        exact ih hrest hl.2

end Chain

/-! ### Several chains in one pool -/

/-- The chain at each place, no node on two of them or twice on one. -/
structure Chains (next : ι → Option ι) (head : κ → Option ι) (nodes : κ → List ι) : Prop where
  chain : ∀ c, Chain next (head c) (nodes c)
  nodup : ∀ c, (nodes c).Nodup
  disjoint : ∀ c d x, x ∈ nodes c → x ∈ nodes d → c = d

namespace Chains

variable {head : κ → Option ι} {nodes : κ → List ι} {c d : κ} {x l : ι} {xs : List ι}

theorem head_eq (h : Chains next head nodes) (c : κ) : head c = (nodes c).head? :=
  (h.chain c).head_eq

theorem notMem_of_ne (h : Chains next head nodes) (hx : x ∈ nodes c) (hd : d ≠ c) :
    x ∉ nodes d :=
  fun hmem => hd (h.disjoint d c x hmem hx)

variable [DecidableEq κ]

/-- The first node of a chain is taken off it. -/
theorem pop (h : Chains next head nodes) (hc : nodes c = x :: xs) :
    Chains next (Function.update head c (next x)) (Function.update nodes c xs) ∧
      ∀ d, x ∉ Function.update nodes c xs d := by
  have hsub : ∀ d y, y ∈ Function.update nodes c xs d → y ∈ nodes d := by
    intro d y hy
    by_cases hd : d = c
    · subst hd
      rw [Function.update_self] at hy
      rw [hc]
      exact List.mem_cons_of_mem x hy
    · rwa [Function.update_of_ne hd] at hy
  have hnodup := h.nodup c
  rw [hc, List.nodup_cons] at hnodup
  constructor
  · constructor
    · intro d
      by_cases hd : d = c
      · subst hd
        have hchain := h.chain d
        rw [hc] at hchain
        simpa using hchain.2
      · simpa [hd] using h.chain d
    · intro d
      by_cases hd : d = c
      · subst hd
        simpa using hnodup.2
      · simpa [hd] using h.nodup d
    · intro d e y hyd hye
      exact h.disjoint d e y (hsub d y hyd) (hsub e y hye)
  · intro d hmem
    by_cases hd : d = c
    · subst hd
      rw [Function.update_self] at hmem
      exact hnodup.1 hmem
    · exact h.notMem_of_ne (c := c) (by simp [hc]) hd (hsub d x hmem)

/-- The nodes of a place with a loose one among them stay apart from the others. -/
private theorem apart_insert (h : Chains next head nodes) (hx : ∀ d, x ∉ nodes d)
    {xs' : List ι} (hmem : ∀ y, y ∈ xs' → y = x ∨ y ∈ nodes c) :
    ∀ d e y, y ∈ Function.update nodes c xs' d → y ∈ Function.update nodes c xs' e →
      d = e := by
  intro d e y hyd hye
  by_cases hd : d = c
  · by_cases he : e = c
    · rw [hd, he]
    · subst hd
      rw [Function.update_self] at hyd
      rw [Function.update_of_ne he] at hye
      obtain rfl | hy := hmem y hyd
      · exact absurd hye (hx e)
      · exact h.disjoint d e y hy hye
  · rw [Function.update_of_ne hd] at hyd
    by_cases he : e = c
    · subst he
      rw [Function.update_self] at hye
      obtain rfl | hy := hmem y hye
      · exact absurd hyd (hx d)
      · exact h.disjoint d e y hyd hy
    · rw [Function.update_of_ne he] at hye
      exact h.disjoint d e y hyd hye

/-- The nodes that are somewhere stay when the first of a chain moves to another. -/
theorem mem_move (hc : nodes c = x :: xs) (hcd : c ≠ d) {ys : List ι}
    (hys : ∀ y, y ∈ ys ↔ y = x ∨ y ∈ nodes d) (y : ι) :
    (∃ e, y ∈ Function.update (Function.update nodes c xs) d ys e) ↔ ∃ e, y ∈ nodes e := by
  constructor
  · rintro ⟨e, he⟩
    by_cases hed : e = d
    · subst hed
      rw [Function.update_self] at he
      obtain rfl | hy := (hys y).mp he
      · exact ⟨c, by simp [hc]⟩
      · exact ⟨e, hy⟩
    · rw [Function.update_of_ne hed] at he
      by_cases hec : e = c
      · subst hec
        rw [Function.update_self] at he
        exact ⟨e, by simp [hc, he]⟩
      · rw [Function.update_of_ne hec] at he
        exact ⟨e, he⟩
  · rintro ⟨e, he⟩
    by_cases hed : e = d
    · subst hed
      exact ⟨e, by simpa using (hys y).mpr (.inr he)⟩
    · by_cases hec : e = c
      · subst hec
        rw [hc, List.mem_cons] at he
        obtain rfl | hy := he
        · exact ⟨d, by simpa using (hys y).mpr (.inl rfl)⟩
        · exact ⟨e, by simpa [hed] using hy⟩
      · exact ⟨e, by simpa [hed, hec] using he⟩

variable [DecidableEq ι]

/-- A loose node becomes the first of a chain. -/
theorem push (h : Chains next head nodes) (hx : ∀ d, x ∉ nodes d) :
    Chains (Function.update next x (head c)) (Function.update head c (some x))
      (Function.update nodes c (x :: nodes c)) := by
  constructor
  · intro d
    by_cases hd : d = c
    · subst hd
      rw [Function.update_self, Function.update_self]
      constructor
      · rfl
      · rw [Function.update_self]
        exact (h.chain d).update_of_notMem (hx d)
    · rw [Function.update_of_ne hd, Function.update_of_ne hd]
      exact (h.chain d).update_of_notMem (hx d)
  · intro d
    by_cases hd : d = c
    · subst hd
      rw [Function.update_self]
      exact List.nodup_cons.mpr ⟨hx d, h.nodup d⟩
    · rw [Function.update_of_ne hd]
      exact h.nodup d
  · exact h.apart_insert hx fun y hy => List.mem_cons.mp hy

/-- A loose node becomes the last of a chain. -/
theorem pushBack (h : Chains next head nodes) (hc : nodes c = xs ++ [l])
    (hx : ∀ d, x ∉ nodes d) :
    Chains (Function.update (Function.update next l (some x)) x none) head
      (Function.update nodes c (xs ++ [l, x])) := by
  have hl : l ∈ nodes c := by simp [hc]
  have hxl : x ≠ l := by
    rintro rfl
    exact hx c hl
  have hnodup := h.nodup c
  rw [hc] at hnodup
  have hlxs : l ∉ xs := by
    rw [List.nodup_append] at hnodup
    intro hmem
    exact hnodup.2.2 l hmem l (List.mem_singleton_self l) rfl
  constructor
  · intro d
    by_cases hd : d = c
    · subst hd
      rw [Function.update_self, Function.update_comm (Ne.symm hxl)]
      have hchain := h.chain d
      rw [hc] at hchain
      have hone : Chain (Function.update next x none) (some x) [x] := by
        simp [Chain]
      exact (hchain.update_of_notMem (hc ▸ hx d)).splice hlxs hone (by simpa using Ne.symm hxl)
    · rw [Function.update_of_ne hd]
      exact ((h.chain d).update_of_notMem (h.notMem_of_ne hl hd)).update_of_notMem (hx d)
  · intro d
    by_cases hd : d = c
    · subst hd
      rw [Function.update_self]
      have hxd := hx d
      rw [hc] at hxd
      have happ : (xs ++ [l]) ++ [x] = xs ++ [l, x] := by simp
      rw [← happ, List.nodup_append]
      refine ⟨hnodup, List.nodup_singleton x, ?_⟩
      rintro y hy z hz rfl
      rw [List.mem_singleton] at hz
      exact hxd (hz ▸ hy)
    · rw [Function.update_of_ne hd]
      exact h.nodup d
  · apply h.apart_insert hx
    intro y hy
    rw [hc]
    simp only [List.mem_append, List.mem_cons, List.not_mem_nil, or_false] at hy ⊢
    tauto

/-- A whole chain is put in front of another. -/
theorem splice (h : Chains next head nodes) (hcd : c ≠ d) (hc : nodes c = xs ++ [l]) :
    Chains (Function.update next l (head d))
      (Function.update (Function.update head d (head c)) c none)
      (Function.update (Function.update nodes d (nodes c ++ nodes d)) c []) := by
  have hl : l ∈ nodes c := by simp [hc]
  have hnodup := h.nodup c
  rw [hc, List.nodup_append] at hnodup
  have hlxs : l ∉ xs := fun hmem => hnodup.2.2 l hmem l (List.mem_singleton_self l) rfl
  -- where each node was before
  have hwas : ∀ e y, y ∈ Function.update (Function.update nodes d (nodes c ++ nodes d)) c [] e →
      e ≠ c ∧ (y ∈ nodes e ∨ e = d ∧ y ∈ nodes c) := by
    intro e y hy
    by_cases hec : e = c
    · subst hec
      simp at hy
    · rw [Function.update_of_ne hec] at hy
      by_cases hed : e = d
      · subst hed
        rw [Function.update_self, List.mem_append] at hy
        tauto
      · rw [Function.update_of_ne hed] at hy
        exact ⟨hec, .inl hy⟩
  constructor
  · intro e
    by_cases hec : e = c
    · subst hec
      simp [Chain]
    · rw [Function.update_of_ne hec, Function.update_of_ne hec]
      by_cases hed : e = d
      · subst hed
        rw [Function.update_self, Function.update_self, hc, List.append_assoc]
        have hchain := h.chain c
        rw [hc] at hchain
        exact hchain.splice hlxs (h.chain e) (h.notMem_of_ne hl hec)
      · rw [Function.update_of_ne hed, Function.update_of_ne hed]
        exact (h.chain e).update_of_notMem (h.notMem_of_ne hl hec)
  · intro e
    by_cases hec : e = c
    · subst hec
      simp
    · rw [Function.update_of_ne hec]
      by_cases hed : e = d
      · subst hed
        rw [Function.update_self, List.nodup_append]
        refine ⟨h.nodup c, h.nodup e, ?_⟩
        rintro y hyc z hze rfl
        exact hcd (h.disjoint c e y hyc hze)
      · rw [Function.update_of_ne hed]
        exact h.nodup e
  · intro e f y hye hyf
    obtain ⟨hec, he⟩ := hwas e y hye
    obtain ⟨hfc, hf⟩ := hwas f y hyf
    obtain he | ⟨rfl, hy⟩ := he
    · obtain hf | ⟨rfl, hy⟩ := hf
      · exact h.disjoint e f y he hf
      · exact absurd (h.disjoint e c y he hy) hec
    · obtain hf | ⟨rfl, -⟩ := hf
      · exact absurd (h.disjoint f c y hf hy) hfc
      · rfl

omit [DecidableEq ι] in
/-- The nodes that are somewhere stay when a whole chain moves to another. -/
theorem mem_splice (hcd : c ≠ d) (y : ι) :
    (∃ e, y ∈ Function.update (Function.update nodes d (nodes c ++ nodes d)) c [] e) ↔
      ∃ e, y ∈ nodes e := by
  constructor
  · rintro ⟨e, he⟩
    by_cases hec : e = c
    · subst hec
      simp at he
    · rw [Function.update_of_ne hec] at he
      by_cases hed : e = d
      · subst hed
        rw [Function.update_self, List.mem_append] at he
        obtain hy | hy := he
        · exact ⟨c, hy⟩
        · exact ⟨e, hy⟩
      · rw [Function.update_of_ne hed] at he
        exact ⟨e, he⟩
  · rintro ⟨e, he⟩
    by_cases hec : e = c
    · subst hec
      exact ⟨d, by simp [Ne.symm hcd, he]⟩
    · by_cases hed : e = d
      · subst hed
        exact ⟨e, by simp [hec, he]⟩
      · exact ⟨e, by simp [hec, hed, he]⟩

end Chains

end WifiExpander.Theory
