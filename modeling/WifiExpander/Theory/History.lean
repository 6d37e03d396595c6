import Mathlib.Data.List.Basic

/-!
Histories: lists of what happened, oldest first.

`Past Q` says that every entry of a history stands in `Q` to the entries before
it. `sinceLast f` finds the last entry that `f` marks and what followed it. Both
come with what one more entry does to them, which is all an invariant needs.
-/

namespace WifiExpander.Theory

variable {α β : Type}

/-- Every entry satisfies `Q` with what was before it. -/
def Past (Q : List α → α → Prop) (l : List α) : Prop :=
  ∀ pre a post, l = pre ++ a :: post → Q pre a

/-- The last entry that `f` marks, with its mark, and the entries after it. -/
def sinceLast (f : α → Option β) : List α → Option (β × List α)
  | [] => none
  | a :: l =>
      match sinceLast f l with
      | some r => some r
      | none => (f a).map fun b => (b, l)

variable {Q : List α → α → Prop} {f : α → Option β} {l : List α} {a : α}

theorem past_nil : Past Q [] := by
  intro pre a post h
  simp at h

/-- A history grows by an entry that satisfies `Q` with all of it. -/
theorem Past.concat (h : Past Q l) (ha : Q l a) : Past Q (l ++ [a]) := by
  intro pre x post heq
  rcases List.eq_nil_or_concat post with rfl | ⟨post, y, rfl⟩
  · obtain ⟨rfl, hx⟩ := List.append_inj' heq rfl
    obtain rfl := List.singleton_inj.mp hx
    exact ha
  · have heq' : l ++ [a] = (pre ++ x :: post) ++ [y] := by simpa using heq
    obtain ⟨rfl, -⟩ := List.append_inj' heq' rfl
    exact h pre x post rfl

/-- The beginning of a history satisfies what the whole does. -/
theorem Past.left {l' : List α} (h : Past Q (l ++ l')) : Past Q l := fun pre a post heq =>
  h pre a (post ++ l') (by rw [heq, List.append_assoc, List.cons_append])

@[simp] theorem sinceLast_nil : sinceLast f [] = none := rfl

theorem sinceLast_concat :
    sinceLast f (l ++ [a]) =
      match f a with
      | some b => some (b, [])
      | none => (sinceLast f l).map fun r => (r.1, r.2 ++ [a]) := by
  induction l with
  | nil =>
      simp only [List.nil_append, sinceLast]
      cases f a <;> rfl
  | cons x l ih =>
      rw [List.cons_append, sinceLast, ih]
      cases f a with
      | some b => rfl
      | none =>
          rw [sinceLast]
          cases sinceLast f l with
          | some r => rfl
          | none => cases f x <;> rfl

theorem sinceLast_concat_some {b : β} (h : f a = some b) :
    sinceLast f (l ++ [a]) = some (b, []) := by
  rw [sinceLast_concat, h]

theorem sinceLast_concat_none (h : f a = none) :
    sinceLast f (l ++ [a]) = (sinceLast f l).map fun r => (r.1, r.2 ++ [a]) := by
  rw [sinceLast_concat, h]

end WifiExpander.Theory
