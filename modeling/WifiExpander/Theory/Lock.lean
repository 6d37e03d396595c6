import WifiExpander.Theory.Machine

/-!
Re-entrant locks.

A history of a lock is accepted when a task acquires it only while it is free or its
own, and releases it only while it is its own: in an accepted history no two tasks
are inside at once.
-/

namespace WifiExpander.Theory

inductive LockEvent (τ : Type) where
  | acquire (t : τ)
  | release (t : τ)

/-- The lock as a machine; its state is who holds it, and how many times over. -/
def reentrantLock {τ : Type} [DecidableEq τ] : Machine (Option (τ × Nat)) (LockEvent τ) where
  step
    | none, .acquire t => some (some (t, 1))
    | some (u, n), .acquire t => if t = u then some (some (u, n + 1)) else none
    | none, .release _ => none
    | some (u, n), .release t =>
        if t = u then some (if n ≤ 1 then none else some (u, n - 1)) else none

end WifiExpander.Theory
