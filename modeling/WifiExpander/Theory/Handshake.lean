import WifiExpander.Theory.Machine

/-!
Latches and handshakes.

A latch is set any number of times and taken once for all of them. A handshake hands
over one value at a time and brings back an answer: the side that offered a value
offers the next one only when it has the answer to this one. `view` is the part of an
offer that the other side gets to see. Both are machines on histories, so to say that
a system's history is accepted is to say that nothing was lost, doubled or mixed up.
-/

namespace WifiExpander.Theory

inductive LatchEvent where
  | set
  | take

/-- The latch as a machine; its state is whether it is set. -/
def latch : Machine Bool LatchEvent where
  step
    | _, .set => some true
    | true, .take => some false
    | false, .take => none

variable {α β γ : Type}

/-- Where a handshake stands. -/
inductive Handshake (α β : Type) where
  | free
  | offered (x : α)
  | taken (x : α)
  | answered (x : α) (r : β)
deriving DecidableEq

inductive HandshakeEvent (α β γ : Type) where
  | offer (x : α)
  | take (y : γ)
  | answer (r : β)
  | collect (x : α) (r : β)

/-- The handshake as a machine -/
def handshake [DecidableEq α] [DecidableEq β] [DecidableEq γ] (view : α → γ) :
    Machine (Handshake α β) (HandshakeEvent α β γ) where
  step
    | .free, .offer x => some (.offered x)
    | .offered x, .take y => if y = view x then some (.taken x) else none
    | .taken x, .answer r => some (.answered x r)
    | .answered x r, .collect x' r' => if x' = x ∧ r' = r then some .free else none
    | _, _ => none

namespace Handshake

/-- The value under way -/
def current : Handshake α β → List α
  | .free => []
  | .offered x | .taken x | .answered x _ => [x]

/-- The answer that has not been collected -/
def response : Handshake α β → List β
  | .answered _ r => [r]
  | _ => []

end Handshake

namespace HandshakeEvent

/-- The values offered, in order -/
def offers (h : List (HandshakeEvent α β γ)) : List α :=
  h.filterMap fun
    | .offer x => some x
    | _ => none

/-- The answers given, in order -/
def answers (h : List (HandshakeEvent α β γ)) : List β :=
  h.filterMap fun
    | .answer r => some r
    | _ => none

/-- The values whose answer was collected, each with this answer -/
def collected (h : List (HandshakeEvent α β γ)) : List (α × β) :=
  h.filterMap fun
    | .collect x r => some (x, r)
    | _ => none

end HandshakeEvent

open HandshakeEvent

variable [DecidableEq α] [DecidableEq β] [DecidableEq γ] {view : α → γ}
  {h : List (HandshakeEvent α β γ)} {p p' : Handshake α β}

/-- Every offer was answered and the answer collected, in order, but for the one under way;
no answer was collected for another offer than the one it was given to. -/
theorem handshake_run (hrun : (handshake view).run p h = some p') :
    p.current ++ offers h = (collected h).map Prod.fst ++ p'.current ∧
      p.response ++ answers h = (collected h).map Prod.snd ++ p'.response := by
  induction h generalizing p with
  | nil =>
      obtain rfl := Option.some.inj hrun
      simp [offers, answers, collected]
  | cons e h ih =>
      obtain ⟨m, hstep, hrest⟩ := Machine.run_cons.mp hrun
      obtain ⟨hoffers, hanswers⟩ := ih hrest
      cases p <;> cases e <;> simp only [handshake, Option.ite_none_right_eq_some,
        Option.some.injEq, reduceCtorEq] at hstep
      case free.offer x =>
        obtain rfl := hstep
        simpa [Handshake.current, Handshake.response, offers, answers, collected] using
          ⟨hoffers, hanswers⟩
      case offered.take x y =>
        obtain ⟨-, rfl⟩ := hstep
        simpa [Handshake.current, Handshake.response, offers, answers, collected] using
          ⟨hoffers, hanswers⟩
      case taken.answer x r =>
        obtain rfl := hstep
        simpa [Handshake.current, Handshake.response, offers, answers, collected] using
          ⟨hoffers, hanswers⟩
      case answered.collect x r x' r' =>
        obtain ⟨⟨rfl, rfl⟩, rfl⟩ := hstep
        simpa [Handshake.current, Handshake.response, offers, answers, collected] using
          ⟨hoffers, hanswers⟩

end WifiExpander.Theory
