import Mathlib.Data.List.Basic
import Mathlib.Logic.Relation

/-!
Machines with partial deterministic steps, and invariants of their guarded runs.

A `Machine` consumes events; everything a scheduler or an environment decides is
part of the event, so quantifying over event lists quantifies over every
interleaving and every outcome. `Guarded ok` says that each event of a run is
taken from a state where `ok` holds of it: the form in which a property that
does not hold of every run is stated with the condition under which it does.
-/

namespace WifiExpander.Theory

/-- A partial deterministic machine. `none` is a step that cannot be taken. -/
structure Machine (σ ε : Type) where
  step : σ → ε → Option σ

namespace Machine

variable {σ ε : Type} (M : Machine σ ε)

/-- The state after a list of events, if every step can be taken. -/
def run : σ → List ε → Option σ
  | s, [] => some s
  | s, e :: es => (M.step s e).bind fun s' => run s' es

/-- Every event of the run is taken from a state that allows it. -/
def Guarded (ok : σ → ε → Prop) : σ → List ε → Prop
  | _, [] => True
  | s, e :: es => ok s e ∧ ∀ s', M.step s e = some s' → Guarded ok s' es

/-- Two machines side by side, each with its own events -/
def beside {τ δ : Type} (N : Machine τ δ) : Machine (σ × τ) (ε ⊕ δ) where
  step s
    | .inl e => (M.step s.1 e).map fun s' => (s', s.2)
    | .inr e => (N.step s.2 e).map fun s' => (s.1, s')

variable {M} {ok : σ → ε → Prop} {s s' : σ} {e : ε} {es : List ε}

@[simp] theorem run_nil : M.run s [] = some s := rfl

theorem run_cons : M.run s (e :: es) = some s' ↔
    ∃ m, M.step s e = some m ∧ M.run m es = some s' := by
  simp [run, Option.bind_eq_some_iff]

theorem run_append (es es' : List ε) :
    M.run s (es ++ es') = (M.run s es).bind fun m => M.run m es' := by
  induction es generalizing s with
  | nil => rfl
  | cons e es ih => cases h : M.step s e <;> simp [run, h, ih]

theorem Guarded.cons (hok : ok s e) (hstep : M.step s e = some s') (hrest : M.Guarded ok s' es) :
    M.Guarded ok s (e :: es) := by
  refine ⟨hok, ?_⟩
  rintro m hm
  exact Option.some.inj (hstep.symm.trans hm) ▸ hrest

theorem Guarded.imp {ok' : σ → ε → Prop} (h : M.Guarded ok s es)
    (imp : ∀ s e, ok s e → ok' s e) : M.Guarded ok' s es := by
  induction es generalizing s with
  | nil => trivial
  | cons e es ih => exact ⟨imp s e h.1, fun s' hstep => ih (h.2 s' hstep)⟩

theorem guarded_true : M.Guarded (fun _ _ => True) s es := by
  induction es generalizing s with
  | nil => trivial
  | cons e es ih => exact ⟨trivial, fun s' _ => ih⟩

/-- What holds of every event can be added to the guard. -/
theorem Guarded.and_forall {P : ε → Prop} (h : M.Guarded ok s es) (hP : ∀ e ∈ es, P e) :
    M.Guarded (fun s e => ok s e ∧ P e) s es := by
  induction es generalizing s with
  | nil => trivial
  | cons e es ih =>
      refine ⟨⟨h.1, hP e (List.mem_cons_self ..)⟩, fun s' hstep => ?_⟩
      exact ih (h.2 s' hstep) fun e' he' => hP e' (List.mem_cons_of_mem e he')

/-- **Invariant rule.** A predicate that every allowed step preserves holds
after every guarded run from a state where it holds. -/
theorem run_invariant {Inv : σ → Prop}
    (preserves : ∀ s e s', Inv s → ok s e → M.step s e = some s' → Inv s')
    (init : Inv s) (guarded : M.Guarded ok s es) (run : M.run s es = some s') : Inv s' := by
  induction es generalizing s with
  | nil => exact Option.some.inj run ▸ init
  | cons e es ih =>
      obtain ⟨m, hstep, hrest⟩ := run_cons.mp run
      exact ih (preserves s e m init guarded.1 hstep) (guarded.2 m hstep) hrest

/-- **Progress rule.** Where every allowed event can be taken from a state of
`Inv` and leads to one, every guarded run can be completed. -/
theorem run_progress (Inv : σ → Prop)
    (progress : ∀ s e, Inv s → ok s e → ∃ s', M.step s e = some s' ∧ Inv s') (init : Inv s)
    (guarded : M.Guarded ok s es) : ∃ s', M.run s es = some s' ∧ Inv s' := by
  induction es generalizing s with
  | nil => exact ⟨s, rfl, init⟩
  | cons e es ih =>
      obtain ⟨m, hstep, hinv⟩ := progress s e init guarded.1
      obtain ⟨s', hrun, hinv'⟩ := ih hinv (guarded.2 m hstep)
      exact ⟨s', run_cons.mpr ⟨m, hstep, hrun⟩, hinv'⟩

/-- **Exactness rule.** While the guard holds so does the invariant, and a step that it
forbids breaks something for good: a run is guarded, or it ends broken. -/
theorem run_exact (Inv Broken : σ → Prop)
    (keeps : ∀ s e s', Inv s → ok s e → M.step s e = some s' → Inv s')
    (breaks : ∀ s e s', Inv s → ¬ ok s e → M.step s e = some s' → Broken s')
    (stays : ∀ s e s', Broken s → M.step s e = some s' → Broken s')
    (init : Inv s) (run : M.run s es = some s') :
    M.Guarded ok s es ∧ Inv s' ∨ ¬ M.Guarded ok s es ∧ Broken s' := by
  induction es generalizing s with
  | nil => exact .inl ⟨trivial, Option.some.inj run ▸ init⟩
  | cons e es ih =>
      obtain ⟨m, hstep, hrest⟩ := run_cons.mp run
      by_cases hok : ok s e
      · rcases ih (keeps s e m init hok hstep) hrest with ⟨hguarded, hinv⟩ | ⟨hnot, hbroken⟩
        · exact .inl ⟨Guarded.cons hok hstep hguarded, hinv⟩
        · exact .inr ⟨fun guarded => hnot (guarded.2 m hstep), hbroken⟩
      · have hbroken := breaks s e m init hok hstep
        refine .inr ⟨fun guarded => hok guarded.1, ?_⟩
        exact run_invariant (M := M) (fun s e s' h _ => stays s e s' h) hbroken guarded_true hrest

/-- **Bounded response.** A rank that no step raises and that each event of `p`
lowers, until what is waited for holds, is a bound on how many of these it takes. -/
theorem run_reaches (Wait : σ → Nat → Prop) (Done : σ → Prop) {p : ε → Bool} {n : Nat}
    (waits : ∀ s e n, Wait s n → ok s e → ∃ s', M.step s e = some s' ∧
      (Done s' ∨ ∃ n', Wait s' n' ∧ n' + (p e).toNat ≤ n))
    (stays : ∀ s e, Done s → ok s e → ∃ s', M.step s e = some s' ∧ Done s')
    (init : Wait s n) (guarded : M.Guarded ok s es) :
    ∃ s', M.run s es = some s' ∧ (Done s' ∨ ∃ n', Wait s' n' ∧ n' + es.countP p ≤ n) := by
  induction es generalizing s n with
  | nil => exact ⟨s, rfl, .inr ⟨n, init, Nat.le_refl n⟩⟩
  | cons e es ih =>
      obtain ⟨m, hstep, hnext⟩ := waits s e n init guarded.1
      have hrest := guarded.2 m hstep
      rcases hnext with hdone | ⟨n', hwait, hle⟩
      · obtain ⟨s', hrun, hdone'⟩ := run_progress Done stays hdone hrest
        exact ⟨s', run_cons.mpr ⟨m, hstep, hrun⟩, .inl hdone'⟩
      · obtain ⟨s', hrun, hout⟩ := ih hwait hrest
        refine ⟨s', run_cons.mpr ⟨m, hstep, hrun⟩, hout.imp_right ?_⟩
        rintro ⟨k, hk, hcount⟩
        refine ⟨k, hk, ?_⟩
        rw [List.countP_cons]
        cases hp : p e <;> simp only [hp, Bool.toNat_true, Bool.toNat_false] at hle <;>
          simp <;> omega

/-- **Script rule.** Each event of a script takes the machine on from its phase, and
no other event takes it back. Once the script has arrived in order, among whatever
else, what it is for holds. -/
theorem run_script {script : List ε} (Phase : Nat → σ → Prop) (Done : σ → Prop)
    (advances : ∀ k s e, Phase k s → ok s e → ∃ s', M.step s e = some s' ∧
      (Done s' ∨ Phase (k + 1) s' ∨ Phase k s' ∧ script[k]? ≠ some e))
    (stays : ∀ s e, Done s → ok s e → ∃ s', M.step s e = some s' ∧ Done s')
    (ends : ∀ k s, Phase k s → k < script.length)
    (init : Phase 0 s) (guarded : M.Guarded ok s es) (arrives : script.Sublist es) :
    ∃ s', M.run s es = some s' ∧ Done s' := by
  have general : ∀ (es : List ε) k s, Phase k s → M.Guarded ok s es →
      (script.drop k).Sublist es → ∃ s', M.run s es = some s' ∧ Done s' := by
    intro es
    induction es with
    | nil =>
        intro k s hphase _ hsub
        have hend := List.drop_eq_nil_iff.mp (List.sublist_nil.mp hsub)
        exact absurd (ends k s hphase) (Nat.not_lt_of_le hend)
    | cons e es ih =>
        intro k s hphase guarded hsub
        obtain ⟨m, hstep, hnext⟩ := advances k s e hphase guarded.1
        have hrest := guarded.2 m hstep
        have hfinish : ∀ {t}, M.run m es = some t ∧ Done t →
            ∃ s', M.run s (e :: es) = some s' ∧ Done s' := fun {t} h =>
          ⟨t, run_cons.mpr ⟨m, hstep, h.1⟩, h.2⟩
        rcases hnext with hdone | hphase' | ⟨hphase', hother⟩
        · obtain ⟨s', h⟩ := run_progress Done stays hdone hrest
          exact hfinish h
        · have htail : (script.drop (k + 1)).Sublist es := by
            simpa using hsub.tail
          obtain ⟨s', h⟩ := ih (k + 1) m hphase' hrest htail
          exact hfinish h
        · -- the event is not the next one of the script
          have hskip : (script.drop k).Sublist es := by
            cases hdrop : script.drop k with
            | nil => exact List.nil_sublist es
            | cons a rest =>
                rw [hdrop] at hsub
                cases hsub with
                | cons _ hsub => exact hsub
                | cons_cons _ _ =>
                    refine absurd ?_ hother
                    rw [← List.head?_drop, hdrop]
                    rfl
          obtain ⟨s', h⟩ := ih k m hphase' hrest hskip
          exact hfinish h
  exact general es 0 s init guarded (by simpa using arrives)

variable (M ok) in
/-- Some event that the guard allows leads from one state to the other. -/
def Steps (s s' : σ) : Prop := ∃ e, ok s e ∧ M.step s e = some s'

/-- **Reachability rule.** What a chain of allowed steps reaches, a guarded run does. -/
theorem exists_guarded_run (h : Relation.ReflTransGen (M.Steps ok) s s') :
    ∃ es, M.Guarded ok s es ∧ M.run s es = some s' := by
  induction h using Relation.ReflTransGen.head_induction_on with
  | refl => exact ⟨[], trivial, rfl⟩
  | @head a b hstep _ ih =>
      obtain ⟨e, hok, hab⟩ := hstep
      obtain ⟨es, guarded, hrun⟩ := ih
      refine ⟨e :: es, ⟨hok, ?_⟩, run_cons.mpr ⟨b, hab, hrun⟩⟩
      intro m hm
      cases hab.symm.trans hm
      exact guarded

/-- **Simulation rule.** Where each allowed step of `M` is matched by allowed steps of
`N`, each guarded run of `M` can be completed and is matched by one of `N`. -/
theorem run_simulates {τ δ : Type} {N : Machine τ δ} (ok' : τ → δ → Prop) (R : σ → τ → Prop)
    {a : τ}
    (simulates : ∀ s e a, R s a → ok s e → ∃ s' a', M.step s e = some s' ∧
      Relation.ReflTransGen (N.Steps ok') a a' ∧ R s' a')
    (init : R s a) (guarded : M.Guarded ok s es) :
    ∃ s' a' es', M.run s es = some s' ∧ N.Guarded ok' a es' ∧ N.run a es' = some a' ∧ R s' a' := by
  have hchain : ∀ s, M.Guarded ok s es → (∃ b, Relation.ReflTransGen (N.Steps ok') a b ∧ R s b) →
      ∃ s' a', M.run s es = some s' ∧ Relation.ReflTransGen (N.Steps ok') a a' ∧ R s' a' := by
    intro s guarded hstart
    obtain ⟨s', hrun, a', hsteps, hrel⟩ := run_progress
      (fun s => ∃ b, Relation.ReflTransGen (N.Steps ok') a b ∧ R s b)
      (fun s e ⟨b, hsteps, hrel⟩ hok => by
        obtain ⟨s', b', hstep, hsteps', hrel'⟩ := simulates s e b hrel hok
        exact ⟨s', hstep, b', hsteps.trans hsteps', hrel'⟩)
      hstart guarded
    exact ⟨s', a', hrun, hsteps, hrel⟩
  obtain ⟨s', a', hrun, hsteps, hrel⟩ := hchain s guarded ⟨a, .refl, init⟩
  obtain ⟨es', hguarded, hrun'⟩ := exists_guarded_run hsteps
  exact ⟨s', a', es', hrun, hguarded, hrun', hrel⟩

instance Guarded.decidable {ok : σ → ε → Prop} [∀ s e, Decidable (ok s e)] :
    ∀ (s : σ) (es : List ε), Decidable (M.Guarded ok s es)
  | _, [] => isTrue trivial
  | s, e :: es =>
      match h : M.step s e with
      | none => decidable_of_iff (ok s e) (by simp [Guarded, h])
      | some s' =>
          @decidable_of_iff _ (ok s e ∧ M.Guarded ok s' es) (by simp [Guarded, h])
            (@instDecidableAnd _ _ _ (Guarded.decidable s' es))

/-! ### Counting -/

variable (M) in
/-- How many events of the run are taken from a state where `p` holds of them. -/
def tally (p : σ → ε → Bool) : σ → List ε → Nat
  | _, [] => 0
  | s, e :: es =>
      (p s e).toNat +
        match M.step s e with
        | none => 0
        | some s' => tally p s' es

theorem tally_cons {p : σ → ε → Bool} (h : M.step s e = some s') :
    M.tally p s (e :: es) = (p s e).toNat + M.tally p s' es := by
  simp only [tally, h]

/-- **Counting rule.** A measure that no step takes above `m` and, where `p`
holds, at most one further up, exceeds `m` by at most the number of those steps. -/
theorem run_tally (Inv : σ → Prop) {p : σ → ε → Bool} {f : σ → Nat} {m : Nat}
    (progress : ∀ s e, Inv s → ok s e →
      ∃ s', M.step s e = some s' ∧ Inv s' ∧ f s' ≤ max m (f s + (p s e).toNat))
    (init : Inv s) (guarded : M.Guarded ok s es) :
    ∃ s', M.run s es = some s' ∧ Inv s' ∧ f s' ≤ max m (f s) + M.tally p s es := by
  induction es generalizing s with
  | nil => exact ⟨s, rfl, init, Nat.le_max_right _ _⟩
  | cons e es ih =>
      obtain ⟨s₁, hstep, hinv, hle⟩ := progress s e init guarded.1
      obtain ⟨s', hrun, hinv', hle'⟩ := ih hinv (guarded.2 s₁ hstep)
      refine ⟨s', run_cons.mpr ⟨s₁, hstep, hrun⟩, hinv', ?_⟩
      rw [tally_cons hstep]
      omega

/-! ### Refinement -/

variable {τ : Type} {A : Machine τ ε} {t : τ} {okA : τ → ε → Prop}

/-- **Refinement rule.** A machine `M` follows an abstract machine `A` through a
relation `R`. Where `A` can always step from a state of `Inv` that its guard
allows, and the guard of `M` carries over, every guarded run of `M` can be
completed and ends in a state related to one of `Inv`. -/
theorem run_refines {R : σ → τ → Prop} {Inv : τ → Prop}
    (guard : ∀ s t e, R s t → Inv t → ok s e → okA t e)
    (progress : ∀ t e, Inv t → okA t e → ∃ t', A.step t e = some t' ∧ Inv t')
    (simulates : ∀ s t e t', R s t → A.step t e = some t' → ∃ s', M.step s e = some s' ∧ R s' t')
    (rel : R s t) (init : Inv t) (guarded : M.Guarded ok s es) :
    ∃ s' t', M.run s es = some s' ∧ R s' t' ∧ Inv t' := by
  induction es generalizing s t with
  | nil => exact ⟨s, t, rfl, rel, init⟩
  | cons e es ih =>
      obtain ⟨t₁, hstep, hinv⟩ := progress t e init (guard s t e rel init guarded.1)
      obtain ⟨s₁, hstep', hrel⟩ := simulates s t e t₁ rel hstep
      obtain ⟨s', t', hrun, hrest⟩ := ih hrel hinv (guarded.2 s₁ hstep')
      exact ⟨s', t', run_cons.mpr ⟨s₁, hstep', hrun⟩, hrest⟩

end Machine

end WifiExpander.Theory
