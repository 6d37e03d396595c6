import Mathlib.Order.Bounds.Basic
import Mathlib.Data.Fintype.Card
import WifiExpander.Mutex

/-!
Inheritance of priorities through mutexes.

A task's priority is the highest among its own and those of the tasks that wait for
its mutexes; `OS_TaskChangePrio` keeps this along a chain of owners. It does so when
a priority goes up, and when one goes down as long as the owners along the chain
have the priority that goes down: else it lowers the next owner for nothing.
-/

namespace WifiExpander

open Theory

variable {κ τ : Type}

namespace Mutexes

/-- `w` waits for a mutex of `t`. -/
def Waits (s : Mutexes κ τ) (w t : τ) : Prop :=
  ∃ m, (s.tcb w).state = .pend m ∧ (s.mutex m).owner = some t

/-- The priorities that a task should not be below: its own and those of the tasks
that wait for it. A lower number is a higher priority. -/
def wants (s : Mutexes κ τ) (t : τ) : Set Nat :=
  {p | p = (s.tcb t).basePrio ∨ ∃ w, s.Waits w t ∧ p = s.prio w}

/-- The task that waits with the highest priority is first. -/
def Sorted (s : Mutexes κ τ) : Prop :=
  ∀ m, (s.mutex m).pendList.Pairwise fun a b => s.prio a ≤ s.prio b

variable {s s' : Mutexes κ τ} {t u w o : τ} {m : κ} {p : Nat}

/-! ### The search of a group -/

/-- The least of a number and the priorities of the tasks that wait for `m` -/
theorem head_isLeast (hs : s.Sorted) (a : Nat) (m : κ) :
    IsLeast {p | p = a ∨ ∃ w ∈ (s.mutex m).pendList, p = s.prio w}
      (match (s.mutex m).pendList with
        | [] => a
        | head :: _ => if s.prio head < a then s.prio head else a) := by
  have hsorted := hs m
  cases hlist : (s.mutex m).pendList with
  | nil => simp [IsLeast]
  | cons head ts =>
      rw [hlist, List.pairwise_cons] at hsorted
      have hhead : ∀ w ∈ head :: ts, s.prio head ≤ s.prio w := by
        rintro w hw
        rcases List.mem_cons.mp hw with rfl | hw
        · exact Nat.le_refl _
        · exact hsorted.1 w hw
      by_cases hlt : s.prio head < a
      · simp only [if_pos hlt]
        refine ⟨.inr ⟨head, List.mem_cons_self, rfl⟩, ?_⟩
        rintro p (rfl | ⟨w, hw, rfl⟩)
        · exact Nat.le_of_lt hlt
        · exact hhead w hw
      · simp only [if_neg hlt]
        refine ⟨.inl rfl, ?_⟩
        rintro p (rfl | ⟨w, hw, rfl⟩)
        · exact Nat.le_refl _
        · exact (Nat.le_of_not_lt hlt).trans (hhead w hw)

theorem foldl_isLeast (hs : s.Sorted) (a : Nat) (ms : List κ) :
    IsLeast {p | p = a ∨ ∃ m ∈ ms, ∃ w ∈ (s.mutex m).pendList, p = s.prio w}
      (ms.foldl (fun highest m =>
        match (s.mutex m).pendList with
        | [] => highest
        | head :: _ => if s.prio head < highest then s.prio head else highest) a) := by
  induction ms generalizing a with
  | nil => simp [IsLeast]
  | cons m ms ih =>
      rw [List.foldl_cons]
      obtain ⟨hhead, hheadLe⟩ := head_isLeast hs a m
      generalize (match (s.mutex m).pendList with
        | [] => a
        | head :: _ => if s.prio head < a then s.prio head else a) = b at hhead hheadLe ⊢
      obtain ⟨hmem, hle⟩ := ih b
      have hb := hle (.inl rfl)
      constructor
      · rcases hmem with hb | ⟨m', hm', w, hw, hp⟩
        · rw [hb]
          rcases hhead with ha | ⟨w, hw, hp⟩
          · exact .inl ha
          · exact .inr ⟨m, List.mem_cons_self, w, hw, hp⟩
        · exact .inr ⟨m', List.mem_cons_of_mem m hm', w, hw, hp⟩
      · rintro p (ha | ⟨m', hm', w, hw, hp⟩)
        · exact hb.trans (hheadLe (.inl ha))
        · rcases List.mem_cons.mp hm' with rfl | hm'
          · exact hb.trans (hheadLe (.inr ⟨w, hw, hp⟩))
          · exact hle (.inr ⟨m', hm', w, hw, hp⟩)

/-- `prio_new` is the highest that the group of the task asks for. -/
theorem prioNew_isLeast (hs : s.Sorted) (hbase : (s.tcb t).basePrio < osCfgPrioMax) :
    IsLeast {p | p = (s.tcb t).basePrio ∨
      ∃ m ∈ (s.tcb t).mutexGrp, ∃ w ∈ (s.mutex m).pendList, p = s.prio w} (s.prioNew t) := by
  obtain ⟨hmem, hle⟩ := foldl_isLeast hs (osCfgPrioMax - 1) (s.tcb t).mutexGrp
  have htop := hle (.inl rfl)
  change s.osMutexGrpPrioFindHighest t ∈ _ at hmem
  change s.osMutexGrpPrioFindHighest t ≤ _ at htop
  unfold prioNew
  dsimp only
  constructor
  · split
    · exact .inl rfl
    · rcases hmem with hmax | hwaits
      · left
        omega
      · exact .inr hwaits
  · rintro p (rfl | hwaits)
    · split <;> omega
    · have := hle (.inr hwaits)
      change s.osMutexGrpPrioFindHighest t ≤ p at this
      split <;> omega

theorem Coherent.prioNew_wants (h : s.Coherent) (hs : s.Sorted)
    (hbase : (s.tcb t).basePrio < osCfgPrioMax) : IsLeast (s.wants t) (s.prioNew t) := by
  have hset : s.wants t = {p | p = (s.tcb t).basePrio ∨
      ∃ m ∈ (s.tcb t).mutexGrp, ∃ w ∈ (s.mutex m).pendList, p = s.prio w} := by
    ext p
    simp only [wants, Waits, Set.mem_ofPred_eq, h.group, h.waiting]
    grind
  exact hset ▸ prioNew_isLeast hs hbase

/-! ### One task's priority -/

theorem Waits.unique (h : s.Waits w t) (h' : s.Waits w u) : t = u := by
  obtain ⟨m, hw, ht⟩ := h
  obtain ⟨m', hw', hu⟩ := h'
  obtain rfl : m = m' := MutexWait.pend.inj (hw.symm.trans hw')
  exact Option.some.inj (ht.symm.trans hu)

theorem Coherent.not_waits_self (h : s.Coherent) : ¬ s.Waits t t := by
  rintro ⟨m, ht, hm⟩
  exact (h.held m t hm).2.2 ht

theorem Reprioritised.waits (h : s.Reprioritised s') : s'.Waits w t ↔ s.Waits w t := by
  simp only [Waits, h.state, h.owner]

theorem Reprioritised.mem_wants (h : s.Reprioritised s') : p ∈ s'.wants t ↔
    p = (s.tcb t).basePrio ∨ ∃ w, s.Waits w t ∧ p = s'.prio w := by
  simp only [wants, Set.mem_ofPred_eq, h.basePrio, h.waits]

variable [DecidableEq τ]

/-- Only the task it waits for notices a task's new priority. -/
theorem Reprioritised.wants_eq (h : s.Reprioritised s')
    (hprio : s'.prio = Function.update s.prio t p) (ht : ¬ s.Waits t u) :
    s'.wants u = s.wants u := by
  ext q
  rw [h.mem_wants]
  refine or_congr_right (exists_congr fun w => and_congr_right fun hw => ?_)
  have hne : w ≠ t := by
    rintro rfl
    exact ht hw
  rw [hprio, Function.update_of_ne hne]

variable [DecidableEq κ]

omit [DecidableEq κ] in
theorem Coherent.setPrio_sorted (h : s.Coherent) (hs : s.Sorted)
    (ht : ∀ m, (s.tcb t).state ≠ .pend m) (p : Nat) : (s.setPrio t p).Sorted := by
  intro m
  refine (hs m).imp_of_mem fun {a b} ha hb hle => ?_
  have hne : ∀ u ∈ (s.mutex m).pendList, u ≠ t := by
    rintro u hu rfl
    exact ht m ((h.waiting m u).mp hu)
  rwa [setPrio_prio, Function.update_of_ne (hne a ha), Function.update_of_ne (hne b hb)]

/-- A task that waits is moved to its new place. -/
theorem Coherent.changePrio (h : s.Coherent) (hs : s.Sorted) (ht : (s.tcb t).state = .pend m)
    (p : Nat) : ∃ s', (s.setPrio t p).osPendListChangePrio t m = some s' ∧
      s.Reprioritised s' ∧ s'.Sorted ∧ s'.prio = Function.update s.prio t p := by
  obtain ⟨ts, s', hrun, rfl, hperm, hts⟩ := h.osPendListChangePrio ht p
  have hprio : ((s.setPrio t p).setPendList m ts).prio = Function.update s.prio t p :=
    s.setPrio_prio t p
  refine ⟨_, hrun, (s.setPrio_reprioritised t p).trans
    (setPendList_reprioritised (s := s.setPrio t p) hperm), ?_, hprio⟩
  intro m'
  by_cases hm : m' = m
  · subst hm
    have hrest : ((s.mutex m').pendList.erase t).Pairwise fun a b =>
        (s.setPrio t p).prio a ≤ (s.setPrio t p).prio b := by
      refine ((hs m').sublist List.erase_sublist).imp_of_mem fun {a b} ha hb hle => ?_
      rw [(h.nodup m').mem_erase_iff] at ha hb
      rwa [setPrio_prio, Function.update_of_ne ha.1, Function.update_of_ne hb.1]
    have hlist : (((s.setPrio t p).setPendList m' ts).mutex m').pendList = ts := by
      simp [setPendList, setMutex]
    rw [hlist, hts]
    exact pairwise_osPendListInsertPrio hrest t
  · have hlist : (((s.setPrio t p).setPendList m ts).mutex m').pendList =
        (s.mutex m').pendList := by
      simp [setPendList, setMutex, hm, setPrio, setTcb]
    rw [hlist]
    refine (hs m').imp_of_mem fun {a b} ha hb hle => ?_
    have hne : ∀ u ∈ (s.mutex m').pendList, u ≠ t := by
      rintro u hu rfl
      exact hm (MutexWait.pend.inj (((h.waiting m' u).mp hu).symm.trans ht))
    rwa [hprio, Function.update_of_ne (hne a ha), Function.update_of_ne (hne b hb)]

/-! ### Up the chain of owners -/

/-- The chain ends with a task that does not wait for a mutex. -/
theorem osTaskChangePrio_end (fuel : Nat) (p : Nat) (ht : ∀ m, (s.tcb t).state ≠ .pend m) :
    s.osTaskChangePrio (fuel + 1) t p = some (s.setPrio t p) := by
  cases hstate : (s.tcb t).state with
  | rdy | blocked | woken m r => simp only [osTaskChangePrio, hstate]
  | pend m => exact absurd hstate (ht m)

/-- A task that waits has the next priority, and its owner may get it too. -/
theorem Coherent.osTaskChangePrio_next (h : s.Coherent) (hs : s.Sorted)
    (ht : (s.tcb t).state = .pend m) (fuel p : Nat) : ∃ s' o, s.Waits t o ∧ o ≠ t ∧
      s.Reprioritised s' ∧ s'.Sorted ∧ s'.prio = Function.update s.prio t p ∧
      s.osTaskChangePrio (fuel + 1) t p =
        if s.prio t > p then
          if s.prio o ≤ p then some s' else s'.osTaskChangePrio fuel o p
        else if s.prio o = s.prio t then
          if s'.prioNew o = s.prio o then some s' else s'.osTaskChangePrio fuel o (s'.prioNew o)
        else s'.osTaskChangePrio fuel o p := by
  obtain ⟨s', hrun, hsame, hsorted, hprio⟩ := h.changePrio hs ht p
  obtain ⟨o, howner⟩ := h.exists_owner ht
  have hot : o ≠ t := by
    rintro rfl
    exact (h.held m o howner).2.2 ht
  have hoprio : s'.prio o = s.prio o := by rw [hprio, Function.update_of_ne hot]
  refine ⟨s', o, ⟨m, ht, howner⟩, hot, hsame, hsorted, hprio, ?_⟩
  simp only [Mutexes.osTaskChangePrio, ht, hrun, Option.bind_eq_bind, Option.bind_some,
    hsame.owner, howner, hoprio]

omit [DecidableEq κ] in
/-- Who is not waited for by the task has what it wants, if the others had. -/
theorem Reprioritised.wanted (h : s.Reprioritised s') {E : τ → Set Nat}
    (hprio : s'.prio = Function.update s.prio t p) (hu : ¬ s.Waits t u)
    (hothers : ∀ u ≠ t, IsLeast (s.wants u ∪ E u) (s.prio u))
    (ht : IsLeast (s.wants t ∪ E t) p) : IsLeast (s'.wants u ∪ E u) (s'.prio u) := by
  rw [h.wants_eq hprio hu, hprio]
  by_cases hut : u = t
  · subst hut
    rwa [Function.update_self]
  · rw [Function.update_of_ne hut]
    exact hothers u hut

omit [DecidableEq κ] in
theorem Reprioritised.wants_subset (h : s.Reprioritised s')
    (hprio : s'.prio = Function.update s.prio t p) {q : Nat} (hq : q ∈ s'.wants u) :
    q = p ∨ q ∈ s.wants u := by
  rcases h.mem_wants.mp hq with hbase | ⟨w, hw, rfl⟩
  · exact .inr (.inl hbase)
  · rw [hprio]
    by_cases hwt : w = t
    · subst hwt
      exact .inl (Function.update_self ..)
    · rw [Function.update_of_ne hwt]
      exact .inr (.inr ⟨w, hw, rfl⟩)

omit [DecidableEq κ] in
theorem Reprioritised.subset_wants (h : s.Reprioritised s')
    (hprio : s'.prio = Function.update s.prio t p) {q : Nat} (hq : q ∈ s.wants u)
    (hne : q ≠ s.prio t) : q ∈ s'.wants u := by
  refine h.mem_wants.mpr ?_
  rcases hq with hbase | ⟨w, hw, rfl⟩
  · exact .inl hbase
  · refine .inr ⟨w, hw, ?_⟩
    rw [hprio, Function.update_of_ne]
    rintro rfl
    exact hne rfl

section Chain

variable [Fintype τ]

omit [DecidableEq κ] in
/-- The chain of owners is no longer than there are tasks whose priority is to change. -/
theorem card_lt_of_update {P : Nat → Prop} [DecidablePred P]
    (hprio : s'.prio = Function.update s.prio t p) (hp : ¬ P p) (ht : P (s.prio t)) :
    (Finset.univ.filter fun u => P (s'.prio u)).card <
      (Finset.univ.filter fun u => P (s.prio u)).card := by
  apply Finset.card_lt_card
  refine Finset.ssubset_iff_subset_ne.mpr ⟨fun u hu => ?_, fun heq => ?_⟩
  · rw [Finset.mem_filter, hprio] at hu
    by_cases hut : u = t
    · rw [hut, Function.update_self] at hu
      exact absurd hu.2 hp
    · rw [Function.update_of_ne hut] at hu
      exact Finset.mem_filter.mpr hu
  · have hmem : t ∈ Finset.univ.filter fun u => P (s.prio u) := by simp [ht]
    rw [← heq, Finset.mem_filter, hprio, Function.update_self] at hmem
    exact hp hmem.2

/-- **A priority goes up**, and with it those of the owners along the chain that are
lower. `E` is what is asked of a task besides what it wants. -/
theorem Coherent.raise (E : τ → Set Nat) {fuel : Nat} (h : s.Coherent) (hs : s.Sorted)
    (hup : p < s.prio t) (hothers : ∀ u ≠ t, IsLeast (s.wants u ∪ E u) (s.prio u))
    (ht : IsLeast (s.wants t ∪ E t) p)
    (hfuel : (Finset.univ.filter fun u => p < s.prio u).card ≤ fuel) :
    ∃ s', s.osTaskChangePrio fuel t p = some s' ∧ s'.Sorted ∧
      (∀ u, IsLeast (s'.wants u ∪ E u) (s'.prio u)) ∧ ∀ u, s.prio u ≤ p → s'.prio u = s.prio u := by
  induction fuel generalizing s t with
  | zero =>
      have hmem : t ∈ Finset.univ.filter fun u => p < s.prio u := by simp [hup]
      rw [Finset.card_eq_zero.mp (Nat.le_zero.mp hfuel)] at hmem
      cases hmem
  | succ fuel ih =>
      have hkept : ∀ u, s.prio u ≤ p → Function.update s.prio t p u = s.prio u := by
        rintro u hu
        rw [Function.update_of_ne]
        rintro rfl
        omega
      by_cases hwait : ∃ m, (s.tcb t).state = .pend m
      · obtain ⟨m, hstate⟩ := hwait
        obtain ⟨s₁, o, hto, hot, hsame, hsorted, hprio, hrun⟩ :=
          h.osTaskChangePrio_next hs hstate fuel p
        have hwanted : ∀ u ≠ o, IsLeast (s₁.wants u ∪ E u) (s₁.prio u) := fun u hu =>
          hsame.wanted hprio (fun hw => hu (hw.unique hto)) hothers ht
        have hkept₁ : ∀ u, s.prio u ≤ p → s₁.prio u = s.prio u := by
          rw [hprio]
          exact hkept
        have hoprio : s₁.prio o = s.prio o := by rw [hprio, Function.update_of_ne hot]
        have htprio : s₁.prio t = p := by rw [hprio, Function.update_self]
        obtain ⟨homem, hole⟩ := hothers o hot
        rw [if_pos hup] at hrun
        by_cases hle : s.prio o ≤ p
        · -- the owner is high enough
          rw [if_pos hle] at hrun
          have howner : IsLeast (s₁.wants o ∪ E o) (s₁.prio o) := by
            rw [hoprio]
            constructor
            · exact homem.imp (fun hq => hsame.subset_wants hprio hq (by omega)) id
            · rintro q (hq | hq)
              · rcases hsame.wants_subset hprio hq with rfl | hq
                · exact hle
                · exact hole (.inl hq)
              · exact hole (.inr hq)
          refine ⟨s₁, hrun, hsorted, fun u => ?_, hkept₁⟩
          by_cases hu : u = o
          · exact hu ▸ howner
          · exact hwanted u hu
        · -- the owner is next
          rw [if_neg hle] at hrun
          have hlt : p < s.prio o := Nat.lt_of_not_le hle
          have howner : IsLeast (s₁.wants o ∪ E o) p := by
            constructor
            · exact .inl (hsame.mem_wants.mpr (.inr ⟨t, hto, htprio.symm⟩))
            · rintro q (hq | hq)
              · rcases hsame.wants_subset hprio hq with rfl | hq
                · exact Nat.le_refl _
                · exact (Nat.le_of_lt hlt).trans (hole (.inl hq))
              · exact (Nat.le_of_lt hlt).trans (hole (.inr hq))
          have hfewer := card_lt_of_update (P := (p < ·)) hprio (Nat.lt_irrefl p) hup
          obtain ⟨s', hrun', hsorted', hleast, hkept'⟩ := ih (h.reprioritised hsame) hsorted
            (hoprio ▸ hlt) hwanted howner (by omega)
          refine ⟨s', hrun.trans hrun', hsorted', hleast, fun u hu => ?_⟩
          rw [hkept' u ((hkept₁ u hu).symm ▸ hu), hkept₁ u hu]
      · have hnot : ∀ m, (s.tcb t).state ≠ .pend m := fun m hm => hwait ⟨m, hm⟩
        refine ⟨_, osTaskChangePrio_end fuel p hnot, h.setPrio_sorted hs hnot p, fun u => ?_, ?_⟩
        · refine (s.setPrio_reprioritised t p).wanted (s.setPrio_prio t p) ?_ hothers ht
          rintro ⟨m, hm, -⟩
          exact hnot m hm
        · rw [setPrio_prio]
          exact hkept

/-- **A priority goes down**, and with it those of the owners along the chain, which
have the same one. -/
theorem Coherent.lower {fuel : Nat} (h : s.Coherent) (hs : s.Sorted)
    (hbase : ∀ u, (s.tcb u).basePrio < osCfgPrioMax) (hdown : s.prio t < p)
    (hothers : ∀ u ≠ t, IsLeast (s.wants u) (s.prio u)) (ht : IsLeast (s.wants t) p)
    (hlevel : ∀ u, Relation.ReflTransGen s.Waits t u → s.prio u = s.prio t)
    (hfuel : (Finset.univ.filter fun u => s.prio u = s.prio t).card ≤ fuel) :
    ∃ s', s.osTaskChangePrio fuel t p = some s' ∧ s'.Sorted ∧
      ∀ u, IsLeast (s'.wants u) (s'.prio u) := by
  induction fuel generalizing s t p with
  | zero =>
      have hmem : t ∈ Finset.univ.filter fun u => s.prio u = s.prio t := by simp
      rw [Finset.card_eq_zero.mp (Nat.le_zero.mp hfuel)] at hmem
      cases hmem
  | succ fuel ih =>
      have hothers' : ∀ u ≠ t, IsLeast (s.wants u ∪ ∅) (s.prio u) := by simpa using hothers
      have ht' : IsLeast (s.wants t ∪ ∅) p := by simpa using ht
      by_cases hwait : ∃ m, (s.tcb t).state = .pend m
      · obtain ⟨m, hstate⟩ := hwait
        obtain ⟨s₁, o, hto, hot, hsame, hsorted, hprio, hrun⟩ :=
          h.osTaskChangePrio_next hs hstate fuel p
        have hwanted : ∀ u ≠ o, IsLeast (s₁.wants u) (s₁.prio u) := by
          intro u hu
          simpa using hsame.wanted hprio (fun hw => hu (hw.unique hto)) hothers' ht'
        have hoprio : s₁.prio o = s.prio o := by rw [hprio, Function.update_of_ne hot]
        have heq : s.prio o = s.prio t := hlevel o (.single hto)
        have hcoherent := h.reprioritised hsame
        have hbase₁ : ∀ u, (s₁.tcb u).basePrio < osCfgPrioMax := fun u => by
          rw [hsame.basePrio]
          exact hbase u
        have howner := hcoherent.prioNew_wants hsorted (hbase₁ o)
        rw [if_neg (Nat.lt_asymm hdown), if_pos heq] at hrun
        by_cases hstay : s₁.prioNew o = s.prio o
        · rw [if_pos hstay] at hrun
          refine ⟨s₁, hrun, hsorted, fun u => ?_⟩
          by_cases hu : u = o
          · rw [hu, hoprio, ← hstay]
            exact howner
          · exact hwanted u hu
        · rw [if_neg hstay] at hrun
          have hlower : s₁.prio o < s₁.prioNew o := by
            rw [hoprio]
            refine Nat.lt_of_le_of_ne ?_ (Ne.symm hstay)
            rcases hsame.wants_subset hprio howner.1 with hp | hold
            · rw [hp, heq]
              exact Nat.le_of_lt hdown
            · exact (hothers o hot).2 hold
          -- who waits for `t` has not its old priority, so the chain does not come back
          have hlevel₁ : ∀ u, Relation.ReflTransGen s₁.Waits o u → s₁.prio u = s₁.prio o := by
            rintro u hchain
            have hmono : Relation.ReflTransGen s.Waits o u :=
              Relation.ReflTransGen.mono (fun _ _ => hsame.waits.mp) _ _ hchain
            have hu := hlevel u (.head hto hmono)
            rw [hoprio, heq, hprio, Function.update_of_ne, hu]
            rintro rfl
            rcases hmono.cases_tail with hou | ⟨w, how, hwu⟩
            · exact hot hou.symm
            · have hw := hlevel w (.head hto how)
              have := ht.2 (.inr ⟨w, hwu, rfl⟩)
              omega
          have hfewer := card_lt_of_update (P := (· = s.prio t)) hprio (Nat.ne_of_gt hdown) rfl
          obtain ⟨s', hrun', hfinal⟩ := ih hcoherent hsorted hbase₁ hlower hwanted howner hlevel₁
            (by rw [hoprio, heq]; omega)
          exact ⟨s', hrun.trans hrun', hfinal⟩
      · have hnot : ∀ m, (s.tcb t).state ≠ .pend m := fun m hm => hwait ⟨m, hm⟩
        refine ⟨_, osTaskChangePrio_end fuel p hnot, h.setPrio_sorted hs hnot p, fun u => ?_⟩
        have hwaits : ¬ s.Waits t u := by
          rintro ⟨m, hm, -⟩
          exact hnot m hm
        simpa using (s.setPrio_reprioritised t p).wanted (s.setPrio_prio t p) hwaits hothers' ht'

omit [Fintype τ] in
/-- Where the owner along the chain has another priority, it is handed the one that goes
down, however low that is. -/
theorem Coherent.lower_unlevel (fuel : Nat) (h : s.Coherent) (hs : s.Sorted) (ht : s.Waits t o)
    (ho : ∀ m, (s.tcb o).state ≠ .pend m) (hdown : s.prio t < p) (hne : s.prio o ≠ s.prio t) :
    ∃ s', s.osTaskChangePrio (fuel + 2) t p = some s' ∧ s'.prio o = p := by
  obtain ⟨m, hstate, -⟩ := id ht
  obtain ⟨s₁, o', hto, -, hsame, -, -, hrun⟩ := h.osTaskChangePrio_next hs hstate (fuel + 1) p
  obtain rfl := hto.unique ht
  have hend : ∀ m, (s₁.tcb o').state ≠ .pend m := fun m => by
    rw [hsame.state]
    exact ho m
  rw [if_neg (Nat.lt_asymm hdown), if_neg hne, osTaskChangePrio_end fuel p hend] at hrun
  exact ⟨_, hrun, by rw [setPrio_prio, Function.update_self]⟩

end Chain

/-! ### What every call keeps -/

/-- Each task has the highest priority among its own and those of the tasks that wait
for it. -/
structure Inherits (s : Mutexes κ τ) : Prop where
  coherent : s.Coherent
  sorted : s.Sorted
  basePrio : ∀ t, (s.tcb t).basePrio < osCfgPrioMax
  least : ∀ t, IsLeast (s.wants t) (s.prio t)

variable {fuel : Nat} {head : τ} {ts : List τ}

omit [DecidableEq κ] [DecidableEq τ] in
/-- Nobody's priority changes, and nobody waits for somebody else. -/
theorem Inherits.same (h : s.Inherits) (coherent : s'.Coherent) (hprio : s'.prio = s.prio)
    (hbase : ∀ t, (s'.tcb t).basePrio = (s.tcb t).basePrio)
    (hlist : ∀ m, (s'.mutex m).pendList = (s.mutex m).pendList)
    (hwaits : ∀ w t, s'.Waits w t ↔ s.Waits w t) : s'.Inherits where
  coherent := coherent
  sorted m := by
    rw [hlist, hprio]
    exact h.sorted m
  basePrio t := by
    rw [hbase]
    exact h.basePrio t
  least t := by
    have hwants : s'.wants t = s.wants t := by
      simp only [wants, hbase, hwaits, hprio]
    rw [hwants, hprio]
    exact h.least t

theorem Inherits.takes (h : s.Inherits) (hm : (s.mutex m).owner = none)
    (ht : (s.tcb t).state = .rdy) :
    ((s.setMutex m { s.mutex m with owner := some t, nesting := 1 }).osMutexGrpAdd t
      m).Inherits := by
  have hnone : ∀ w, (s.tcb w).state ≠ .pend m := by
    rintro w hw
    obtain ⟨o, howner⟩ := h.coherent.exists_owner hw
    rw [hm] at howner
    cases howner
  refine h.same (h.coherent.takes hm ht) ?_ ?_ ?_ ?_
  · funext u
    simp only [prio, osMutexGrpAdd, setMutex, setTcb, Function.update_apply]
    grind
  · simp only [osMutexGrpAdd, setMutex, setTcb, Function.update_apply]
    grind
  · simp only [osMutexGrpAdd, setMutex, setTcb, Function.update_apply]
    grind
  · simp only [Waits, osMutexGrpAdd, setMutex, setTcb, Function.update_apply]
    grind

omit [DecidableEq τ] in
theorem Inherits.setNesting (h : s.Inherits) (hm : (s.mutex m).owner = some t)
    (ht : (s.tcb t).state = .rdy) {n : Nat} (hpos : 0 < n) (hle : n ≤ 255) :
    (s.setMutex m { s.mutex m with nesting := n }).Inherits := by
  refine h.same (h.coherent.setNesting hm ht hpos hle) rfl (fun _ => rfl) ?_ ?_
  · simp only [setMutex, Function.update_apply]
    grind
  · simp only [Waits, setMutex, Function.update_apply]
    grind

omit [DecidableEq κ] in
theorem Inherits.setState (h : s.Inherits) (ht : ∀ m, (s.tcb t).state ≠ .pend m)
    {w : MutexWait κ} (hw : w = .rdy ∨ w = .blocked) : (s.setState t w).Inherits := by
  refine h.same (h.coherent.setState ht hw) ?_ ?_ (fun _ => rfl) ?_
  · funext u
    simp only [prio, Mutexes.setState, setTcb, Function.update_apply]
    grind
  · simp only [Mutexes.setState, setTcb, Function.update_apply]
    grind
  · simp only [Waits, Mutexes.setState, setTcb, Function.update_apply]
    grind

omit [DecidableEq κ] [DecidableEq τ] in
theorem Inherits.record (h : s.Inherits) (o : MutexObs κ τ) : (s.record o).Inherits :=
  h.same (h.coherent.record o) rfl (fun _ => rfl) (fun _ => rfl) fun _ _ => .rfl

theorem Inherits.frees (h : s.Inherits) (hm : (s.mutex m).owner = some t)
    (hlist : (s.mutex m).pendList = []) (ht : (s.tcb t).state = .rdy) :
    ((s.leave t m).setMutex m ⟨none, 0, []⟩).Inherits := by
  have hnone : ∀ w, (s.tcb w).state ≠ .pend m := by
    rintro w hw
    have hmem := (h.coherent.waiting m w).mpr hw
    rw [hlist] at hmem
    cases hmem
  refine h.same (h.coherent.frees hm hlist ht) ?_ ?_ ?_ ?_
  · funext u
    simp only [prio, leave, setMutex, setTcb, Function.update_apply]
    grind
  · simp only [leave, setMutex, setTcb, Function.update_apply]
    grind
  · simp only [leave, setMutex, setTcb, Function.update_apply]
    grind
  · simp only [Waits, leave, setMutex, setTcb, Function.update_apply]
    grind

/-- The owner that gives a mutex away falls back to what it still wants. -/
theorem handOver_prio (s : Mutexes κ τ) (t head : τ) (ts : List τ) (m : κ) :
    (s.handOver t head ts m).prio = ((s.leave t m).osMutexDisinherit t).prio := by
  funext u
  by_cases hu : u = head <;> simp [prio, handOver, setTcb, setMutex, hu]

theorem leave_prio (s : Mutexes κ τ) (t : τ) (m : κ) : (s.leave t m).prio = s.prio := by
  funext u
  by_cases hu : u = t <;> simp [prio, leave, setTcb, hu]

omit [DecidableEq κ] in
theorem osMutexDisinherit_prio_of_ne (s : Mutexes κ τ) (hu : u ≠ t) :
    (s.osMutexDisinherit t).prio u = s.prio u := by
  unfold osMutexDisinherit
  split
  · rw [setPrio_prio, Function.update_of_ne hu]
  · rfl

theorem handOver_basePrio (s : Mutexes κ τ) (t head : τ) (ts : List τ) (m : κ) (u : τ) :
    ((s.handOver t head ts m).tcb u).basePrio = (s.tcb u).basePrio := by
  have hbase := ((s.leave t m).osMutexDisinherit_reprioritised t).basePrio u
  have hleave : ((s.leave t m).tcb u).basePrio = (s.tcb u).basePrio := by
    by_cases hu : u = t <;> simp [leave, setTcb, hu]
  by_cases hu : u = head
  · subst hu
    simp [handOver, setTcb, setMutex, hbase, hleave]
  · simp [handOver, setTcb, setMutex, hu, hbase, hleave]

/-- The owner that runs has what it wants without the mutex. -/
theorem Inherits.leave_least (h : s.Inherits) (t : τ) (m : κ) :
    IsLeast {p | p = (s.tcb t).basePrio ∨ ∃ m' w, m' ≠ m ∧ (s.tcb w).state = .pend m' ∧
      (s.mutex m').owner = some t ∧ p = s.prio w}
      (((s.leave t m).osMutexDisinherit t).prio t) := by
  set W := {p | p = (s.tcb t).basePrio ∨ ∃ m' w, m' ≠ m ∧ (s.tcb w).state = .pend m' ∧
    (s.mutex m').owner = some t ∧ p = s.prio w}
  have hbase : ((s.leave t m).tcb t).basePrio = (s.tcb t).basePrio := by simp [leave, setTcb]
  have hsub : W ⊆ s.wants t := by
    rintro p (hp | ⟨m', w, -, hw, ho, hp⟩)
    · exact .inl hp
    · exact .inr ⟨w, ⟨m', hw, ho⟩, hp⟩
  have hnew : IsLeast W ((s.leave t m).prioNew t) := by
    have hsorted : (s.leave t m).Sorted := by
      intro m'
      rw [leave_prio]
      exact h.sorted m'
    have hleast := prioNew_isLeast hsorted (hbase ▸ h.basePrio t)
    convert hleast using 1
    ext p
    have hnodup := h.coherent.groupNodup t
    simp only [W, Set.mem_ofPred_eq, hbase, leave_mutexGrp, if_true, leave_prio,
      hnodup.mem_erase_iff, h.coherent.group]
    change _ ↔ _ ∨ ∃ m', _ ∧ ∃ w ∈ (s.mutex m').pendList, _
    simp only [h.coherent.waiting]
    grind
  unfold osMutexDisinherit
  rw [leave_prio, hbase]
  split
  · rwa [setPrio_prio, Function.update_self]
  · rename_i hstay
    have hge := (h.least t).2 (hsub hnew.1)
    have hlow : s.prio t ∈ lowerBounds W := fun p hp => (h.least t).2 (hsub hp)
    rw [leave_prio]
    refine ⟨?_, hlow⟩
    by_cases hown : s.prio t = (s.tcb t).basePrio
    · exact .inl hown
    · have heq : s.prio t = (s.leave t m).prioNew t := by
        rcases not_and_or.mp hstay with hno | hno
        · exact absurd hown hno
        · omega
      exact heq ▸ hnew.1

theorem Inherits.handOver (h : s.Inherits) (hm : (s.mutex m).owner = some t)
    (hlist : (s.mutex m).pendList = head :: ts) (ht : (s.tcb t).state = .rdy) :
    (s.handOver t head ts m).Inherits := by
  have hpend := (h.coherent.waiting m head).mp (hlist ▸ List.mem_cons_self)
  have hne : head ≠ t := by
    rintro rfl
    rw [hpend] at ht
    cases ht
  have hothers : ∀ u ≠ t, (s.handOver t head ts m).prio u = s.prio u := by
    rintro u hu
    rw [handOver_prio, osMutexDisinherit_prio_of_ne _ hu, leave_prio]
  have hwaiter : ∀ w m', (s.tcb w).state = .pend m' →
      (s.handOver t head ts m).prio w = s.prio w := by
    rintro w m' hw
    refine hothers w ?_
    rintro rfl
    rw [hw] at ht
    cases ht
  have hsorted := h.sorted m
  rw [hlist, List.pairwise_cons] at hsorted
  have hmem : ∀ w, (s.tcb w).state = .pend m → w = head ∨ w ∈ ts := by
    rintro w hw
    have := (h.coherent.waiting m w).mpr hw
    rwa [hlist, List.mem_cons] at this
  constructor
  · exact h.coherent.handOver hm hlist ht
  · intro m'
    rw [handOver_mutex]
    by_cases hm' : m' = m
    · subst hm'
      rw [Function.update_self]
      refine hsorted.2.imp_of_mem fun {a b} ha hb hle => ?_
      have hin : ∀ w ∈ ts, (s.tcb w).state = .pend m' := fun w hw =>
        (h.coherent.waiting m' w).mp (hlist ▸ List.mem_cons_of_mem head hw)
      rwa [hwaiter a m' (hin a ha), hwaiter b m' (hin b hb)]
    · rw [Function.update_of_ne hm']
      refine (h.sorted m').imp_of_mem fun {a b} ha hb hle => ?_
      rwa [hwaiter a m' ((h.coherent.waiting m' a).mp ha),
        hwaiter b m' ((h.coherent.waiting m' b).mp hb)]
  · intro u
    rw [handOver_basePrio]
    exact h.basePrio u
  · intro u
    have hwants : (s.handOver t head ts m).wants u = {p | p = (s.tcb u).basePrio ∨
        ∃ m' w, w ≠ head ∧ (s.tcb w).state = .pend m' ∧
          (if m' = m then head = u else (s.mutex m').owner = some u) ∧ p = s.prio w} := by
      ext p
      simp only [wants, Waits, Set.mem_ofPred_eq, handOver_basePrio, handOver_state,
        handOver_mutex, Function.update_apply]
      grind
    rw [hwants]
    by_cases hut : u = t
    · subst hut
      rw [handOver_prio]
      convert h.leave_least u m using 1
      ext p
      simp only [Set.mem_ofPred_eq]
      grind
    · rw [hothers u hut]
      obtain ⟨hleast, hle⟩ := h.least u
      -- it waits for no task but the old owner
      have hwaits : ∀ w m', (s.tcb w).state = .pend m' → (s.mutex m').owner = some u →
          w ≠ head ∧ m' ≠ m := by
        rintro w m' hw ho
        have hm' : m' ≠ m := by
          rintro rfl
          exact hut (Option.some.inj (ho.symm.trans hm))
        refine ⟨?_, hm'⟩
        rintro rfl
        exact hm' (MutexWait.pend.inj (hw.symm.trans hpend))
      constructor
      · rcases hleast with hbase | ⟨w, ⟨m', hw, ho⟩, hp⟩
        · exact .inl hbase
        · obtain ⟨hwh, hm'⟩ := hwaits w m' hw ho
          exact .inr ⟨m', w, hwh, hw, by rwa [if_neg hm'], hp⟩
      · rintro p (hbase | ⟨m', w, hwh, hw, ho, rfl⟩)
        · exact hle (.inl hbase)
        · by_cases hm' : m' = m
          · subst hm'
            rw [if_pos rfl] at ho
            subst ho
            exact hsorted.1 w ((hmem w hw).resolve_left hwh)
          · rw [if_neg hm'] at ho
            exact hle (.inr ⟨w, ⟨m', hw, ho⟩, rfl⟩)

theorem osPend_prio (s : Mutexes κ τ) (t : τ) (m : κ) : (s.osPend t m).prio = s.prio := by
  funext u
  by_cases hu : u = t <;> simp [prio, osPend, setState, setTcb, setPendList, setMutex, hu]

theorem osPend_basePrio (s : Mutexes κ τ) (t u : τ) (m : κ) :
    ((s.osPend t m).tcb u).basePrio = (s.tcb u).basePrio := by
  by_cases hu : u = t <;> simp [osPend, setState, setTcb, setPendList, setMutex, hu]

theorem osPend_waits (ht : (s.tcb t).state = .rdy) :
    (s.osPend t m).Waits w u ↔ s.Waits w u ∨ w = t ∧ (s.mutex m).owner = some u := by
  simp only [Waits, osPend, setState, setTcb, setPendList, setMutex, Function.update_apply]
  grind

theorem wake_prio (s : Mutexes κ τ) (t : τ) (m : κ) (r : MutexErr) :
    (s.wake t m r).prio = s.prio := by
  funext u
  by_cases hu : u = t <;> simp [prio, wake, setState, setTcb, setPendList, setMutex, hu]

theorem wake_basePrio (s : Mutexes κ τ) (t u : τ) (m : κ) (r : MutexErr) :
    ((s.wake t m r).tcb u).basePrio = (s.tcb u).basePrio := by
  by_cases hu : u = t <;> simp [wake, setState, setTcb, setPendList, setMutex, hu]

theorem wake_waits {r : MutexErr} : (s.wake t m r).Waits w u ↔ s.Waits w u ∧ w ≠ t := by
  simp only [Waits, wake, setState, setTcb, setPendList, setMutex, Function.update_apply]
  grind

theorem wake_wants_subset {r : MutexErr} : (s.wake t m r).wants u ⊆ s.wants u := by
  rintro p (hp | ⟨w, hw, rfl⟩)
  · exact .inl ((wake_basePrio s t u m r).symm ▸ hp)
  · exact .inr ⟨w, (wake_waits.mp hw).1, by rw [wake_prio]⟩

theorem Inherits.wake_sorted (h : s.Inherits) (t : τ) (m : κ) (r : MutexErr) :
    (s.wake t m r).Sorted := by
  intro m'
  rw [wake_prio]
  by_cases hm : m' = m
  · subst hm
    simpa [wake, Mutexes.setState, setTcb, setPendList, setMutex] using
      (h.sorted m').sublist List.erase_sublist
  · simpa [wake, Mutexes.setState, setTcb, setPendList, setMutex, hm] using h.sorted m'

variable [Fintype τ]

/-- A task waits for a mutex whose owner is lower, or high enough already. -/
theorem Inherits.waits (h : s.Inherits) (hm : (s.mutex m).owner = some u) (hu : u ≠ t)
    (ht : (s.tcb t).state = .rdy) (hfuel : Fintype.card τ ≤ fuel) :
    ∃ s', ((if s.prio u > s.prio t then s.osTaskChangePrio fuel u (s.prio t) else some s).map
      fun s => s.osPend t m) = some s' ∧ s'.Inherits := by
  have hraise : ∃ s₁, (if s.prio u > s.prio t then s.osTaskChangePrio fuel u (s.prio t)
      else some s) = some s₁ ∧ s.Reprioritised s₁ ∧ s₁.Sorted ∧ s₁.prio t = s.prio t ∧
        ∀ v, IsLeast (s₁.wants v ∪ if v = u then {s.prio t} else ∅) (s₁.prio v) := by
    by_cases hlow : s.prio u > s.prio t
    · rw [if_pos hlow]
      have hothers : ∀ v ≠ u,
          IsLeast (s.wants v ∪ if v = u then {s.prio t} else ∅) (s.prio v) := by
        rintro v hv
        simpa [hv] using h.least v
      have howner : IsLeast (s.wants u ∪ if u = u then {s.prio t} else ∅) (s.prio t) := by
        rw [if_pos rfl]
        refine ⟨.inr rfl, ?_⟩
        rintro p (hp | rfl)
        · exact (Nat.le_of_lt hlow).trans ((h.least u).2 hp)
        · exact Nat.le_refl _
      obtain ⟨s₁, hrun, hsorted, hleast, hkept⟩ := h.coherent.raise _ h.sorted hlow hothers howner
        ((Finset.card_filter_le _ _).trans hfuel)
      exact ⟨s₁, hrun, h.coherent.osTaskChangePrio hrun, hsorted, hkept t (Nat.le_refl _), hleast⟩
    · rw [if_neg hlow]
      refine ⟨s, rfl, .refl s, h.sorted, rfl, fun v => ?_⟩
      by_cases hv : v = u
      · subst hv
        rw [if_pos rfl]
        obtain ⟨hmem, hle⟩ := h.least v
        refine ⟨.inl hmem, ?_⟩
        rintro p (hp | rfl)
        · exact hle hp
        · exact Nat.le_of_not_lt hlow
      · simpa [hv] using h.least v
  obtain ⟨s₁, hrun, hsame, hsorted, hprio, hleast⟩ := hraise
  refine ⟨s₁.osPend t m, by rw [hrun]; rfl, ?_⟩
  have hm₁ := (hsame.owner m).trans hm
  have ht₁ := (hsame.state t).trans ht
  constructor
  · exact (h.coherent.reprioritised hsame).osPend hm₁ hu ht₁
  · intro m'
    rw [osPend_prio]
    by_cases hm' : m' = m
    · subst hm'
      simpa [Mutexes.osPend, Mutexes.setState, setTcb, setPendList, setMutex] using
        pairwise_osPendListInsertPrio (hsorted m') t
    · simpa [Mutexes.osPend, Mutexes.setState, setTcb, setPendList, setMutex, hm'] using hsorted m'
  · intro v
    rw [osPend_basePrio, hsame.basePrio]
    exact h.basePrio v
  · intro v
    have hwants : (s₁.osPend t m).wants v =
        s₁.wants v ∪ if v = u then {s.prio t} else ∅ := by
      ext p
      simp only [wants, osPend_waits ht₁, osPend_basePrio, osPend_prio, hm₁, ← hprio,
        Set.mem_ofPred_eq, Set.mem_union, Option.some.injEq]
      by_cases hv : v = u
      · subst hv
        simp only [if_true, Set.mem_singleton_iff]
        grind
      · simp only [if_neg hv, Set.mem_empty_iff_false]
        grind
    rw [hwants, osPend_prio]
    exact hleast v

/-- A task waits no more; its owner may have had the priority from it. -/
theorem Inherits.givesUp (h : s.Inherits) (ht : (s.tcb t).state = .pend m)
    (hm : (s.mutex m).owner = some o) (hfuel : Fintype.card τ ≤ fuel)
    (hlevel : s.prio o ≠ (s.tcb o).basePrio → s.prio o = s.prio t →
      ∀ u, Relation.ReflTransGen s.Waits o u → s.prio u = s.prio o) :
    ∃ s', (if (s.wake t m .timeout).prio o ≠ ((s.wake t m .timeout).tcb o).basePrio ∧
        (s.wake t m .timeout).prio o = (s.wake t m .timeout).prio t ∧
        (s.wake t m .timeout).prioNew o ≠ (s.wake t m .timeout).prio o then
      (s.wake t m .timeout).osTaskChangePrio fuel o ((s.wake t m .timeout).prioNew o)
    else some (s.wake t m .timeout)) = some s' ∧ s'.Inherits := by
  have hto : s.Waits t o := ⟨m, ht, hm⟩
  have hcoherent := h.coherent.wake ht
  have hsorted := h.wake_sorted t m .timeout
  have hbase : ∀ u, ((s.wake t m .timeout).tcb u).basePrio < osCfgPrioMax := fun u => by
    rw [wake_basePrio]
    exact h.basePrio u
  have hnew := hcoherent.prioNew_wants hsorted (hbase o)
  have hlow : s.prio o ∈ lowerBounds ((s.wake t m .timeout).wants o) := fun p hp =>
    (h.least o).2 (wake_wants_subset hp)
  have hothers : ∀ u ≠ o,
      IsLeast ((s.wake t m .timeout).wants u) ((s.wake t m .timeout).prio u) := by
    rintro u hu
    rw [wake_prio]
    obtain ⟨hmem, hle⟩ := h.least u
    refine ⟨?_, fun p hp => hle (wake_wants_subset hp)⟩
    rcases hmem with hp | ⟨w, hw, hp⟩
    · exact .inl ((wake_basePrio s t u m _).symm ▸ hp)
    · refine .inr ⟨w, wake_waits.mpr ⟨hw, ?_⟩, by rwa [wake_prio]⟩
      rintro rfl
      exact hu (hw.unique hto)
  simp only [wake_prio, wake_basePrio]
  split
  · rename_i hlowers
    obtain ⟨hown, hinherited, hchanged⟩ := hlowers
    have hdown : (s.wake t m .timeout).prio o < (s.wake t m .timeout).prioNew o := by
      rw [wake_prio]
      exact Nat.lt_of_le_of_ne (hlow hnew.1) (Ne.symm hchanged)
    obtain ⟨s', hrun, hsorted', hleast⟩ := hcoherent.lower hsorted hbase hdown hothers hnew
      (fun u hu => by
        simp only [wake_prio]
        exact hlevel hown hinherited u
          (Relation.ReflTransGen.mono (fun _ _ hw => (wake_waits.mp hw).1) _ _ hu))
      ((Finset.card_filter_le _ _).trans hfuel)
    have hsame := hcoherent.osTaskChangePrio hrun
    refine ⟨s', hrun, hcoherent.reprioritised hsame, hsorted', fun u => ?_, hleast⟩
    rw [hsame.basePrio]
    exact hbase u
  · rename_i hstays
    refine ⟨_, rfl, hcoherent, hsorted, hbase, fun u => ?_⟩
    by_cases hu : u = o
    · subst hu
      rw [wake_prio]
      refine ⟨?_, hlow⟩
      by_cases hown : s.prio u = (s.tcb u).basePrio
      · exact .inl ((wake_basePrio s t u m _).symm ▸ hown)
      · by_cases hinherited : s.prio u = s.prio t
        · have hsame : (s.wake t m .timeout).prioNew u = s.prio u := by
            by_contra hne
            exact hstays ⟨hown, hinherited, hne⟩
          exact hsame ▸ hnew.1
        · rcases (h.least u).1 with hp | ⟨w, hw, hp⟩
          · exact absurd hp hown
          · refine .inr ⟨w, wake_waits.mpr ⟨hw, ?_⟩, by rwa [wake_prio]⟩
            rintro rfl
            exact hinherited hp
    · exact hothers u hu

end Mutexes

/-- Where a wait times out that gave the owner its priority, the tasks that the owner
waits for in turn have that priority too. -/
def MutexCall.Level (s : Mutexes κ τ) : MutexCall κ τ → Prop
  | .timeout t => ∀ o, s.Waits t o → s.prio o ≠ (s.tcb o).basePrio → s.prio o = s.prio t →
      ∀ u, Relation.ReflTransGen s.Waits o u → s.prio u = s.prio o
  | _ => True

namespace Mutexes

variable {s : Mutexes κ τ} [DecidableEq κ] [DecidableEq τ] [Fintype τ] {fuel : Nat}

/-- **Step.** A call ends, and keeps what the priorities are. -/
theorem Inherits.step (h : s.Inherits) (hfuel : Fintype.card τ ≤ fuel) {e : MutexCall κ τ}
    (possible : e.Possible s) (level : e.Level s) :
    ∃ s', (mutexMachine fuel).step s e = some s' ∧ s'.Inherits := by
  have hdoes := h.coherent.does fuel possible
  generalize (mutexMachine fuel).step s e = result at hdoes ⊢
  cases hdoes with
  | takes hm ht => exact ⟨_, rfl, (h.takes hm ht).record _⟩
  | nests hm hlt =>
      exact ⟨_, rfl, (h.setNesting hm possible (Nat.succ_pos _) hlt).record _⟩
  | refused _ _ _ | denied _ => exact ⟨_, rfl, h.record _⟩
  | waits hm hu ht => exact h.waits hm hu ht hfuel
  | returns ht => exact ⟨_, rfl, (h.setState (by simp [ht]) (.inl rfl)).record _⟩
  | unnests hm hlt =>
      have hle := (h.coherent.held _ _ hm).2.1
      exact ⟨_, rfl, (h.setNesting hm possible (by omega) (by omega)).record _⟩
  | frees hm _ hlist ht => exact ⟨_, rfl, (h.frees hm hlist ht).record _⟩
  | handsOver hm _ hlist ht => exact ⟨_, rfl, (h.handOver hm hlist ht).record _⟩
  | givesUp ht hm => exact h.givesUp ht hm hfuel (level _ ⟨_, ht, hm⟩)
  | blocks ht => exact ⟨_, rfl, h.setState (by simp [ht]) (.inr rfl)⟩
  | unblocks ht => exact ⟨_, rfl, h.setState (by simp [ht]) (.inl rfl)⟩

omit [DecidableEq κ] [DecidableEq τ] [Fintype τ] in
theorem Start.inherits (h : s.Start) : s.Inherits := by
  have hnobody : ∀ w t, ¬ s.Waits w t := by
    rintro w t ⟨m, -, hm⟩
    rw [h.mutex m] at hm
    cases hm
  refine ⟨h.coherent, fun m => ?_, h.basePrio, fun t => ⟨.inl (h.prio t), ?_⟩⟩
  · rw [h.mutex m]
    exact .nil
  · rintro p (rfl | ⟨w, hw, -⟩)
    · exact Nat.le_of_eq (h.prio t)
    · exact absurd hw (hnobody w t)

omit [DecidableEq κ] [DecidableEq τ] [Fintype τ] in
/-- Who is waited for, even through others, is not lower than who waits. -/
theorem Inherits.le_of_waits (h : s.Inherits) {w t : τ} (hw : Relation.TransGen s.Waits w t) :
    s.prio t ≤ s.prio w := by
  induction hw with
  | single hw => exact (h.least _).2 (.inr ⟨w, hw, rfl⟩)
  | tail _ hw ih => exact ((h.least _).2 (.inr ⟨_, hw, rfl⟩)).trans ih

end Mutexes

variable [DecidableEq κ] [DecidableEq τ] [Fintype τ]

/-- **Priority inheritance.** After any run in which the priorities that go down are
level, each task has the highest priority among its own and those of the tasks that
wait for it: no task waits, even through others, for a lower one. The first task
that waits for a mutex is the highest. -/
theorem priority_inheritance {fuel : Nat} (hfuel : Fintype.card τ ≤ fuel) {s₀ : Mutexes κ τ}
    (start : s₀.Start) {es : List (MutexCall κ τ)}
    (guarded : (mutexMachine fuel).Guarded (fun s e => e.Possible s ∧ e.Level s) s₀ es) :
    ∃ s, (mutexMachine fuel).run s₀ es = some s ∧
      (∀ t, IsLeast (s.wants t) (s.prio t)) ∧
      (∀ w t, Relation.TransGen s.Waits w t → s.prio t ≤ s.prio w) ∧
      ∀ m head, (s.mutex m).pendList.head? = some head →
        ∀ w, (s.tcb w).state = .pend m → s.prio head ≤ s.prio w := by
  obtain ⟨s, hrun, h⟩ := Machine.run_progress Mutexes.Inherits
    (fun s e h hok => h.step hfuel hok.1 hok.2) start.inherits guarded
  refine ⟨s, hrun, h.least, fun w t hw => h.le_of_waits hw, ?_⟩
  rintro m head hhead w hw
  have hmem := (h.coherent.waiting m w).mpr hw
  have hsorted := h.sorted m
  cases hlist : (s.mutex m).pendList with
  | nil =>
      rw [hlist] at hhead
      cases hhead
  | cons first rest =>
      rw [hlist] at hmem hsorted hhead
      obtain rfl := Option.some.inj hhead
      rcases List.mem_cons.mp hmem with rfl | hmem
      · exact Nat.le_refl _
      · exact (List.pairwise_cons.mp hsorted).1 w hmem

/-- Three tasks of priorities 7, 5 and 3, and two mutexes -/
def Mutexes.threeTasks : Mutexes Bool (Option Bool) where
  mutex _ := ⟨none, 0, []⟩
  tcb
    | none => ⟨7, 7, [], .rdy⟩
    | some false => ⟨5, 5, [], .rdy⟩
    | some true => ⟨3, 3, [], .rdy⟩
  log := []

theorem Mutexes.threeTasks_start : threeTasks.Start where
  mutex _ := rfl
  prio := by rintro (_ | _ | _) <;> rfl
  basePrio := by rintro (_ | _ | _) <;> simp [threeTasks, osCfgPrioMax]
  mutexGrp := by rintro (_ | _ | _) <;> rfl
  state := by rintro (_ | _ | _) <;> exact .inl rfl
  log := rfl

/-- The third task waits, through the second, for the first, and gives up. -/
def Mutexes.threeTasksRun : List (MutexCall Bool (Option Bool)) :=
  [.pend none false false false, .pend (some false) true false false,
    .pend (some false) false false false, .pend (some true) true false false,
    .timeout (some true), .pendReturn (some true), .post none false, .pendReturn (some false)]

theorem priority_inheritance_three :
    ∃ s, (mutexMachine 3).run Mutexes.threeTasks Mutexes.threeTasksRun = some s ∧
      ∀ t, IsLeast (s.wants t) (s.prio t) := by
  have hguarded : (mutexMachine 3).Guarded (fun s e => e.Possible s ∧
      (match e with
        | .timeout _ => decide (∀ t u, s.prio t = s.prio u)
        | _ => true) = true) Mutexes.threeTasks Mutexes.threeTasksRun := by decide +kernel
  have hlevel : (mutexMachine 3).Guarded (fun s e => e.Possible s ∧ e.Level s)
      Mutexes.threeTasks Mutexes.threeTasksRun := by
    refine hguarded.imp fun s e hok => ⟨hok.1, ?_⟩
    cases e with
    | timeout t =>
        rintro o - - - u -
        exact of_decide_eq_true hok.2 u o
    | _ => trivial
  obtain ⟨s, hrun, hleast, -⟩ :=
    priority_inheritance (by simp) Mutexes.threeTasks_start hlevel
  exact ⟨s, hrun, hleast⟩

end WifiExpander
