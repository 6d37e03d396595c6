import WifiExpander.Protocol

/-!
`ArgsParam` of `app/uart_ptl.c`: where the arguments of a command lie.

`argsParam` takes the layout as a list and `argv` as unbounded. Here every access is
checked against the two arrays, `argvlist` up to its terminator and the 24 elements of
`argv`, so a result says that the loop stays inside both; and each argument lies behind
those before it.
-/

namespace WifiExpander

/-- `argv[argc++] = paramLine`; `none` is a store behind the array. -/
def Param.store (p : Param) (paramLine : Nat) : Option Param :=
  if p.argc < argvMaxNum then
    some ⟨p.argc + 1, Function.update p.argv p.argc (some paramLine)⟩
  else none

/-- The loop of `argsParam`; `none` is an access outside an array. -/
def argsLoopInside : List UInt8 → Nat → Param → Option Param
  | a :: b :: argvlist, paramLine, p =>
      if b = 0 then some p
      else do
        let paramLine := paramLine + a.toNat
        let p ← p.store paramLine
        if p.argc ≥ argvMaxNum then some p else argsLoopInside (b :: argvlist) paramLine p
  | _, _, _ => none

/-- `argsParam` on an `argvlist` of which just these elements can be read. -/
def argsParamInside (paramLine : Nat) (argvlist : Option (List UInt8)) (p : Param) :
    Option Param :=
  let p := { p with argc := 0 }
  match argvlist with
  | none => some p
  | some [] => none
  | some (a :: argvlist) =>
      if a ≠ 0 then do
        let p ← p.store paramLine
        argsLoopInside (a :: argvlist) paramLine p
      else some p

variable {p p' p₀ : Param} {base q n : Nat} {entries : List UInt8}

/-! ### The same function -/

theorem argsLoop_of_inside {argvlist : List UInt8} (rest : List UInt8)
    (h : argsLoopInside argvlist q p = some p') : argsLoop (argvlist ++ rest) q p = p' := by
  induction argvlist generalizing q p with
  | nil => cases h
  | cons a argvlist ih =>
      cases argvlist with
      | nil => cases h
      | cons b argvlist =>
          unfold argsLoopInside at h
          rw [List.cons_append, List.cons_append, argsLoop]
          by_cases hb : b = 0
          · rw [if_pos hb] at h ⊢
            exact Option.some.inj h
          · rw [if_neg hb] at h ⊢
            obtain ⟨p₁, hstore, hrest⟩ := Option.bind_eq_some_iff.mp h
            unfold Param.store at hstore
            split at hstore
            · cases hstore
              dsimp only at hrest ⊢
              split at hrest
              · rw [if_pos ‹_›]
                exact Option.some.inj hrest
              · rw [if_neg ‹_›]
                exact ih hrest
            · cases hstore

/-- Where no access is outside, it computes what `argsParam` does, whatever is behind
the terminator. -/
theorem argsParam_of_inside {argvlist : List UInt8} (rest : List UInt8)
    (h : argsParamInside q (some argvlist) p = some p') :
    argsParam q (some (argvlist ++ rest)) p = p' := by
  cases argvlist with
  | nil => cases h
  | cons a argvlist =>
      unfold argsParamInside at h
      rw [List.cons_append, argsParam]
      dsimp only at h ⊢
      by_cases ha : a ≠ 0
      · rw [if_pos ha] at h ⊢
        obtain ⟨p₁, hstore, hrest⟩ := Option.bind_eq_some_iff.mp h
        cases hstore
        exact argsLoop_of_inside rest hrest
      · rw [if_neg ha] at h ⊢
        exact Option.some.inj h

/-! ### Positions -/

/-- Where argument `i` begins: `base + a0 + .. + a(i-1)`. -/
def argPosition (base : Nat) (entries : List UInt8) (i : Nat) : Nat :=
  (entries.take i).foldl (fun q a => q + a.toNat) base

theorem argPosition_succ (base : Nat) (l r : List UInt8) (a : UInt8) :
    argPosition base (l ++ a :: r) (l.length + 1) =
      argPosition base (l ++ a :: r) l.length + a.toNat := by
  unfold argPosition
  rw [List.take_left, List.take_append, List.take_of_length_le (Nat.le_succ _),
    Nat.add_sub_cancel_left, List.foldl_append]
  rfl

/-- The first `n` arguments are in place and the rest of `argv` is that of `p₀`. -/
structure ArgsLaid (base : Nat) (entries : List UInt8) (p₀ : Param) (n : Nat) (p : Param) :
    Prop where
  argc : p.argc = n
  positions : ∀ i < n, p.argv i = some (argPosition base entries i)
  kept : ∀ i, n ≤ i → p.argv i = p₀.argv i

theorem ArgsLaid.start (base : Nat) (entries : List UInt8) (p : Param) :
    ArgsLaid base entries p 0 { p with argc := 0 } := by
  constructor
  · rfl
  · intro i hi
    exact absurd hi (Nat.not_lt_zero i)
  · intro i _
    rfl

/-- Storing the next argument -/
theorem ArgsLaid.store (h : ArgsLaid base entries p₀ n p) (hn : n < argvMaxNum) :
    ∃ p', p.store (argPosition base entries n) = some p' ∧
      ArgsLaid base entries p₀ (n + 1) p' := by
  rw [Param.store, h.argc, if_pos hn]
  refine ⟨_, rfl, rfl, ?_, ?_⟩
  · intro i hi
    dsimp only
    rcases Nat.lt_succ_iff_lt_or_eq.mp hi with hlt | rfl
    · rw [Function.update_of_ne (Nat.ne_of_lt hlt)]
      exact h.positions i hlt
    · exact Function.update_self _ _ _
  · intro i hi
    dsimp only
    rw [Function.update_of_ne (Nat.ne_of_gt hi)]
    exact h.kept i (Nat.le_of_succ_le hi)

/-- The loop from the entry `a` on, once it and those before it have their place. -/
theorem argsLoopInside_laid {a : UInt8} {l r : List UInt8} (nonzero : ∀ b ∈ r, b ≠ 0)
    (h : ArgsLaid base (l ++ a :: r) p₀ (l.length + 1) p) (hroom : l.length + 1 < argvMaxNum) :
    ∃ p', argsLoopInside (a :: r ++ [0]) (argPosition base (l ++ a :: r) l.length) p = some p' ∧
      ArgsLaid base (l ++ a :: r) p₀ (min (l ++ a :: r).length argvMaxNum) p' := by
  induction r generalizing l a p with
  | nil =>
      refine ⟨p, ?_, ?_⟩
      · rw [List.cons_append, List.nil_append, argsLoopInside, if_pos rfl]
      · rw [List.length_append, List.length_singleton, Nat.min_eq_left (Nat.le_of_lt hroom)]
        exact h
  | cons b r ih =>
      have hb : b ≠ 0 := nonzero b List.mem_cons_self
      obtain ⟨p₁, hstore, h₁⟩ := h.store hroom
      rw [argPosition_succ] at hstore
      rw [List.cons_append, List.cons_append, argsLoopInside, if_neg hb]
      simp only [hstore, Option.bind_eq_bind, Option.bind_some, h₁.argc]
      by_cases hfull : l.length + 1 + 1 ≥ argvMaxNum
      · rw [if_pos hfull]
        refine ⟨p₁, rfl, ?_⟩
        have hlen : min (l ++ a :: b :: r).length argvMaxNum = l.length + 1 + 1 := by
          rw [List.length_append, List.length_cons, List.length_cons]
          omega
        rw [hlen]
        exact h₁
      · rw [if_neg hfull, ← argPosition_succ]
        -- the loop goes on from `b`, with `a` among the entries before it
        have hsplit : l ++ a :: b :: r = (l ++ [a]) ++ b :: r := by simp
        have hlen : l.length + 1 = (l ++ [a]).length := by simp
        rw [hsplit, hlen] at h₁ ⊢
        refine ih ?_ h₁ ?_
        · intro c hc
          exact nonzero c (List.mem_cons_of_mem b hc)
        · rw [← hlen]
          exact Nat.lt_of_not_le hfull

theorem argsParamInside_laid (base : Nat) (nonzero : ∀ a ∈ entries, a ≠ 0) (p : Param) :
    ∃ p', argsParamInside base (some (entries ++ [0])) p = some p' ∧
      ArgsLaid base entries p (min entries.length argvMaxNum) p' := by
  have hstart := ArgsLaid.start base entries p
  cases entries with
  | nil => exact ⟨{ p with argc := 0 }, rfl, hstart⟩
  | cons a entries =>
      have ha : a ≠ 0 := nonzero a List.mem_cons_self
      obtain ⟨p₁, hstore, h₁⟩ := hstart.store (by decide)
      obtain ⟨p', hloop, h'⟩ := argsLoopInside_laid (l := [])
        (fun b hb => nonzero b (List.mem_cons_of_mem a hb)) h₁ (by decide)
      refine ⟨p', ?_, h'⟩
      rw [List.cons_append, argsParamInside, if_pos ha]
      exact Option.bind_eq_some_iff.mpr ⟨p₁, hstore, hloop⟩

/-- **`ArgsParam` finds the arguments** of every layout, inside both arrays. -/
theorem args_positions (base : Nat) (entries : List UInt8) (nonzero : ∀ a ∈ entries, a ≠ 0)
    (p : Param) :
    (∃ p', argsParamInside base (some (entries ++ [0])) p = some p' ∧
      (∀ rest, argsParam base (some (entries ++ 0 :: rest)) p = p') ∧
      ArgsLaid base entries p (min entries.length argvMaxNum) p') ∧
    argsParamInside base none p = some { p with argc := 0 } ∧
      argsParam base none p = { p with argc := 0 } := by
  obtain ⟨p', hinside, hlaid⟩ := argsParamInside_laid base nonzero p
  refine ⟨⟨p', hinside, ?_, hlaid⟩, rfl, rfl⟩
  intro rest
  have := argsParam_of_inside rest hinside
  rwa [List.append_assoc] at this

/-- `set_adv_data_rsp_argvlist` -/
theorem args_positions_setAdvData :
    ∃ p', argsParamInside dataOff (some [1, 6, 1, 0]) ⟨0, fun _ => none⟩ = some p' ∧
      p'.argc = 3 ∧ p'.argv 2 = some 14 ∧ p'.argv 3 = none := by
  have hentries : ∀ a ∈ ([1, 6, 1] : List UInt8), a ≠ 0 := by simp
  obtain ⟨⟨p', hinside, -, hlaid⟩, -⟩ :=
    args_positions dataOff [1, 6, 1] hentries ⟨0, fun _ => none⟩
  exact ⟨p', hinside, hlaid.argc, hlaid.positions 2 (by decide), hlaid.kept 3 (by decide)⟩

/-! ### The command table -/

/-- The layouts of `uart_cmd_list` end with a 0 that is their first. -/
theorem uartCmdList_layout {τ σ : Type} [SendOps τ] {list : UartCmd τ σ}
    (hmem : list ∈ uartCmdList) :
    ∃ entries, list.argvlist = some (entries ++ [0]) ∧ ∀ a ∈ entries, a ≠ 0 := by
  simp only [uartCmdList, List.mem_cons, List.not_mem_nil, or_false] at hmem
  rcases hmem with rfl | rfl | rfl | rfl | rfl
  · exact ⟨[1], rfl, by simp⟩
  · exact ⟨[1], rfl, by simp⟩
  · exact ⟨[1, 6, 1], rfl, by simp⟩
  · exact ⟨[3, 1], rfl, by simp⟩
  · exact ⟨[4, 1], rfl, by simp⟩

/-- No command takes `ArgsParam` outside an array, whatever `argv` holds from the
commands before it. -/
theorem uartCmdList_args_inside {τ σ : Type} [SendOps τ] {list : UartCmd τ σ}
    (hmem : list ∈ uartCmdList) (p : Param) :
    argsParamInside dataOff list.argvlist p = some (argsParam dataOff list.argvlist p) := by
  obtain ⟨entries, hlayout, nonzero⟩ := uartCmdList_layout hmem
  obtain ⟨p', hinside, -⟩ := argsParamInside_laid dataOff nonzero p
  have hsame := argsParam_of_inside [] hinside
  rw [List.append_nil] at hsame
  rw [hlayout, hsame, hinside]

end WifiExpander
