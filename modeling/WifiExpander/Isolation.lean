import WifiExpander.Ownership

/-!
Do concurrent sends mix?

`uart_protocol_dispose` reaches its buffer through static pointers that all its
callers share. Where no call takes a buffer while another is between its take and
its link, every call links its own buffer, once, with the frame of its own
arguments, and the calls number their frames consecutively.
-/

namespace WifiExpander

open WifiExpander.Theory

/-! ### The history of the calls -/

def Call.disposes (c : Call) : Bool := c.static = .disSendpdata

/-- What a completed call should have linked. -/
def Completed.intended (r : Completed) : BufId × Nat × List UInt8 :=
  (r.buf, r.call.pollType, r.call.bytes r.sn)

/-- The call a task is in. -/
def Pc.current : Pc → List (Call × BufId)
  | .idle => []
  | .taken c b | .filled c b _ => [(c, b)]

namespace Sys

variable {σ : Type}

/-- The sequence numbers of the completed calls of `uart_protocol_dispose`. -/
def disposeSns (s : Sys σ) : List UInt8 :=
  (s.completed.filter fun r => r.call.disposes).map fun r => r.sn

/-- The calls of `t` that obtained a buffer. -/
def obtainedBy (s : Sys σ) (t : Task) : List (Call × BufId) :=
  (s.obtained.filter fun o => o.1 = t).map fun o => o.2

/-- The completed calls of `t`. -/
def completedBy (s : Sys σ) (t : Task) : List (Call × BufId) :=
  (s.completed.filter fun r => r.task = t).map fun r => (r.call, r.buf)

/-- Every call links its own buffer, once, with its own frame; the calls of
`uart_protocol_dispose` are numbered consecutively; the send list is well formed. -/
structure Unmixed (s : Sys Tx) : Prop where
  links : linkObs s.st.log = s.completed.map Completed.intended
  once : ∀ t, s.obtainedBy t = s.completedBy t ++ (s.pc t).current
  numbered : s.disposeSns = (List.range s.disposeSns.length).map UInt8.ofNat
  next : ∀ t c b sn, s.pc t = .filled c b sn → c.disposes = true →
    sn = UInt8.ofNat s.disposeSns.length
  list : IsList s.st.heap .sendList (s.st.linkedBufs.map .entry)

/-- The history of a system over sequences. -/
structure History (s : Sys Pool) : Prop where
  filled : ∀ t c b sn, s.pc t = .filled c b sn →
    (s.st.mem b).frame = c.bytes sn ∧ (s.st.mem b).poll.type = c.pollType
  links : linkObs s.st.log = s.completed.map Completed.intended
  once : ∀ t, s.obtainedBy t = s.completedBy t ++ (s.pc t).current
  numbered : s.disposeSns = (List.range s.disposeSns.length).map UInt8.ofNat
  /-- `uart_send_sn` counts the calls that were filled -/
  next : ∀ t c b sn, s.pc t = .filled c b sn → c.disposes = true →
    sn = UInt8.ofNat s.disposeSns.length ∧
      s.st.uartSendSn = UInt8.ofNat (s.disposeSns.length + 1)
  idle : (∀ t c b sn, s.pc t = .filled c b sn → c.disposes = false) →
    s.st.uartSendSn = UInt8.ofNat s.disposeSns.length

namespace History

variable {s : Sys Pool} {Inv : Pool → (BufId → Prop) → Prop} {t : Task} {c : Call} {b : BufId}
  {sn : UInt8}

/-- The task in the middle of `uart_protocol_dispose` is the only one. -/
theorem alone (hok : Ok Inv s) (hcall : (s.pc t).call = some c) (hc : c.disposes = true) {t' : Task}
    {c' : Call} (hcall' : (s.pc t').call = some c') (hc' : c'.disposes = true) : t' = t := by
  simp only [Call.disposes, decide_eq_true_eq] at hc hc'
  exact hok.one t' t (by simp [Disposing, hcall', hc']) (by simp [Disposing, hcall, hc])

theorem take (h : s.History) (hpc : s.pc t = .idle) {rest : List BufId} :
    History { s.setPc t (.taken c b) with
      st := s.st.takeAt c.static b rest, obtained := s.obtained ++ [(t, c, b)] } := by
  have hfilled : ∀ t' c' b' sn', ((s.setPc t (.taken c b)).pc t') = .filled c' b' sn' ↔
      s.pc t' = .filled c' b' sn' := by
    intro t' c' b' sn'
    by_cases heq : t' = t
    · subst heq; simp [setPc, hpc]
    · simp [setPc, heq]
  refine ⟨?_, h.links, ?_, h.numbered, fun t' c' b' sn' h' =>
    h.next t' c' b' sn' ((hfilled ..).mp h'), fun h' => h.idle fun t' c' b' sn' hs =>
      h' t' c' b' sn' ((hfilled ..).mpr hs)⟩
  · intro t' c' b' sn' h'
    have hold := h.filled t' c' b' sn' ((hfilled ..).mp h')
    simp only [Pool.takeAt, Function.update_apply]
    split
    · rename_i heq
      exact heq ▸ hold
    · exact hold
  · intro t'
    have hold := h.once t'
    by_cases heq : t' = t
    · subst heq
      simp only [hpc, Pc.current, List.append_nil] at hold
      simp only [obtainedBy, completedBy, setPc] at hold ⊢
      simp [List.filter_append, hold, Pc.current]
    · simp only [obtainedBy, completedBy, setPc] at hold ⊢
      simp [List.filter_append, heq, Ne.symm heq, hold]

theorem fill (h : s.History) (hok : Ok Inv s) (hpc : s.pc t = .taken c b) :
    History { s.setPc t (.filled c b s.st.uartSendSn) with st := s.st.fillAt c b } := by
  have hmakes : t.makes c = true := hok.makes t c (by simp [hpc, Pc.call])
  have hcall : (s.pc t).call = some c := by simp [hpc, Pc.call]
  have hother : ∀ t' c' b' sn', t' ≠ t →
      ((s.setPc t (.filled c b s.st.uartSendSn)).pc t' = .filled c' b' sn' ↔
        s.pc t' = .filled c' b' sn') := fun t' c' b' sn' hne => by simp [setPc, hne]
  have hcurrent : ∀ t', ((s.setPc t (.filled c b s.st.uartSendSn)).pc t').current =
      (s.pc t').current := by
    intro t'
    by_cases heq : t' = t
    · subst heq; simp [setPc, hpc, Pc.current]
    · simp [setPc, heq]
  -- before the fill no call of `uart_protocol_dispose` is waiting to link, if this is one
  have hnone : c.disposes = true → ∀ t' c' b' sn', s.pc t' = .filled c' b' sn' →
      c'.disposes = false := by
    intro hc t' c' b' sn' hpc'
    by_contra hc'
    have hcall' : (s.pc t').call = some c' := by simp [hpc', Pc.call]
    obtain rfl := alone hok hcall hc hcall' (by simpa using hc')
    simp [hpc] at hpc'
  refine ⟨?_, h.links, fun t' => by simp only [hcurrent]; exact h.once t', h.numbered, ?_, ?_⟩
  · intro t' c' b' sn' h'
    by_cases heq : t' = t
    · subst heq
      obtain ⟨rfl, rfl, rfl⟩ : c = c' ∧ b = b' ∧ s.st.uartSendSn = sn' := by simpa [setPc] using h'
      simp only [Pool.fillAt, SendVars.setMem, Function.update_self]
      exact Call.fill_bytes hmakes _ _
    · have hpc' := (hother t' c' b' sn' heq).mp h'
      have hne : b' ≠ b := fun hb => heq (hok.holder t' t b
        (by simp [Holds, hpc', Pc.buf, hb]) (by simp [Holds, hpc, Pc.buf]))
      simp only [Pool.fillAt, SendVars.setMem, Function.update_of_ne hne]
      exact h.filled t' c' b' sn' hpc'
  · intro t' c' b' sn' h' hc'
    by_cases heq : t' = t
    · subst heq
      obtain ⟨rfl, -, rfl⟩ : c = c' ∧ b = b' ∧ s.st.uartSendSn = sn' := by simpa [setPc] using h'
      have hsn : s.st.uartSendSn = UInt8.ofNat s.disposeSns.length := h.idle (hnone hc')
      refine ⟨hsn, ?_⟩
      cases c with
      | dispose info => simp only [Pool.fillAt, Call.nextSn, hsn]; simp [disposeSns, setPc]
      | ask | forward => simp [Call.disposes, Call.static] at hc'
    · have hpc' := (hother t' c' b' sn' heq).mp h'
      cases hc : c.disposes with
      | true => simp [hnone hc t' c' b' sn' hpc'] at hc'
      | false =>
          have hsn : c.nextSn s.st.uartSendSn = s.st.uartSendSn := by
            cases c <;> simp_all [Call.disposes, Call.static, Call.nextSn]
          obtain ⟨h₁, h₂⟩ := h.next t' c' b' sn' hpc' hc'
          exact ⟨h₁, hsn.trans h₂⟩
  · intro h'
    have hc : c.disposes = false := h' t c b s.st.uartSendSn (by simp [setPc])
    have hsn : c.nextSn s.st.uartSendSn = s.st.uartSendSn := by
      cases c <;> simp_all [Call.disposes, Call.static, Call.nextSn]
    refine hsn.trans (h.idle fun t' c' b' sn' hpc' => ?_)
    by_cases heq : t' = t
    · subst heq; simp [hpc] at hpc'
    · exact h' t' c' b' sn' ((hother t' c' b' sn' heq).mpr hpc')

theorem link (h : s.History) (hok : Ok Inv s) (hpc : s.pc t = .filled c b sn) :
    History { s.setPc t .idle with
      st := s.st.linkAt b, completed := s.completed ++ [⟨t, c, b, sn⟩] } := by
  have hcall : (s.pc t).call = some c := by simp [hpc, Pc.call]
  have hfilled : ∀ t' c' b' sn', (s.setPc t .idle).pc t' = .filled c' b' sn' ↔
      t' ≠ t ∧ s.pc t' = .filled c' b' sn' := by
    intro t' c' b' sn'
    by_cases heq : t' = t
    · subst heq; simp [setPc]
    · simp [setPc, heq]
  have hsns : disposeSns { s.setPc t .idle with
      st := s.st.linkAt b, completed := s.completed ++ [⟨t, c, b, sn⟩] } =
      s.disposeSns ++ if c.disposes then [sn] else [] := by
    cases hc : c.disposes <;> simp [disposeSns, List.filter_append, hc]
  refine ⟨fun t' c' b' sn' h' => h.filled t' c' b' sn' ((hfilled ..).mp h').2, ?_, ?_, ?_, ?_, ?_⟩
  · obtain ⟨hframe, htype⟩ := h.filled t c b sn hpc
    simp [Pool.linkAt, SendVars.record, linkObs, List.filterMap_append, ← h.links,
      Completed.intended, hframe, htype]
  · intro t'
    have hold := h.once t'
    by_cases heq : t' = t
    · subst heq
      simp only [obtainedBy, completedBy, setPc] at hold ⊢
      simp [List.filter_append, hold, hpc, Pc.current]
    · simp only [obtainedBy, completedBy, setPc] at hold ⊢
      simp [List.filter_append, heq, Ne.symm heq, hold]
  · rw [hsns]
    cases hc : c.disposes with
    | false => simpa using h.numbered
    | true =>
        have hsn := (h.next t c b sn hpc hc).1
        have hnum := h.numbered
        generalize s.disposeSns = sns at hsn hnum
        simp only [if_true, List.length_append, List.length_singleton, List.range_succ,
          List.map_append, List.map_singleton, ← hnum, hsn]
  · intro t' c' b' sn' h' hc'
    obtain ⟨hne, hpc'⟩ := (hfilled ..).mp h'
    rw [hsns]
    cases hc : c.disposes with
    | true => exact absurd (alone hok hcall hc (by simp [hpc', Pc.call]) hc') hne
    | false => simpa [Pool.linkAt, SendVars.record] using h.next t' c' b' sn' hpc' hc'
  · intro h'
    rw [hsns]
    cases hc : c.disposes with
    | true => simpa [Pool.linkAt, SendVars.record] using (h.next t c b sn hpc hc).2
    | false =>
        have hidle := h.idle fun t' c' b' sn' hpc' => by
          by_cases heq : t' = t
          · subst heq
            obtain ⟨rfl, -⟩ : c = c' ∧ _ := by simpa [hpc] using hpc'
            exact hc
          · exact h' t' c' b' sn' ((hfilled ..).mpr ⟨heq, hpc'⟩)
        simpa [Pool.linkAt, SendVars.record] using hidle

theorem pool (h : s.History) {w : Pool} (hw : Pool.SameProducers s.Held s.st w) :
    History { s with st := w } where
  filled t c b sn hpc := by
    have hheld : s.Held b := ⟨t, by simp only [Holds]; simp [show s.pc t = _ from hpc, Pc.buf]⟩
    change (w.mem b).frame = _ ∧ (w.mem b).poll.type = _
    rw [hw.mem b hheld]
    exact h.filled t c b sn hpc
  links := hw.links.trans h.links
  once := h.once
  numbered := h.numbered
  next t c b sn hpc hc := ⟨(h.next t c b sn hpc hc).1, hw.sn.trans (h.next t c b sn hpc hc).2⟩
  idle hnone := hw.sn.trans (h.idle hnone)

theorem moves {s' : Sys Pool} (h : s.History) (hok : Ok Inv s) (hmove : s.Moves s') :
    s'.History := by
  cases hmove with
  | none => exact h
  | take idle => exact h.take idle
  | fill taken => exact h.fill hok taken
  | link filled => exact h.link hok filled
  | pool same => exact h.pool same

theorem boot (mem : BufId → UartSendFormat) (msgPoolSize : Nat) :
    (Sys.start (Pool.boot mem msgPoolSize)).History := by
  constructor <;>
    simp [Sys.start, Pool.boot, linkObs, obtainedBy, completedBy, disposeSns, Pc.current]

end History

end Sys

/-- Where no call of `uart_protocol_dispose` takes a buffer inside another, and the
send task recycles nothing that is in use, **no call mixes with another**. -/
theorem calls_unmixed (heap : Heap) (mem : BufId → UartSendFormat) (msgPoolSize : Nat)
    (es : List Event)
    (guarded : Sys.GuardedFrom (fun s e => s.NoOverlap e ∧ s.InspectFresh e) heap mem msgPoolSize
      es) :
    ∃ s, Sys.runFrom heap mem msgPoolSize es = some s ∧ s.Unmixed := by
  obtain ⟨s, v, hrun, hrep, hok, hist⟩ := Sys.run_keeps Pool.Separate.closed Sys.History
    (fun _ _ hok _ hmove h => h.moves hok hmove)
    (fun s v e hrep _ h => ⟨(hrep.noOverlap e).mp h.1, (hrep.inspectFresh e).mp h.2, by
      cases e <;> simp [Sys.Visits]⟩) (Pool.Separate.boot mem msgPoolSize)
    (Sys.History.boot mem msgPoolSize) guarded
  refine ⟨s, hrun, ?_, ?_, ?_, ?_, ?_⟩
  · rw [hrep.st.vars, hrep.completed]
    exact hist.links
  · intro t
    simp only [Sys.obtainedBy, Sys.completedBy, hrep.obtained, hrep.completed, hrep.pc]
    exact hist.once t
  · simp only [Sys.disposeSns, hrep.completed]
    exact hist.numbered
  · intro t c b sn hpc hc
    simp only [Sys.disposeSns, hrep.completed]
    exact (hist.next t c b sn (hrep.pc ▸ hpc) hc).1
  · rw [hrep.st.linkedBufs]
    exact hrep.st.sendList

theorem calls_unmixed_consecutive :
    ∃ s, Sys.runFrom Sys.blankHeap Sys.blankMem 0 Sys.consecutive = some s ∧ s.Unmixed :=
  calls_unmixed _ _ _ _ (by decide +kernel)

/-- The interrupting call fills and links its buffer; the interrupted call then
fills and links that buffer again. -/
theorem interrupted_call_mixes :
    ¬ ∀ heap mem msgPoolSize es s, Sys.runFrom heap mem msgPoolSize es = some s → s.Unmixed := by
  intro h
  obtain ⟨s, hrun, hmixed⟩ := Sys.exists_run 0 Sys.interrupted
    (fun s => decide (linkObs s.st.log ≠ s.completed.map Completed.intended))
    (by decide +kernel)
  exact of_decide_eq_true hmixed (h _ _ _ _ s hrun).links

end WifiExpander
