import WifiExpander.Upgrade

/-!
Does decoding undo encoding?

`uart_protocol_dispose` and the handlers build their frames separately, each with
its own arithmetic for the length field, the place of the checksum and `cmd_len`.
Whatever they enqueue is read back by the framing automaton as one frame with the
fields and the payload it was built from (`Decodes`), and a change of one byte of
what the checksum covers, or of the checksum, is noticed.
-/

namespace WifiExpander

open WifiExpander.Theory

variable {σ : Type} {h : UInt8}

/-! ### The checksum -/

theorem foldl_toUInt8 (p : List UInt8) (a : UInt32) :
    (p.foldl (fun tmp b => tmp + b.toUInt32) a).toUInt8 = a.toUInt8 + checkSumCal p := by
  unfold checkSumCal
  induction p generalizing a with
  | nil => simp
  | cons b p ih =>
      rw [List.foldl_cons, List.foldl_cons, ih, ih (0 + b.toUInt32)]
      simp [UInt8.add_assoc]

theorem checkSumCal_cons (b : UInt8) (p : List UInt8) :
    checkSumCal (b :: p) = b + checkSumCal p := by
  have := foldl_toUInt8 p (0 + b.toUInt32)
  simpa [checkSumCal] using this

/-- **The checksum notices one changed byte.** -/
theorem checkSumCal_set_ne {p : List UInt8} {i : Nat} {v : UInt8} (hi : i < p.length)
    (hv : p[i] ≠ v) : checkSumCal (p.set i v) ≠ checkSumCal p := by
  induction p generalizing i with
  | nil => simp at hi
  | cons b p ih =>
      cases i with
      | zero =>
          rw [List.set_cons_zero, checkSumCal_cons, checkSumCal_cons, ne_eq, UInt8.add_left_inj]
          exact fun heq => hv heq.symm
      | succ i =>
          rw [List.set_cons_succ, checkSumCal_cons, checkSumCal_cons, ne_eq, UInt8.add_right_inj]
          exact ih (by simpa using hi) (by simpa using hv)

/-- The check of a frame given as a list. -/
theorem procotolCheck_of_frame {c : Mem} {a m l sum : UInt8} {body : List UInt8}
    (hf : frameBytes c = a :: m :: l :: (body ++ [sum])) (hbody : 4 ≤ body.length) :
    procotolCheck c = (sum == checkSumCal body) := by
  have hlen : hdrLength c = body.length := by
    have := congrArg List.length hf
    simpa [frameBytes] using this
  have hsplit : frameBytes c =
      c.bytes 0 3 ++ (c.bytes 3 body.length ++ [c (3 + body.length)]) := by
    rw [frameBytes, hlen, show body.length + 4 = 3 + (body.length + 1) by omega, Mem.bytes_add,
      Nat.zero_add, Mem.bytes_succ c 3]
  have hparts : [a, m, l] ++ (body ++ [sum]) =
      c.bytes 0 3 ++ (c.bytes 3 body.length ++ [c (3 + body.length)]) := hf.symm.trans hsplit
  have htail := (List.append_inj hparts (by simp)).2
  obtain ⟨hbytes, hsum⟩ := List.append_inj htail (by simp)
  have hlast : c (dataOff + (body.length - 4)) = sum := by
    rw [show dataOff + (body.length - 4) = 3 + body.length by unfold dataOff; omega]
    exact (List.singleton_inj.mp hsum).symm
  simp only [procotolCheck, hlen, if_neg (Nat.not_lt_of_le hbody), staParamOff, ← hbytes, hlast]

/-! ### One frame in the ring -/

/-- A frame by itself: the header, a length field, and as many bytes as it says. -/
structure Whole (h : UInt8) (f : List UInt8) : Prop where
  head : f.head? = some h
  fits : lengthOf f < uartProcotolMaxLen
  length : f.length = lengthOf f + 4

/-- A part of a frame is not a frame. -/
theorem Whole.unfinished {p q : List UInt8} (hf : Whole h (p ++ q)) (hq : q ≠ []) :
    Unfinished h p := by
  constructor
  · intro b hb
    have hhead := hf.head
    rw [List.head?_append_of_ne_nil _ fun hp => by simp [hp] at hb] at hhead
    exact Option.some.inj (hb.symm.trans hhead)
  · intro hlen
    have hlength := hf.length
    have hfits := hf.fits
    have hpos := List.length_pos_of_ne_nil hq
    rw [lengthOf_append hlen] at hlength hfits
    rw [List.length_append] at hlength
    omega

theorem Whole.scan {f : List UInt8} (hf : Whole h f) : scan h f = ([f], []) := by
  have hlen := hf.length
  rcases List.eq_nil_or_concat' f with rfl | ⟨p, ch, rfl⟩
  · simp at hlen
  · have hge : 3 ≤ p.length := by
      rw [List.length_append, List.length_singleton] at hlen
      omega
    rw [lengthOf_append hge, List.length_append, List.length_singleton] at hlen
    exact scan_complete (hf.unfinished (by simp)) hge hlen

/-- The rest `q` of a frame is read by one call. -/
theorem getDataLoop_whole {fuel : Nat} {r : Receiver} {p q : List UInt8} (hf : Whole h (p ++ q))
    (hr : Tracks h r p) (hq : r.ring.contents = q) (hne : q ≠ []) (hfuel : q.length < fuel) :
    ∃ r', getDataLoop h fuel r = (true, r') ∧ r'.ring.contents = [] ∧ Tracks h r' [] ∧
      frameBytes r'.buf = p ++ q := by
  induction fuel generalizing r p q with
  | zero => exact absurd hfuel (Nat.not_lt_zero _)
  | succ fuel ih =>
      rw [getDataLoop]
      cases hget : appGet r.ring with
      | none => exact absurd (hq.symm.trans (appGet_none hget)) hne
      | some res =>
          obtain ⟨ch, ring⟩ := res
          obtain rfl : ch :: ring.contents = q := (appGet_some hget).symm.trans hq
          have hbyte := recvByte_spec (r := { r with ring })
            ⟨hr.unfinished, hr.recvLen, hr.buf, hr.start, hr.dataLen⟩ ch
          have hring := recvByte_ring (h := h) { r with ring } ch
          have hsplit : Whole h ((p ++ [ch]) ++ ring.contents) := by simpa using hf
          dsimp only
          generalize recvByte h { r with ring } ch = out at hbyte hring
          by_cases hlast : ring.contents = []
          · -- the byte completes the frame
            rw [hlast, List.append_nil] at hsplit
            have hscan := hsplit.scan
            rw [hlast]
            cases hbyte with
            | more hnone => rw [hscan] at hnone; cases hnone
            | dropped hdrop => rw [hscan] at hdrop; cases hdrop
            | frame _ htr hbuf => exact ⟨_, rfl, hring ▸ hlast, htr, hbuf⟩
          · have hu := hsplit.unfinished hlast
            have hscan := hu.scan
            cases hbyte with
            | more _ htr =>
                rw [hscan] at htr
                obtain ⟨r', hloop, hend⟩ := ih hsplit htr (by rw [hring]) hlast (by simpa using hfuel)
                exact ⟨r', hloop, by simpa using hend⟩
            | dropped hdrop => rw [hscan] at hdrop; simp at hdrop
            | frame hframe => rw [hscan] at hframe; cases hframe

/-- Between two frames, with anything in the buffer. -/
def Receiver.Idle (r : Receiver) : Prop := r.proctolStart = false ∧ r.recvLen = 0

/-- **One call reads one frame**, and the next call finds nothing. -/
theorem getData_whole {f : List UInt8} (hf : Whole h f) {r : Receiver} (hidle : r.Idle)
    (hr : r.ring.contents = f) :
    ∃ r', getData h r = (true, r') ∧ r'.ring.contents = [] ∧ r'.Idle ∧ frameBytes r'.buf = f ∧
      getData h r' = (false, r') := by
  have hne : f ≠ [] := by
    rintro rfl
    simpa using hf.length
  have hfuel : f.length < ringSize := by
    rw [← hr, RingBuffer.length_contents]
    exact r.ring.count_lt
  obtain ⟨r', hget, hempty, htr, hbuf⟩ :=
    getDataLoop_whole (p := []) hf (.idle hidle.2 hidle.1) hr hne hfuel
  refine ⟨r', hget, hempty, ⟨by simpa using htr.start, htr.recvLen⟩, hbuf, ?_⟩
  have hnone : appGet r'.ring = none := if_pos (RingBuffer.contents_eq_nil_iff.mp hempty)
  simp only [getData, getDataLoop, hnone]

/-! ### What a frame carries -/

/-- The memory begins with a valid frame with these fields and this payload. -/
structure CarriesFrame (c : Mem) (sn pdtType cmdId : UInt8) (data : List UInt8) : Prop where
  check : procotolCheck c = true
  head : c 0 = wifiampMdlHeader
  length : hdrLength c = data.length + 4
  staParam : c staParamOff = 0
  sn : hdrSn c = sn
  pdtType : hdrPdtType c = pdtType
  cmdId : hdrCmdId c = cmdId
  payload : c.bytes dataOff data.length = data

/-- An entry is sent as a frame that is read back as what it was built from. -/
structure Decodes (e : UartSendFormat) (sn pdtType cmdId : UInt8) (data : List UInt8) : Prop where
  cmdLen : e.cmdLen = hdrLength e.cmd + 4
  decoded : ∀ r : Receiver, r.Idle → r.ring.contents = e.frame →
    ∃ r', bleGetData r = (true, r') ∧ r'.ring.contents = [] ∧ r'.Idle ∧
      bleGetData r' = (false, r') ∧ CarriesFrame r'.buf sn pdtType cmdId data
  /-- one byte from `sta_param` on is replaced -/
  tampered : ∀ (c : Mem) (i : Nat) (v : UInt8), staParamOff ≤ i → i < e.cmdLen → e.cmd i ≠ v →
    frameBytes c = e.frame.set i v → procotolCheck c = false
  /-- the same on the way: the frame arrives, and is rejected -/
  rejected : ∀ (r : Receiver) (i : Nat) (v : UInt8), r.Idle → staParamOff ≤ i → i < e.cmdLen →
    e.cmd i ≠ v → r.ring.contents = e.frame.set i v →
    ∃ r', bleGetData r = (true, r') ∧ procotolCheck r'.buf = false

section

variable {c : Mem} {sn pdtType cmdId : UInt8} {data : List UInt8}

theorem length_mdlFrame : (mdlFrame sn pdtType cmdId data).length = data.length + 8 := by
  simp [mdlFrame, wireFrame, frameBody]

/-- A frame with its length field, its body and its checksum. -/
theorem mdlFrame_eq : mdlFrame sn pdtType cmdId data =
    wifiampMdlHeader :: UInt8.ofNat ((data.length + 4) >>> 8) :: UInt8.ofNat (data.length + 4) ::
      (frameBody sn pdtType cmdId data ++ [checkSumCal (frameBody sn pdtType cmdId data)]) := by
  have hbody : (frameBody sn pdtType cmdId data).length = data.length + 4 := by simp [frameBody]
  simp only [mdlFrame, wireFrame, hbody, List.cons_append, List.nil_append]

theorem lengthOf_mdlFrame (hlen : data.length + 4 < uartProcotolMaxLen) :
    lengthOf (mdlFrame sn pdtType cmdId data) = data.length + 4 := by
  rw [mdlFrame_eq, lengthOf]
  unfold uartProcotolMaxLen at hlen
  simp only [UInt8.toNat_ofNat', Nat.shiftRight_eq_div_pow]
  omega

theorem whole_mdlFrame (hlen : data.length + 4 < uartProcotolMaxLen) :
    Whole wifiampAppHeader (mdlFrame sn pdtType cmdId data) :=
  ⟨rfl, by rwa [lengthOf_mdlFrame hlen], by rw [lengthOf_mdlFrame hlen, length_mdlFrame]⟩

/-- A changed byte after the length field leaves a frame a frame. -/
theorem Whole.set {f : List UInt8} (hf : Whole h f) {i : Nat} (hi : 3 ≤ i) (v : UInt8) :
    Whole h (f.set i v) := by
  obtain ⟨hhead, hfits, hlength⟩ := hf
  rcases f with _ | ⟨a, _ | ⟨m, _ | ⟨l, f⟩⟩⟩
  · simp at hlength
  · simp [lengthOf] at hlength
  · simp [lengthOf] at hlength
  · obtain ⟨i, rfl⟩ := Nat.exists_eq_add_of_le' hi
    exact ⟨hhead, hfits, by simpa [lengthOf] using hlength⟩

theorem carries_mdlFrame (hf : frameBytes c = mdlFrame sn pdtType cmdId data) :
    CarriesFrame c sn pdtType cmdId data := by
  have hlen : hdrLength c = data.length + 4 := by
    have := congrArg List.length hf
    rw [length_mdlFrame] at this
    simpa [frameBytes] using this
  have hread : ∀ i, i < data.length + 8 → (mdlFrame sn pdtType cmdId data)[i]? = some (c i) := by
    intro i hi
    have hi' : i < data.length + 4 + 4 := by omega
    rw [← hf]
    simp [frameBytes, Mem.bytes, hlen, hi']
  have hbody : 4 ≤ (frameBody sn pdtType cmdId data).length := by simp [frameBody]
  have hcheck := procotolCheck_of_frame (hf.trans mdlFrame_eq) hbody
  have hbyte : ∀ i b, i < 8 → (mdlFrame sn pdtType cmdId data)[i]? = some b → c i = b :=
    fun i b hi hb => Option.some.inj ((hread i (by omega)).symm.trans hb)
  refine ⟨by rw [hcheck, beq_self_eq_true], hbyte 0 _ (by decide) rfl, hlen,
    hbyte 3 _ (by decide) rfl, hbyte 4 _ (by decide) rfl, hbyte 5 _ (by decide) rfl,
    hbyte 6 _ (by decide) rfl, ?_⟩
  apply List.ext_getElem (by simp)
  intro i hi hi'
  have hat := hread (7 + i) (by omega)
  rw [mdlFrame_eq, frameBody, show 7 + i = i + 1 + 1 + 1 + 1 + 1 + 1 + 1 by omega] at hat
  simp only [List.cons_append, List.getElem?_cons_succ, List.nil_append,
    List.getElem?_append_left hi', List.getElem?_eq_getElem hi', Option.some.injEq] at hat
  rw [Mem.getElem_bytes, hat]
  exact congrArg c (by unfold dataOff; omega)

/-- **A changed byte is noticed**, whether the checksum covers it or it is the
checksum. -/
theorem procotolCheck_tampered {m : Mem} {n i : Nat} {v : UInt8}
    (hm : m.bytes 0 n = mdlFrame sn pdtType cmdId data) (hi : 3 ≤ i) (hlt : i < n) (hv : m i ≠ v)
    (hc : frameBytes c = (mdlFrame sn pdtType cmdId data).set i v) : procotolCheck c = false := by
  obtain ⟨j, rfl⟩ : ∃ j, i = j + 3 := Nat.exists_eq_add_of_le' hi
  have hbody : (frameBody sn pdtType cmdId data).length = data.length + 4 := by simp [frameBody]
  have hn : n = data.length + 8 := by
    have := congrArg List.length hm
    rwa [Mem.length_bytes, length_mdlFrame] at this
  have hat : (mdlFrame sn pdtType cmdId data)[j + 3]? = some (m (j + 3)) := by
    rw [← hm]
    simp [Mem.bytes, hlt]
  rw [mdlFrame_eq] at hc hat
  simp only [List.set_cons_succ] at hc
  simp only [List.getElem?_cons_succ] at hat
  by_cases hj : j < (frameBody sn pdtType cmdId data).length
  · -- the checksum no longer fits the body
    rw [List.set_append_left _ _ hj] at hc
    rw [List.getElem?_append_left hj, List.getElem?_eq_getElem hj, Option.some.injEq] at hat
    rw [procotolCheck_of_frame hc (by simp [hbody])]
    have hne := checkSumCal_set_ne hj (v := v) (by rw [hat]; exact hv)
    simpa using fun heq => hne (Eq.symm heq)
  · -- the body does not fit the checksum
    obtain rfl : j = (frameBody sn pdtType cmdId data).length := by omega
    rw [List.set_append_right _ _ (Nat.le_refl _), Nat.sub_self, List.set_cons_zero] at hc
    rw [List.getElem?_concat_length, Option.some.injEq] at hat
    rw [procotolCheck_of_frame hc (by simp [hbody])]
    simpa [hat] using fun heq => hv (Eq.symm heq)

/-- **An entry with a frame of the module decodes**, and one changed byte is noticed. -/
theorem decodes_mdlFrame {e : UartSendFormat} (hframe : e.frame = mdlFrame sn pdtType cmdId data)
    (hlen : data.length + 4 < uartProcotolMaxLen) : Decodes e sn pdtType cmdId data := by
  have hwhole : Whole wifiampAppHeader e.frame := hframe ▸ whole_mdlFrame hlen
  have hcmdLen : e.cmdLen = data.length + 8 := by
    have := congrArg List.length hframe
    rw [length_mdlFrame] at this
    simpa [UartSendFormat.frame] using this
  have hhdr : hdrLength e.cmd = lengthOf e.frame := by
    refine hdrLength_of_bytes (p := e.frame) ?_ ?_
    · simp [UartSendFormat.frame]
    · rw [hframe, length_mdlFrame]
      omega
  have htampered : ∀ (c : Mem) (i : Nat) (v : UInt8), staParamOff ≤ i → i < e.cmdLen →
      e.cmd i ≠ v → frameBytes c = e.frame.set i v → procotolCheck c = false :=
    fun c i v hi hlt hv hc => procotolCheck_tampered hframe hi hlt hv (hframe ▸ hc)
  refine ⟨?_, ?_, htampered, ?_⟩
  · rw [hhdr, hframe, lengthOf_mdlFrame hlen, hcmdLen]
  · intro r hidle hr
    obtain ⟨r', hget, hempty, hidle', hbuf, hnext⟩ := getData_whole hwhole hidle hr
    exact ⟨r', hget, hempty, hidle', hnext, carries_mdlFrame (hbuf.trans hframe)⟩
  · intro r i v hidle hi hlt hv hr
    obtain ⟨r', hget, -, -, hbuf, -⟩ := getData_whole (hwhole.set hi v) hidle hr
    exact ⟨r', hget, htampered _ i v hi hlt hv hbuf⟩

end

/-! ### The builders -/

namespace Tx

variable {s s' : Tx} {b : BufId} {x : Static} {c : Call}

/-- One entry was linked since, and it is `f`. -/
def Enqueued (s s' : Tx) (f : UartSendFormat) : Prop :=
  ∃ b, s'.mem b = f ∧ s'.log = s.log ++ [.linked b f.poll.type f.frame]

/-- Nothing was linked, or one entry with these fields and this payload. -/
def Sends (s s' : Tx) (sn pdtType cmdId : UInt8) (data : List UInt8) : Prop :=
  s'.log = s.log ∨ ∃ f, s.Enqueued s' f ∧ Decodes f sn pdtType cmdId data

theorem Sends.length_le {sn pdtType cmdId : UInt8} {data : List UInt8}
    (h : s.Sends s' sn pdtType cmdId data) : s'.log.length ≤ s.log.length + 1 := by
  rcases h with hsame | ⟨f, ⟨b, -, hlog⟩, -⟩
  · rw [hsame]
    exact Nat.le_succ _
  · rw [hlog, List.length_append, List.length_singleton]

theorem takeBuf_log {pBuf : Option BufId} (h : s.takeBuf x = some (pBuf, s')) :
    s'.log = s.log ∧ s'.uartSendSn = s.uartSendSn ∧ ∀ b ∈ pBuf, s'.statics x = some b := by
  obtain ⟨⟨pBuf', heap⟩, -, hend⟩ := Option.bind_eq_some_iff.mp h
  cases pBuf' with
  | none => cases hend; exact ⟨rfl, rfl, by simp⟩
  | some b => cases hend; exact ⟨rfl, rfl, by simp⟩

theorem fillBuf_mem {fill : UartSendFormat → UartSendFormat} (h : s.fillBuf x fill = some s')
    (hb : s.statics x = some b) :
    s'.log = s.log ∧ s'.statics = s.statics ∧ s'.mem b = fill (s.mem b) := by
  simp only [fillBuf, hb, Option.bind_eq_bind, Option.bind_some, Option.some.injEq] at h
  subst h
  exact ⟨rfl, rfl, by simp [SendVars.setMem]⟩

theorem fillCall_mem (h : Sys.fillCall c s = some s') (hb : s.statics c.static = some b) :
    s'.log = s.log ∧ s'.statics = s.statics ∧ s'.mem b = c.fill s.uartSendSn (s.mem b) := by
  cases c with
  | dispose info =>
      obtain ⟨s₁, hfill, hend⟩ := Option.bind_eq_some_iff.mp h
      cases hend
      have hmem := fillBuf_mem hfill hb
      exact hmem
  | ask | forward => exact fillBuf_mem h hb

/-- **A call links the entry it filled**, if it obtained a buffer. -/
theorem send_enqueued {obtained : Bool} (h : SendOps.send c s = some (obtained, s')) :
    if obtained then ∃ f, s.Enqueued s' (c.fill s.uartSendSn f) else s'.log = s.log := by
  obtain ⟨⟨pBuf, s₁⟩, htake, hrest⟩ := Option.bind_eq_some_iff.mp h
  obtain ⟨hlog₁, hsn₁, hstatic₁⟩ := takeBuf_log htake
  cases pBuf with
  | none =>
      cases hrest
      exact hlog₁
  | some b =>
      obtain ⟨s₂, hfill, hrest⟩ := Option.bind_eq_some_iff.mp hrest
      obtain ⟨s₃, hlink, hend⟩ := Option.bind_eq_some_iff.mp hrest
      cases hend
      obtain ⟨hlog₂, hstatic₂, hmem₂⟩ := fillCall_mem hfill (hstatic₁ b rfl)
      have hb : s₂.statics c.static = some b := by rw [hstatic₂]; exact hstatic₁ b rfl
      simp only [SendOps.linkEntry, linkEntry, hb, Option.bind_eq_bind, Option.bind_some] at hlink
      obtain ⟨heap, -, hend⟩ := Option.bind_eq_some_iff.mp hlink
      cases hend
      rw [hsn₁] at hmem₂
      exact ⟨s₁.mem b, b, hmem₂, by simp [SendVars.record, hlog₂, hlog₁, hmem₂]⟩

/-- The answer of a handler. -/
theorem send_ask {cmdId : UInt8} {req : Mem} {ans : List UInt8} {obtained : Bool}
    (h : SendOps.send (.ask cmdId req ans) s = some (obtained, s'))
    (hans : ans.length + 4 < uartProcotolMaxLen) :
    s.Sends s' (hdrSn req) (hdrPdtType req) cmdId ans := by
  have hsent := send_enqueued h
  cases obtained with
  | false => exact .inl hsent
  | true =>
      obtain ⟨f, hf⟩ := hsent
      exact .inr ⟨_, hf, decodes_mdlFrame (askFill_frame cmdId req f (by omega)) hans⟩

theorem dispose_enqueued {info : SendInfo} (h : uartProtocolDispose info s = some (0, s'))
    (hlen : info.data.length ≤ 128) :
    ∃ f, s.Enqueued s' f ∧ Decodes f s.uartSendSn info.pdtType info.cmdId info.data := by
  obtain ⟨⟨obtained, s₁⟩, hsend, hend⟩ := Option.bind_eq_some_iff.mp h
  have hsent := send_enqueued hsend
  cases obtained with
  | false => cases hend
  | true =>
      cases hend
      obtain ⟨f, hf⟩ := hsent
      refine ⟨_, hf, decodes_mdlFrame (disposeFill_frame info s.uartSendSn f) ?_⟩
      unfold uartProcotolMaxLen
      omega

end Tx

namespace Device

variable {P : Platform σ} {c : Mem} {d d' : Device Tx σ}

theorem answer_sends {cmdId : UInt8} {ans : List UInt8} {obtained : Bool}
    (h : d.answer cmdId c ans = some (obtained, d')) (hans : ans.length + 4 < uartProcotolMaxLen) :
    d.tx.Sends d'.tx (hdrSn c) (hdrPdtType c) cmdId ans := by
  obtain ⟨⟨obtained', tx⟩, hsend, hend⟩ := Option.bind_eq_some_iff.mp h
  cases hend
  exact Tx.send_ask hsend hans

theorem dispose_sends {info : SendInfo} (h : d.dispose info = some d')
    (hlen : info.data.length ≤ 128) :
    d.tx.Sends d'.tx d.tx.uartSendSn info.pdtType info.cmdId info.data := by
  obtain ⟨⟨res, tx⟩, hdispose, hend⟩ := Option.bind_eq_some_iff.mp h
  cases hend
  obtain ⟨⟨obtained, tx'⟩, hsend, hres⟩ := Option.bind_eq_some_iff.mp hdispose
  cases obtained with
  | false =>
      cases hres
      exact .inl (Tx.send_enqueued hsend)
  | true =>
      cases hres
      exact .inr (Tx.dispose_enqueued (by simp [uartProtocolDispose, hsend]) hlen)

theorem moduleHandShakeRsp_sends (h : d.moduleHandShakeRsp P c = some d') :
    d.tx.Sends d'.tx (hdrSn c) (hdrPdtType c) askModuleHandShake
      (hwVer ++ fwVer ++ ((List.range 6).map (P.mibleGapAddressGet d.world).1).reverse ++
        [d.bleConnState]) := by
  obtain ⟨⟨obtained, d₁⟩, hans, hend⟩ := Option.bind_eq_some_iff.mp h
  cases hend
  have hsends := answer_sends hans (by simp [hwVer, fwVer, uartProcotolMaxLen])
  cases obtained <;> exact hsends

theorem advCtrlRsp_sends (h : d.advCtrlRsp P c = some d') :
    ∃ ctrl, d.param.byte c 0 0 = some ctrl ∧
      d.tx.Sends d'.tx (hdrSn c) (hdrPdtType c) askAdvCtrl [ctrl] := by
  obtain ⟨ctrl, hctrl, hrest⟩ := Option.bind_eq_some_iff.mp h
  obtain ⟨⟨obtained, d₁⟩, hans, hend⟩ := Option.bind_eq_some_iff.mp hrest
  cases hend
  refine ⟨ctrl, hctrl, ?_⟩
  have hsends := answer_sends hans (by simp [uartProcotolMaxLen])
  split at hsends <;> exact hsends

theorem setAdvDataRsp_sends (h : d.setAdvDataRsp P c = some d') :
    ∃ confStatFlag, d.param.byte c 0 0 = some confStatFlag ∧
      d.tx.Sends d'.tx (hdrSn c) (hdrPdtType c) askSetAdvData [confStatFlag] := by
  obtain ⟨confStatFlag, hflag, hrest⟩ := Option.bind_eq_some_iff.mp h
  obtain ⟨devMac, -, hrest⟩ := Option.bind_eq_some_iff.mp hrest
  obtain ⟨resp, -, hrest⟩ := Option.bind_eq_some_iff.mp hrest
  refine ⟨confStatFlag, hflag, ?_⟩
  dsimp only at hrest
  split at hrest
  · cases hrest
    exact .inl rfl
  · obtain ⟨⟨obtained, d₁⟩, hans, hend⟩ := Option.bind_eq_some_iff.mp hrest
    cases hend
    have hsends := answer_sends hans (by simp [uartProcotolMaxLen])
    exact hsends

/-- The answer, and behind it the first request for data. -/
theorem upgRequestRsp_sends (h : d.upgRequestRsp P c = some d') :
    ∃ tx, d.tx.Sends tx (hdrSn c) (hdrPdtType c) askUpgRequest (wordBytes d'.iap.pageLen) ∧
      tx.Sends d'.tx tx.uartSendSn pdttypeBleFlash reqUpgData (wordBytes 0) := by
  obtain ⟨fwLen, -, hrest⟩ := Option.bind_eq_some_iff.mp h
  generalize d.toUpgrade.request P fwLen (SendOps.vars d.tx).log.length = res at hrest
  obtain ⟨accepted, u⟩ := res
  dsimp only at hrest
  split at hrest
  · obtain ⟨⟨obtained, d₁⟩, hans, hend⟩ := Option.bind_eq_some_iff.mp hrest
    have hsends := answer_sends hans (by simp [wordBytes, uartProcotolMaxLen])
    have hiap : d₁.iap = u.iap := by
      obtain ⟨⟨_, tx⟩, -, hd⟩ := Option.bind_eq_some_iff.mp hans
      cases hd
      rfl
    dsimp only at hend
    split at hend
    · have hreq := dispose_sends hend (by simp [iapReqRequestInfo])
      have hiap' : d'.iap = d₁.iap := by
        obtain ⟨⟨_, tx⟩, -, hd⟩ := Option.bind_eq_some_iff.mp hend
        cases hd
        rfl
      exact ⟨d₁.tx, by rw [hiap', hiap]; exact hsends, hreq⟩
    · cases hend
      exact ⟨_, by rw [hiap]; exact hsends, .inl rfl⟩
  · cases hrest
    exact ⟨d.tx, .inl rfl, .inl rfl⟩

end Device

/-- What the five builders enqueue decodes to what they were given. -/
structure BuildersDecode (P : Platform σ) : Prop where
  uartProtocolDispose : ∀ (info : SendInfo) (s s' : Tx), info.data.length ≤ 128 →
    uartProtocolDispose info s = some (0, s') →
    ∃ f, s.Enqueued s' f ∧ Decodes f s.uartSendSn info.pdtType info.cmdId info.data
  moduleHandShakeRsp : ∀ (c : Mem) (d d' : Device Tx σ), d.moduleHandShakeRsp P c = some d' →
    d.tx.Sends d'.tx (hdrSn c) (hdrPdtType c) askModuleHandShake
      (hwVer ++ fwVer ++ ((List.range 6).map (P.mibleGapAddressGet d.world).1).reverse ++
        [d.bleConnState])
  advCtrlRsp : ∀ (c : Mem) (d d' : Device Tx σ), d.advCtrlRsp P c = some d' →
    ∃ ctrl, d.param.byte c 0 0 = some ctrl ∧
      d.tx.Sends d'.tx (hdrSn c) (hdrPdtType c) askAdvCtrl [ctrl]
  setAdvDataRsp : ∀ (c : Mem) (d d' : Device Tx σ), d.setAdvDataRsp P c = some d' →
    ∃ confStatFlag, d.param.byte c 0 0 = some confStatFlag ∧
      d.tx.Sends d'.tx (hdrSn c) (hdrPdtType c) askSetAdvData [confStatFlag]
  upgRequestRsp : ∀ (c : Mem) (d d' : Device Tx σ), d.upgRequestRsp P c = some d' →
    ∃ tx, d.tx.Sends tx (hdrSn c) (hdrPdtType c) askUpgRequest (wordBytes d'.iap.pageLen) ∧
      tx.Sends d'.tx tx.uartSendSn pdttypeBleFlash reqUpgData (wordBytes 0)

/-- Whatever the state, **decoding undoes encoding** for every builder. -/
theorem builders_decode (P : Platform σ) : BuildersDecode P where
  uartProtocolDispose _ _ _ hlen h := Tx.dispose_enqueued h hlen
  moduleHandShakeRsp _ _ _ h := Device.moduleHandShakeRsp_sends h
  advCtrlRsp _ _ _ h := Device.advCtrlRsp_sends h
  setAdvDataRsp _ _ _ h := Device.setAdvDataRsp_sends h
  upgRequestRsp _ _ _ h := Device.upgRequestRsp_sends h

/-- A report of `Ble_Event_Task`; and the answer to an upgrade request with the request
for data behind it. -/
theorem builders_decode_upgRequest :
    ∃ (d d' : Device Tx Unit) (s tx : Tx) (f f₁ f₂ : UartSendFormat),
      uartProtocolDispose (bleStateNotifyInfo 1) d.tx = some (0, s) ∧ d.tx.Enqueued s f ∧
        Decodes f d.tx.uartSendSn (bleStateNotifyInfo 1).pdtType (bleStateNotifyInfo 1).cmdId
          (bleStateNotifyInfo 1).data ∧
      d.upgRequestRsp compliantPlatform (upgRequestFrame 5 1000) = some d' ∧
        d.tx.Enqueued tx f₁ ∧ Decodes f₁ 5 pdttypeBleFlash askUpgRequest (wordBytes 128) ∧
        tx.Enqueued d'.tx f₂ ∧
        Decodes f₂ tx.uartSendSn pdttypeBleFlash reqUpgData (wordBytes 0) := by
  obtain ⟨d, -, hd⟩ := Device.exists_run compliantPlatform () []
    (fun d => (uartProtocolDispose (bleStateNotifyInfo 1) d.tx).any (fun r => r.1 == 0) &&
      (Device.upgRequestRsp compliantPlatform (upgRequestFrame 5 1000)
        { d with param := argsParam dataOff (some [3, 1, 0]) d.param }).any fun d' =>
          d.tx.log.length == 0 && d'.tx.log.length == 2 && d'.iap.pageLen == 128)
    (by decide +kernel)
  simp only [Bool.and_eq_true, Option.any_eq_true, beq_iff_eq] at hd
  obtain ⟨⟨⟨_, s⟩, hdispose, rfl⟩, d', hrsp, ⟨hempty, htwo⟩, hpage⟩ := hd
  obtain ⟨f, hf, hdecodes⟩ :=
    (builders_decode compliantPlatform).uartProtocolDispose _ d.tx s (by decide) hdispose
  obtain ⟨tx, hans, hreq⟩ := (builders_decode compliantPlatform).upgRequestRsp _ _ d' hrsp
  -- two entries have been linked, so each call has linked one
  obtain ⟨f₁, henq₁, hdecodes₁⟩ := hans.resolve_left fun hsame => by
    have hone := hreq.length_le
    rw [hsame] at hone
    change d'.tx.log.length ≤ d.tx.log.length + 1 at hone
    omega
  obtain ⟨f₂, henq₂, hdecodes₂⟩ := hreq.resolve_left fun hsame => by
    have hone := hans.length_le
    rw [← hsame] at hone
    change d'.tx.log.length ≤ d.tx.log.length + 1 at hone
    omega
  rw [hpage] at hdecodes₁
  exact ⟨{ d with param := argsParam dataOff (some [3, 1, 0]) d.param }, d', s, tx, f, f₁, f₂,
    hdispose, hf, hdecodes, hrsp, henq₁, hdecodes₁, henq₂, hdecodes₂⟩

end WifiExpander
