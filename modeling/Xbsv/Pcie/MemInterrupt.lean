import Xbsv.Pcie.Tlp
import Xbsv.Rules.Ends
import Xbsv.Rules.Fifo

set_option relaxedAutoImplicit false
set_option autoImplicit false

/-!
# Interrupts as memory writes

`mkMemInterrupt` of `MemMasterEngine.bsv` makes a packet that writes one dword of each request. With a short address the
packet is one beat, whose last dword is the data; with a long one the header fills a beat, and the data follow in
another one, for which the request stays in its queue and `interruptSecondHalf` is set. Requests to address 0 are
dropped.

## Main definitions

* `Xbsv.MemInterrupt`, `Xbsv.memInterrupt` — the module, and its runs.
* `Xbsv.InterruptConfig.WritesTo` — the packet that a request should get.

## Main results

* `Xbsv.InterruptConfig.writesTo_packetOf` — what is sent for one request is such a packet.
* `Xbsv.MemInterrupt.Sends.step` — what is sent, is in the queues and is still to be sent are the packets of the
  requests.
* `Xbsv.MemInterrupt.sends_packets` — every run sends the packets of its requests, in order.
-/

namespace Xbsv

open Rules

/-! ## The source -/

/-- `InterruptRequest`. -/
@[ext]
structure InterruptRequest where
  addr : BitVec 64
  data : BitVec 32
  mswIsZero : Bool
  lswIsZero : Bool
  deriving DecidableEq

/-- What `interruptRequest.put` makes of an address and data. -/
def InterruptRequest.make (addr : BitVec 64) (data : BitVec 32) : InterruptRequest where
  addr
  data
  mswIsZero := addr.extractLsb' 32 32 == 0
  lswIsZero := addr.extractLsb' 0 32 == 0

/-- What the module is made with: its number on the bus, and the default records. -/
structure InterruptConfig where
  myId : BitVec 16
  defaults : PcieDefaults

namespace InterruptConfig

variable (c : InterruptConfig)

/-- The header for a short address, with the data. -/
def hdr3dw (tlpTag : BitVec 8) (r : InterruptRequest) : TLPMemoryIO3DWHeader :=
  { c.defaults.hdr3dw with
    format := .memWrite3DWData
    tag := tlpTag
    reqid := c.myId
    length := 1
    firstbe := 0xf
    lastbe := 0
    addr := r.addr.extractLsb' 2 30
    data := byteSwap r.data }

/-- The header for a long address. -/
def hdr4dw (tlpTag : BitVec 8) (r : InterruptRequest) : TLPMemory4DWHeader :=
  { c.defaults.hdr4dw with
    format := .memWrite4DWData
    tag := tlpTag
    reqid := c.myId
    nosnoop := 0
    addr := (r.addr.extractLsb' 2 38).setWidth 62
    length := 1
    firstbe := 0xf
    lastbe := 0 }

/-- The beat with a short header. -/
def shortTlp (tlpTag : BitVec 8) (r : InterruptRequest) : TLPData :=
  { sof := true, eof := true, hit := 0, be := 0xffff, data := (c.hdr3dw tlpTag r).pack }

/-- The beat with a long header. -/
def longTlp (tlpTag : BitVec 8) (r : InterruptRequest) : TLPData :=
  { sof := true, eof := false, hit := 0, be := 0xffff, data := (c.hdr4dw tlpTag r).pack }

/-- The beat with the data. -/
def dataTlp (interruptData : BitVec 32) : TLPData where
  sof := false
  eof := true
  hit := 0
  be := 0xf000
  data := byteSwap interruptData ++ c.defaults.tlp.data.extractLsb' 0 96

end InterruptConfig

/-- The state of `mkMemInterrupt`. -/
structure MemInterrupt where
  interruptRequestFifo : Fifo 2 InterruptRequest
  interruptSecondHalf : Option (BitVec 32)
  tlpTag : BitVec 8
  tlpOutFifo : Fifo 8 TLPData

namespace MemInterrupt

def reset : MemInterrupt := ⟨.empty, none, 0, .empty⟩

/-- The methods `interruptRequest.put`, `tlp.request.get` and `tlp.response.put`, and the rules. -/
inductive Action
  | interruptRequest (addr : BitVec 64) (data : BitVec 32)
  | interruptTlpOut
  | interruptTlpDataOut
  | request
  | response (tlp : TLPData)

/-- A request comes in, and a beat goes out. -/
inductive Event
  | requested (addr : BitVec 64) (data : BitVec 32)
  | tlp (t : TLPData)
  deriving DecidableEq

variable (c : InterruptConfig) (s : MemInterrupt)

/-- Rule `interruptTlpOut`. -/
def interruptTlpOut : Option MemInterrupt :=
  match s.interruptSecondHalf with
  | some _ => none
  | none => do
    let r ← s.interruptRequestFifo.first
    if r.mswIsZero && r.lswIsZero then
      -- Nothing is written to address 0.
      let (_, interruptRequestFifo) ← s.interruptRequestFifo.deq
      return { s with interruptRequestFifo }
    else if r.mswIsZero then
      let (_, interruptRequestFifo) ← s.interruptRequestFifo.deq
      let tlpOutFifo ← s.tlpOutFifo.enq (c.shortTlp s.tlpTag r)
      return { s with interruptRequestFifo, tlpOutFifo }
    else
      let tlpOutFifo ← s.tlpOutFifo.enq (c.longTlp s.tlpTag r)
      return { s with tlpOutFifo, interruptSecondHalf := some r.data }

/-- Rule `interruptTlpDataOut`. -/
def interruptTlpDataOut : Option MemInterrupt :=
  match s.interruptSecondHalf with
  | none => none
  | some interruptData => do
    let tlpOutFifo ← s.tlpOutFifo.enq (c.dataTlp interruptData)
    let (_, interruptRequestFifo) ← s.interruptRequestFifo.deq
    return { s with tlpOutFifo, interruptSecondHalf := none, interruptRequestFifo }

def step : Action → Option (MemInterrupt × List Event)
  | .interruptRequest addr data => do
    let interruptRequestFifo ← s.interruptRequestFifo.enq (.make addr data)
    return ({ s with interruptRequestFifo }, [.requested addr data])
  | .interruptTlpOut => (s.interruptTlpOut c).map fun s' => (s', [])
  | .interruptTlpDataOut => (s.interruptTlpDataOut c).map fun s' => (s', [])
  | .request => do
    let (t, tlpOutFifo) ← s.tlpOutFifo.deq
    return ({ s with tlpOutFifo }, [.tlp t])
  | .response _ => some (s, [])

end MemInterrupt

/-- The module, with any requests and a bus that takes the beats when it wants. -/
def memInterrupt (c : InterruptConfig) : RuleSystem MemInterrupt MemInterrupt.Action MemInterrupt.Event where
  step s a := s.step c a

/-! ## The packet of a request -/

namespace InterruptConfig

variable (c : InterruptConfig)

/-- What a header says about a packet that writes one dword. -/
structure WritesOne (h : TLPRequestHeader) : Prop where
  reqid : h.reqid = c.myId
  length : h.length = 1
  firstbe : h.firstbe = 0xf
  lastbe : h.lastbe = 0

/-- **The packet that a request should get**: one beat with a short header and the data, or a long header and a beat
with the data. -/
structure WritesTo (r : BitVec 64 × BitVec 32) (p : List TLPData) : Prop where
  isPacket : IsPacket p
  length : lengthOf (packetDwords p) = 1
  payload : payload p = [byteSwap r.2]
  short : r.1.extractLsb' 32 32 = 0 → ∃ h : TLPMemoryIO3DWHeader,
    p.map TLPData.data = [h.pack] ∧ h.format = .memWrite3DWData ∧ h.addr.toNat = r.1.toNat / 4 ∧
      h.data = byteSwap r.2 ∧ c.WritesOne h.toTLPRequestHeader
  long : r.1.extractLsb' 32 32 ≠ 0 → ∃ (h : TLPMemory4DWHeader) (t : TLPData),
    p.map TLPData.data = [h.pack, t.data] ∧ t.dwords = [byteSwap r.2] ∧ h.format = .memWrite4DWData ∧
      h.addr.toNat = r.1.toNat / 4 ∧ c.WritesOne h.toTLPRequestHeader

/-- The beats that are sent for a request. -/
def packetOf (tlpTag : BitVec 8) (r : InterruptRequest) : List TLPData :=
  if r.mswIsZero && r.lswIsZero then []
  else if r.mswIsZero then [c.shortTlp tlpTag r]
  else [c.longTlp tlpTag r, c.dataTlp r.data]

/-- The dwords of a beat that all count. -/
lemma dwords_of_all {t : TLPData} (h : t.be = 0xffff) : t.dwords = lanes t.data := by
  rw [t.dwords_eq (k := 4) (by decide) h]
  rfl

/-- The dword of the data. -/
lemma dwords_dataTlp (data : BitVec 32) : (c.dataTlp data).dwords = [byteSwap data] := by
  rw [(c.dataTlp data).dwords_eq (k := 1) (by decide) (by rfl)]
  show [(byteSwap data ++ c.defaults.tlp.data.extractLsb' 0 96).extractLsb' 96 32] = _
  simp (disch := decide) only [BitVec.extractLsb'_append_eq_of_le, BitVec.extractLsb'_eq_self, Nat.sub_self]

variable {addr : BitVec 64} {data : BitVec 32} (tlpTag : BitVec 8)

/-- The upper dword of an address. -/
lemma toNat_upper (addr : BitVec 64) : (addr.extractLsb' 32 32).toNat = addr.toNat / 2 ^ 32 % 2 ^ 32 := by
  rw [BitVec.extractLsb'_toNat, Nat.shiftRight_eq_div_pow]

lemma writesTo_short (hupper : addr.extractLsb' 32 32 = 0) :
    c.WritesTo (addr, data) [c.shortTlp tlpTag (.make addr data)] := by
  have hdwords : packetDwords [c.shortTlp tlpTag (.make addr data)] =
      lanes (c.hdr3dw tlpTag (.make addr data)).pack := by
    rw [packetDwords, List.flatMap_singleton, dwords_of_all rfl]
    rfl
  have hlanes := lanes_pack3dw (c.hdr3dw tlpTag (.make addr data))
  refine ⟨⟨⟨rfl, by simp⟩, [], _, rfl, rfl, by simp⟩, ?_, ?_, fun _ => ?_, fun hne => absurd hupper hne⟩
  · rw [hdwords, hlanes, lengthOf_pack]
    rfl
  · rw [Xbsv.payload, hdwords, headerLength, hlanes, formatOf_pack]
    rfl
  · refine ⟨_, rfl, rfl, ?_, rfl, rfl, rfl, rfl, rfl⟩
    have hlt := addr.isLt
    have hmsw := congrArg BitVec.toNat hupper
    rw [toNat_upper, show (0 : BitVec 32).toNat = 0 from rfl] at hmsw
    show (addr.extractLsb' 2 30).toNat = addr.toNat / 4
    rw [BitVec.extractLsb'_toNat, Nat.shiftRight_eq_div_pow]
    omega

lemma writesTo_long (haddr : addr.toNat < 2 ^ 40) (hupper : addr.extractLsb' 32 32 ≠ 0) :
    c.WritesTo (addr, data) [c.longTlp tlpTag (.make addr data), c.dataTlp data] := by
  have hdwords : packetDwords [c.longTlp tlpTag (.make addr data), c.dataTlp data] =
      lanes (c.hdr4dw tlpTag (.make addr data)).pack ++ [byteSwap data] := by
    rw [packetDwords, List.flatMap_cons, List.flatMap_singleton, dwords_of_all rfl, dwords_dataTlp]
    rfl
  have hlanes := lanes_pack4dw (c.hdr4dw tlpTag (.make addr data))
  refine ⟨⟨⟨rfl, ?_⟩, [c.longTlp tlpTag (.make addr data)], _, rfl, rfl, ?_⟩, ?_, ?_, fun h0 => absurd h0 hupper,
    fun _ => ?_⟩
  · intro t ht
    rw [List.mem_singleton.mp ht]
    rfl
  · intro t ht
    rw [List.mem_singleton.mp ht]
    rfl
  · rw [hdwords, hlanes, List.cons_append, lengthOf_pack]
    rfl
  · rw [Xbsv.payload, hdwords, headerLength, hlanes, List.cons_append, formatOf_pack]
    rfl
  · refine ⟨_, c.dataTlp data, rfl, c.dwords_dataTlp data, rfl, ?_, rfl, rfl, rfl, rfl⟩
    show ((addr.extractLsb' 2 38).setWidth 62).toNat = addr.toNat / 4
    rw [BitVec.toNat_setWidth, BitVec.extractLsb'_toNat, Nat.shiftRight_eq_div_pow]
    omega

/-- The request to address 0. -/
lemma zero_iff (addr : BitVec 64) (data : BitVec 32) :
    ((InterruptRequest.make addr data).mswIsZero && (InterruptRequest.make addr data).lswIsZero) = true ↔
      addr = 0 := by
  rw [Bool.and_eq_true, InterruptRequest.make, beq_iff_eq, beq_iff_eq]
  constructor
  · rintro ⟨hmsw, hlsw⟩
    have hlt := addr.isLt
    have hupper := congrArg BitVec.toNat hmsw
    have hlower := congrArg BitVec.toNat hlsw
    rw [toNat_upper, show (0 : BitVec 32).toNat = 0 from rfl] at hupper
    rw [BitVec.extractLsb'_toNat, Nat.shiftRight_zero, show (0 : BitVec 32).toNat = 0 from rfl] at hlower
    apply BitVec.eq_of_toNat_eq
    rw [show (0 : BitVec 64).toNat = 0 from rfl]
    omega
  · rintro rfl
    exact ⟨by decide, by decide⟩

/-- Nothing is sent for address 0. -/
lemma packetOf_zero (data : BitVec 32) : c.packetOf tlpTag (.make 0 data) = [] := rfl

/-- **What is sent for one request is the packet that it should get.** -/
theorem writesTo_packetOf (haddr : addr.toNat < 2 ^ 40) (hne : addr ≠ 0) :
    c.WritesTo (addr, data) (c.packetOf tlpTag (.make addr data)) := by
  rw [packetOf, if_neg fun h0 => hne ((zero_iff addr data).mp h0)]
  split
  case isTrue hmsw => exact c.writesTo_short tlpTag (beq_iff_eq.mp hmsw)
  case isFalse hmsw => exact c.writesTo_long tlpTag haddr fun h0 => hmsw (beq_iff_eq.mpr h0)

end InterruptConfig

/-! ## What a run sends -/

namespace MemInterrupt

/-- The requests. -/
def requests (tr : List Event) : List (BitVec 64 × BitVec 32) :=
  tr.filterMap fun
    | .requested addr data => some (addr, data)
    | .tlp _ => none

/-- The beats that went out. -/
def beatsOut (tr : List Event) : List TLPData :=
  tr.filterMap fun
    | .requested _ _ => none
    | .tlp t => some t

section Traces

variable (tr es : List Event)

@[simp] lemma requests_append : requests (tr ++ es) = requests tr ++ requests es := List.filterMap_append

@[simp] lemma beatsOut_append : beatsOut (tr ++ es) = beatsOut tr ++ beatsOut es := List.filterMap_append

end Traces

/-- The beats for some of the requests. -/
def packetsOf (c : InterruptConfig) (rs : List InterruptRequest) : List TLPData :=
  rs.flatMap (c.packetOf 0)

/-- The beats that are still to be sent. -/
def toSend (c : InterruptConfig) (s : MemInterrupt) : List TLPData :=
  match s.interruptSecondHalf with
  | none => packetsOf c s.interruptRequestFifo.items
  | some interruptData => c.dataTlp interruptData :: packetsOf c s.interruptRequestFifo.items.tail

/-- **The invariant**: what went out, what is in the queue and what is still to be sent are the beats for the
requests. -/
structure Sends (c : InterruptConfig) (tr : List Event) (s : MemInterrupt) : Prop where
  tlpTag : s.tlpTag = 0
  busy : s.interruptSecondHalf ≠ none → s.interruptRequestFifo.items ≠ []
  sent : beatsOut tr ++ (s.tlpOutFifo.items ++ s.toSend c) =
    packetsOf c ((requests tr).map fun r => .make r.1 r.2)

variable {c : InterruptConfig} {s s' : MemInterrupt} {tr es : List Event}

lemma sends_reset : Sends c [] reset := ⟨rfl, fun h => absurd rfl h, rfl⟩

lemma packetsOf_append (rs rs' : List InterruptRequest) :
    packetsOf c (rs ++ rs') = packetsOf c rs ++ packetsOf c rs' := List.flatMap_append

/-- What rule `interruptTlpOut` does: it drops a request, sends it, or sends its first half. -/
lemma interruptTlpOut_eq_some (h : s.interruptTlpOut c = some s') :
    s.interruptSecondHalf = none ∧ ∃ r rest, s.interruptRequestFifo.items = r :: rest ∧
      ((s'.interruptSecondHalf = none ∧ s'.interruptRequestFifo.items = rest ∧ ∃ ts,
          c.packetOf s.tlpTag r = ts ∧ ts.length ≤ 1 ∧ s'.tlpOutFifo.items = s.tlpOutFifo.items ++ ts) ∨
        (s'.interruptSecondHalf = some r.data ∧ s'.interruptRequestFifo = s.interruptRequestFifo ∧
          c.packetOf s.tlpTag r = [c.longTlp s.tlpTag r, c.dataTlp r.data] ∧
          s'.tlpOutFifo.items = s.tlpOutFifo.items ++ [c.longTlp s.tlpTag r])) ∧ s'.tlpTag = s.tlpTag := by
  rw [interruptTlpOut] at h
  split at h
  case h_1 => cases h
  case h_2 hnone =>
    obtain ⟨r, hfirst, h⟩ := Option.bind_eq_some_iff.mp h
    obtain ⟨rest, hitems⟩ := Fifo.first_eq_some.mp hfirst
    refine ⟨hnone, r, rest, hitems, ?_⟩
    split at h
    case isTrue hzero =>
      simp only [Option.bind_eq_bind, Option.bind_eq_some_iff, Prod.exists, Fifo.deq_eq_some, Option.pure_def,
        Option.some.injEq] at h
      obtain ⟨r', fifo, hdeq, rfl⟩ := h
      cases hitems.symm.trans hdeq
      exact ⟨.inl ⟨hnone, rfl, [], if_pos hzero, Nat.zero_le _, (List.append_nil _).symm⟩, rfl⟩
    case isFalse hzero =>
      split at h
      case isTrue hmsw =>
        simp only [Option.bind_eq_bind, Option.bind_eq_some_iff, Prod.exists, Fifo.deq_eq_some, Option.pure_def,
          Option.some.injEq, Fifo.enq_eq_some] at h
        obtain ⟨r', fifo, hdeq, out, ⟨-, hout⟩, rfl⟩ := h
        cases hitems.symm.trans hdeq
        refine ⟨.inl ⟨hnone, rfl, [c.shortTlp s.tlpTag r], ?_, Nat.le_refl _, hout⟩, rfl⟩
        rw [InterruptConfig.packetOf, if_neg hzero, if_pos hmsw]
      case isFalse hmsw =>
        simp only [Option.bind_eq_bind, Option.bind_eq_some_iff, Option.pure_def, Option.some.injEq,
          Fifo.enq_eq_some] at h
        obtain ⟨out, ⟨-, hout⟩, rfl⟩ := h
        refine ⟨.inr ⟨rfl, rfl, ?_, hout⟩, rfl⟩
        rw [InterruptConfig.packetOf, if_neg hzero, if_neg hmsw]

/-- What rule `interruptTlpDataOut` does. -/
lemma interruptTlpDataOut_eq_some (h : s.interruptTlpDataOut c = some s') :
    ∃ interruptData r, s.interruptSecondHalf = some interruptData ∧
      s.interruptRequestFifo.items = r :: s'.interruptRequestFifo.items ∧ s'.interruptSecondHalf = none ∧
      s'.tlpOutFifo.items = s.tlpOutFifo.items ++ [c.dataTlp interruptData] ∧ s'.tlpTag = s.tlpTag := by
  rw [interruptTlpDataOut] at h
  split at h
  case h_1 => cases h
  case h_2 interruptData hsome =>
    simp only [Option.bind_eq_bind, Option.bind_eq_some_iff, Prod.exists, Fifo.deq_eq_some, Option.pure_def,
      Option.some.injEq, Fifo.enq_eq_some] at h
    obtain ⟨out, ⟨-, hout⟩, r, fifo, hdeq, rfl⟩ := h
    exact ⟨interruptData, r, hsome, hdeq, rfl, hout, rfl⟩

lemma Sends.interruptTlpOut (h : Sends c tr s) (hstep : s.interruptTlpOut c = some s') : Sends c tr s' := by
  obtain ⟨hnone, r, rest, hitems, hcases, htag⟩ := interruptTlpOut_eq_some hstep
  have hsent := h.sent
  simp only [toSend, hnone, packetsOf, hitems, List.flatMap_cons] at hsent
  rw [h.tlpTag] at hcases htag
  rcases hcases with ⟨hnone', hrest, ts, hts, -, hout⟩ | ⟨hsome, hfifo, hpacket, hout⟩
  · refine ⟨htag, fun hne => absurd hnone' hne, ?_⟩
    simp only [toSend, hnone', packetsOf, hrest, hout, ← hts]
    rw [List.append_assoc]
    exact hsent
  · refine ⟨htag, fun _ => by rw [hfifo, hitems]; exact List.cons_ne_nil _ _, ?_⟩
    simp only [toSend, hsome, packetsOf, hfifo, hitems, hout, List.tail_cons]
    rw [hpacket] at hsent
    rw [List.append_assoc]
    exact hsent

lemma Sends.interruptTlpDataOut (h : Sends c tr s) (hstep : s.interruptTlpDataOut c = some s') : Sends c tr s' := by
  obtain ⟨interruptData, r, hsome, hitems, hnone, hout, htag⟩ := interruptTlpDataOut_eq_some hstep
  have hsent := h.sent
  simp only [toSend, hsome, packetsOf, hitems, List.tail_cons] at hsent
  refine ⟨htag.trans h.tlpTag, fun hne => absurd hnone hne, ?_⟩
  simp only [toSend, hnone, packetsOf, hout]
  rw [List.append_assoc]
  exact hsent

/-- What a step needs and does, with all requests in the order in which they came. -/
theorem Sends.step (h : Sends c tr s) {a : Action} (hstep : (memInterrupt c).step s a = some (s', es)) :
    Sends c (tr ++ es) s' := by
  cases a with
  | interruptRequest addr data =>
    obtain ⟨fifo, henq, heq⟩ := Option.bind_eq_some_iff.mp hstep
    cases heq
    obtain ⟨-, hitems⟩ := Fifo.enq_eq_some.mp henq
    have hsent := h.sent
    refine ⟨h.tlpTag, fun _ => by rw [hitems]; simp, ?_⟩
    have htoSend : toSend c { s with interruptRequestFifo := fifo } =
        s.toSend c ++ packetsOf c [.make addr data] := by
      unfold toSend
      cases hhalf : s.interruptSecondHalf with
      | none =>
        dsimp only
        rw [hitems, packetsOf_append]
      | some interruptData =>
        dsimp only
        rw [hitems, List.tail_append_of_ne_nil (h.busy (by rw [hhalf]; exact Option.some_ne_none _)),
          packetsOf_append, List.cons_append]
    rw [htoSend, requests_append, beatsOut_append, List.map_append, packetsOf_append, ← hsent]
    simp [requests, beatsOut]
  | interruptTlpOut =>
    obtain ⟨s₁, hs, heq⟩ := Option.map_eq_some_iff.mp hstep
    cases heq
    rw [List.append_nil]
    exact h.interruptTlpOut hs
  | interruptTlpDataOut =>
    obtain ⟨s₁, hs, heq⟩ := Option.map_eq_some_iff.mp hstep
    cases heq
    rw [List.append_nil]
    exact h.interruptTlpDataOut hs
  | request =>
    simp only [memInterrupt, MemInterrupt.step, Option.bind_eq_bind, Option.bind_eq_some_iff, Prod.exists,
      Fifo.deq_eq_some, Option.pure_def, Option.some.injEq, Prod.mk.injEq] at hstep
    obtain ⟨t, fifo, hitems, rfl, rfl⟩ := hstep
    have hsent := h.sent
    rw [hitems] at hsent
    refine ⟨h.tlpTag, h.busy, ?_⟩
    rw [requests_append, beatsOut_append]
    simpa [requests, beatsOut, toSend] using hsent
  | response tlp =>
    cases hstep
    rw [List.append_nil]
    exact h

lemma sends_of_reaches (h : (memInterrupt c).Reaches .reset tr s) : Sends c tr s :=
  h.invariant sends_reset fun hs hstep => hs.step hstep

/-! ## Nothing stays behind -/

/-- The steps with which nothing new comes in. -/
def Drains (_ : MemInterrupt) : Action → Prop
  | .interruptRequest _ _ => False
  | .response _ => False
  | _ => True

instance (s : MemInterrupt) : ∀ a, Decidable (s.Drains a)
  | .interruptRequest _ _ => inferInstanceAs (Decidable False)
  | .interruptTlpOut => inferInstanceAs (Decidable True)
  | .interruptTlpDataOut => inferInstanceAs (Decidable True)
  | .request => inferInstanceAs (Decidable True)
  | .response _ => inferInstanceAs (Decidable False)

/-- A bound on the steps with which nothing comes in. -/
def left (s : MemInterrupt) : ℕ :=
  4 * s.interruptRequestFifo.items.length + s.tlpOutFifo.items.length - if s.interruptSecondHalf.isSome then 2 else 0

/-- Every such step lowers the bound, and no request comes in. -/
lemma Sends.left_lt (h : Sends c tr s) {a : Action} (hstep : ((memInterrupt c).guard Drains).step s a = some (s', es)) :
    s'.left < s.left ∧ requests es = [] := by
  obtain ⟨hdrains, hstep⟩ := RuleSystem.guard_step.mp hstep
  cases a with
  | interruptRequest addr data => exact hdrains.elim
  | response tlp => exact hdrains.elim
  | interruptTlpOut =>
    obtain ⟨s₁, hs, heq⟩ := Option.map_eq_some_iff.mp hstep
    cases heq
    obtain ⟨hnone, r, rest, hitems, hcases, -⟩ := interruptTlpOut_eq_some hs
    refine ⟨?_, rfl⟩
    rcases hcases with ⟨hnone', hrest, ts, -, hts, hout⟩ | ⟨hsome, hfifo, -, hout⟩
    · simp only [left, hnone, hnone', hitems, hrest, hout, List.length_append, List.length_cons,
        Option.isSome_none, Bool.false_eq_true, if_false]
      omega
    · simp only [left, hnone, hsome, hfifo, hitems, hout, List.length_append, List.length_cons, List.length_nil,
        Option.isSome_none, Option.isSome_some, Bool.false_eq_true, if_false, if_true]
      omega
  | interruptTlpDataOut =>
    obtain ⟨s₁, hs, heq⟩ := Option.map_eq_some_iff.mp hstep
    cases heq
    obtain ⟨interruptData, r, hsome, hitems, hnone, hout, -⟩ := interruptTlpDataOut_eq_some hs
    refine ⟨?_, rfl⟩
    simp only [left, hsome, hnone, hitems, hout, List.length_append, List.length_cons, List.length_nil,
      Option.isSome_none, Option.isSome_some, Bool.false_eq_true, if_false, if_true]
    omega
  | request =>
    simp only [memInterrupt, MemInterrupt.step, Option.bind_eq_bind, Option.bind_eq_some_iff, Prod.exists,
      Fifo.deq_eq_some, Option.pure_def, Option.some.injEq, Prod.mk.injEq] at hstep
    obtain ⟨t, fifo, hitems, rfl, rfl⟩ := hstep
    refine ⟨?_, rfl⟩
    have hbusy := h.busy
    simp only [left, hitems, List.length_cons]
    split
    · rename_i hsome
      have hne := List.length_pos_of_ne_nil (hbusy (Option.isSome_iff_ne_none.mp hsome))
      omega
    · omega

/-- Where no such step can be made, everything went out. -/
lemma Sends.stuck (h : Sends c tr s) (hnone : ∀ a, ((memInterrupt c).guard Drains).step s a = none) :
    beatsOut tr = packetsOf c ((requests tr).map fun r => .make r.1 r.2) := by
  have hstuck : ∀ a, s.Drains a → (memInterrupt c).step s a = none := by
    intro a ha
    have hguard := hnone a
    simp only [RuleSystem.guard] at hguard
    rwa [if_pos ha] at hguard
  have hout : s.tlpOutFifo.items = [] := by
    by_contra hne
    obtain ⟨t, ts, hitems⟩ := List.exists_cons_of_ne_nil hne
    obtain ⟨fifo, hdeq, -⟩ := Fifo.exists_deq hitems
    have hget := hstuck .request trivial
    simp [memInterrupt, MemInterrupt.step, hdeq] at hget
  have hroom (t : TLPData) : ∃ fifo, s.tlpOutFifo.enq t = some fifo ∧ fifo.items = s.tlpOutFifo.items ++ [t] :=
    Fifo.exists_enq (by rw [hout]; decide) t
  have hhalf : s.interruptSecondHalf = none := by
    by_contra hsome
    obtain ⟨interruptData, hsome'⟩ := Option.ne_none_iff_exists'.mp hsome
    obtain ⟨r, rest, hitems⟩ := List.exists_cons_of_ne_nil (h.busy hsome)
    obtain ⟨fifo, henq, -⟩ := hroom (c.dataTlp interruptData)
    obtain ⟨fifo', hdeq, -⟩ := Fifo.exists_deq hitems
    have hdata := hstuck .interruptTlpDataOut trivial
    simp [memInterrupt, MemInterrupt.step, MemInterrupt.interruptTlpDataOut, hsome', henq, hdeq] at hdata
  have hitems : s.interruptRequestFifo.items = [] := by
    by_contra hne
    obtain ⟨r, rest, hitems⟩ := List.exists_cons_of_ne_nil hne
    have hfirst : s.interruptRequestFifo.first = some r := Fifo.first_eq_some.mpr ⟨rest, hitems⟩
    obtain ⟨fifo, hdeq, -⟩ := Fifo.exists_deq hitems
    obtain ⟨short, hshort, -⟩ := hroom (c.shortTlp s.tlpTag r)
    obtain ⟨long, hlong, -⟩ := hroom (c.longTlp s.tlpTag r)
    have htlp := hstuck .interruptTlpOut trivial
    simp only [memInterrupt, MemInterrupt.step, MemInterrupt.interruptTlpOut, hhalf, hfirst, hdeq, hshort, hlong,
      Option.bind_eq_bind, Option.bind_some, Option.pure_def, Option.map_eq_none_iff] at htlp
    split at htlp
    · cases htlp
    · split at htlp <;> cases htlp
  have hsent := h.sent
  simp only [toSend, hhalf, hitems, hout] at hsent
  simpa [packetsOf] using hsent

/-- From every state every run without new requests ends, with everything sent. -/
lemma Sends.ends (h : Sends c tr s) : ((memInterrupt c).guard Drains).Ends
    (fun tr' _ => requests tr' = requests tr ∧
      beatsOut tr' = packetsOf c ((requests tr).map fun r => .make r.1 r.2)) tr s := by
  refine RuleSystem.Ends.of_bound (I := fun n tr' s' => s'.left = n ∧ Sends c tr' s' ∧ requests tr' = requests tr)
    ?_ ?_ ⟨rfl, h, rfl⟩
  · rintro n tr' s₁ a s₂ es ⟨rfl, hsends, hreq⟩ hstep
    obtain ⟨hlt, hnil⟩ := hsends.left_lt hstep
    refine ⟨s₂.left, hlt, rfl, hsends.step (RuleSystem.guard_step.mp hstep).2, ?_⟩
    rw [requests_append, hnil, List.append_nil, hreq]
  · rintro n tr' s₁ ⟨-, hsends, hreq⟩ hnone
    exact ⟨hreq, hreq ▸ hsends.stuck hnone⟩

/-! ## The runs -/

/-- The packets of the requests that do not go to address 0. -/
lemma exists_packets (c : InterruptConfig) {rs : List (BitVec 64 × BitVec 32)} (haddr : ∀ r ∈ rs, r.1.toNat < 2 ^ 40) :
    ∃ ps, List.Forall₂ c.WritesTo (rs.filter fun r => r.1 ≠ 0) ps ∧
      packetsOf c (rs.map fun r => .make r.1 r.2) = ps.flatten := by
  induction rs with
  | nil => exact ⟨[], .nil, rfl⟩
  | cons r rs ih =>
    obtain ⟨hr, hrs⟩ := List.forall_mem_cons.mp haddr
    obtain ⟨ps, hps, hflat⟩ := ih hrs
    obtain ⟨addr, data⟩ := r
    rw [packetsOf] at hflat ⊢
    by_cases h0 : addr = 0
    · subst h0
      refine ⟨ps, by simpa using hps, ?_⟩
      rw [List.map_cons, List.flatMap_cons, c.packetOf_zero, hflat, List.nil_append]
    · refine ⟨c.packetOf 0 (.make addr data) :: ps, ?_, ?_⟩
      · rw [List.filter_cons_of_pos (by simpa using h0)]
        exact .cons (c.writesTo_packetOf 0 hr h0) hps
      · rw [List.map_cons, List.flatMap_cons, hflat, List.flatten_cons]

/-- **Every run sends the packets of its requests**, one for each that does not go to address 0, in order and one after
the other. No back-pressure keeps any of them for good: if nothing more comes in, every run comes to an end, and then
all have been sent. -/
theorem sends_packets {c : InterruptConfig} {tr : List Event} {s : MemInterrupt}
    (h : (memInterrupt c).Reaches .reset tr s) (haddr : ∀ r ∈ requests tr, r.1.toNat < 2 ^ 40) :
    ∃ ps, List.Forall₂ c.WritesTo ((requests tr).filter fun r => r.1 ≠ 0) ps ∧ beatsOut tr <+: ps.flatten ∧
      ((memInterrupt c).guard Drains).Ends
        (fun tr' _ => requests tr' = requests tr ∧ beatsOut tr' = ps.flatten) tr s := by
  have hsends := sends_of_reaches h
  obtain ⟨ps, hps, hflat⟩ := exists_packets c haddr
  refine ⟨ps, hps, ?_, ?_⟩
  · rw [← hflat, ← hsends.sent]
    exact List.prefix_append _ _
  · rw [← hflat]
    exact hsends.ends

/-- Default records of zeros. -/
def zeros : InterruptConfig where
  myId := 0x0100
  defaults :=
    { tlp := ⟨false, false, 0, 0, 0⟩
      hdr3dw := .unpack 0
      hdr4dw := .unpack 0 }

/-- A long address, address 0 and a short one. -/
def threeRequests :=
  (memInterrupt zeros).run .reset
    [.interruptRequest 0x1200000004 1, .interruptRequest 0 2, .interruptTlpOut, .interruptTlpDataOut, .request,
      .interruptRequest 0x10 3, .interruptTlpOut, .interruptTlpOut, .request]

/-- Two beats have gone out, and a third is to follow. -/
theorem sends_packets_threeRequests :
    (beatsOut threeRequests.2).map TLPData.eof = [false, true] ∧
      ∃ ps, List.Forall₂ zeros.WritesTo [(0x1200000004, 1), (0x10, 3)] ps ∧
        beatsOut threeRequests.2 <+: ps.flatten ∧ ((memInterrupt zeros).guard Drains).Ends
          (fun tr' _ => requests tr' = requests threeRequests.2 ∧ beatsOut tr' = ps.flatten)
          threeRequests.2 threeRequests.1 := by
  have hreaches : (memInterrupt zeros).Reaches .reset threeRequests.2 threeRequests.1 :=
    RuleSystem.reaches_run _ _
  have hrequests : requests threeRequests.2 = [(0x1200000004, 1), (0, 2), (0x10, 3)] := by decide +kernel
  have haddr : ∀ r ∈ requests threeRequests.2, r.1.toNat < 2 ^ 40 := by
    rw [hrequests]
    simp
  have hsends := sends_packets hreaches haddr
  rw [hrequests] at hsends ⊢
  exact ⟨by decide +kernel, hsends⟩

end MemInterrupt

end Xbsv
