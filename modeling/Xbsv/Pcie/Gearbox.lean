import Mathlib.Data.List.Chain
import Mathlib.Data.List.Induction
import Xbsv.Pcie.Tlp
import Xbsv.Rules.Lanes
import Xbsv.Rules.System

set_option relaxedAutoImplicit false
set_option autoImplicit false

/-!
# `PcieGearbox.bsv`

The endpoint sends and receives beats of 8 bytes, the design beats of 16. On the way in two beats make one; a
packet of an odd number of beats is followed by a beat without bytes, so that the next one begins with the first
half. On the way out a beat is cut in two, and halves without bytes are dropped.

The two gearboxes, which also connect the two clocks, are queues here, of any size that holds the two halves
of a beat.

## Main definitions

* `Xbsv.TLPData8` — a beat of 8 bytes.
* `Xbsv.combine`, `Xbsv.split` — two halves as a beat, and back.
* `Xbsv.pcieGearbox` — the module, as a system of rules.
* `Xbsv.padded` — the halves that a stream of short beats makes.
* `Xbsv.Widened`, `Xbsv.Narrowed` — the invariants of the two directions.

## Main results

* `Xbsv.Widened.step`, `Xbsv.Narrowed.step` — they hold in every run.
-/

namespace Xbsv

open Rules

/-- One beat of a packet, `TLPData#(8)`. -/
@[ext]
structure TLPData8 where
  sof : Bool
  eof : Bool
  hit : BitVec 7
  be : BitVec 8
  data : BitVec 64
  deriving DecidableEq

/-- `combine`. -/
def combine (v : TLPData8 × TLPData8) : TLPData where
  sof := v.1.sof
  eof := v.2.eof
  hit := v.1.hit
  be := v.1.be ++ v.2.be
  data := v.1.data ++ v.2.data

/-- `split`. -/
def split (t : TLPData) : TLPData8 × TLPData8 :=
  ({ sof := t.sof
     eof := if t.be.extractLsb' 0 8 = 0 then t.eof else false
     hit := t.hit
     be := t.be.extractLsb' 8 8
     data := t.data.extractLsb' 64 64 },
   { sof := false
     eof := t.eof
     hit := t.hit
     be := t.be.extractLsb' 0 8
     data := t.data.extractLsb' 0 64 })

/-- The sizes of the gearboxes, and `defaultValue` of a short beat. -/
structure GearboxConfig where
  rxSize : ℕ
  txSize : ℕ
  two_le_rxSize : 2 ≤ rxSize
  two_le_txSize : 2 ≤ txSize
  tlp : TLPData8

/-- The beat without bytes that makes the number of halves even. -/
def GearboxConfig.invalid (c : GearboxConfig) : TLPData8 := { c.tlp with eof := true, be := 0 }

/-- The state of `mkPcieGearbox`. -/
structure PcieGearbox (c : GearboxConfig) where
  fifoRxData : Fifo c.rxSize TLPData8
  rOddBeat : Bool
  rSendInvalid : Bool
  inFifo : Fifo 2 TLPData8
  outFifo : Fifo 2 TLPData8
  fifoTxData : Fifo c.txSize TLPData8

namespace PcieGearbox

variable {c : GearboxConfig}

/-- After reset. -/
def reset (c : GearboxConfig) : PcieGearbox c := ⟨.empty, false, false, .empty, .empty, .empty⟩

variable (s : PcieGearbox c)

/-- Rule `process_incoming_packets1`. -/
def processIncomingPackets1 : Option (PcieGearbox c) :=
  if s.rSendInvalid then none
  else do
    let (data, inFifo) ← s.inFifo.deq
    let fifoRxData ← s.fifoRxData.enq data
    return { s with
      inFifo, fifoRxData, rOddBeat := !s.rOddBeat, rSendInvalid := !s.rOddBeat && data.eof }

/-- Rule `send_invalid_packets1`. -/
def sendInvalidPackets1 : Option (PcieGearbox c) :=
  if s.rSendInvalid then do
    let fifoRxData ← s.fifoRxData.enq c.invalid
    return { s with fifoRxData, rOddBeat := !s.rOddBeat, rSendInvalid := false }
  else none

/-- Rule `process_outgoing_packets`. -/
def processOutgoingPackets : Option (PcieGearbox c) := do
  let (temp, fifoTxData) ← s.fifoTxData.deq
  let outFifo ← s.outFifo.enqIf (temp.be ≠ 0) temp
  return { s with fifoTxData, outFifo }

/-- `pci.response.get`: two halves are taken from the gearbox. -/
def pciResponse : Option (TLPData × PcieGearbox c) := do
  let (v₀, q) ← s.fifoRxData.deq
  let (v₁, fifoRxData) ← q.deq
  return (combine (v₀, v₁), { s with fifoRxData })

/-- `pci.request.put`: two halves go to the gearbox. -/
def pciRequest (t : TLPData) : Option (PcieGearbox c) := do
  let fifoTxData ← s.fifoTxData.enqN [(split t).1, (split t).2]
  return { s with fifoTxData }

/-- `tlp.request.get`. -/
def tlpRequest : Option (TLPData8 × PcieGearbox c) := do
  let (t, outFifo) ← s.outFifo.deq
  return (t, { s with outFifo })

/-- `tlp.response.put`. -/
def tlpResponse (t : TLPData8) : Option (PcieGearbox c) := do
  let inFifo ← s.inFifo.enq t
  return { s with inFifo }

/-- The methods and the rules. -/
inductive Action where
  | tlpResponse (t : TLPData8)
  | processIncomingPackets1
  | sendInvalidPackets1
  | pciResponse
  | pciRequest (t : TLPData)
  | processOutgoingPackets
  | tlpRequest

/-- The beats that go in and out. -/
inductive Event where
  | tlpResponse (t : TLPData8)
  | pciResponse (t : TLPData)
  | pciRequest (t : TLPData)
  | tlpRequest (t : TLPData8)

end PcieGearbox

/-- `mkPcieGearbox`. -/
def pcieGearbox (c : GearboxConfig) : RuleSystem (PcieGearbox c) PcieGearbox.Action PcieGearbox.Event where
  step s
    | .tlpResponse t => do
      let s' ← s.tlpResponse t
      return (s', [.tlpResponse t])
    | .processIncomingPackets1 => do
      let s' ← s.processIncomingPackets1
      return (s', [])
    | .sendInvalidPackets1 => do
      let s' ← s.sendInvalidPackets1
      return (s', [])
    | .pciResponse => do
      let (t, s') ← s.pciResponse
      return (s', [.pciResponse t])
    | .pciRequest t => do
      let s' ← s.pciRequest t
      return (s', [.pciRequest t])
    | .processOutgoingPackets => do
      let s' ← s.processOutgoingPackets
      return (s', [])
    | .tlpRequest => do
      let (t, s') ← s.tlpRequest
      return (s', [.tlpRequest t])

/-! ## The beats that go in and out -/

namespace PcieGearbox

/-- The short beats from the endpoint. -/
def shortIn (tr : List Event) : List TLPData8 :=
  tr.filterMap fun
    | .tlpResponse t => some t
    | _ => none

/-- The long beats to the design. -/
def longOut (tr : List Event) : List TLPData :=
  tr.filterMap fun
    | .pciResponse t => some t
    | _ => none

/-- The long beats from the design. -/
def longIn (tr : List Event) : List TLPData :=
  tr.filterMap fun
    | .pciRequest t => some t
    | _ => none

/-- The short beats to the endpoint. -/
def shortOut (tr : List Event) : List TLPData8 :=
  tr.filterMap fun
    | .tlpRequest t => some t
    | _ => none

variable (tr es : List Event)

@[simp] lemma shortIn_append : shortIn (tr ++ es) = shortIn tr ++ shortIn es := List.filterMap_append

@[simp] lemma longOut_append : longOut (tr ++ es) = longOut tr ++ longOut es := List.filterMap_append

@[simp] lemma longIn_append : longIn (tr ++ es) = longIn tr ++ longIn es := List.filterMap_append

@[simp] lemma shortOut_append : shortOut (tr ++ es) = shortOut tr ++ shortOut es := List.filterMap_append

variable (e : Event)

@[simp] lemma shortIn_singleton : shortIn [e] = match e with | .tlpResponse t => [t] | _ => [] := by
  cases e <;> rfl

@[simp] lemma longOut_singleton : longOut [e] = match e with | .pciResponse t => [t] | _ => [] := by
  cases e <;> rfl

@[simp] lemma longIn_singleton : longIn [e] = match e with | .pciRequest t => [t] | _ => [] := by
  cases e <;> rfl

@[simp] lemma shortOut_singleton : shortOut [e] = match e with | .tlpRequest t => [t] | _ => [] := by
  cases e <;> rfl

end PcieGearbox

/-! ## Halves -/

section Halves

variable {c : GearboxConfig} {l l' : List TLPData8} {t : TLPData8}

/-- The beat has bytes. -/
def TLPData8.isValid (t : TLPData8) : Bool := t.be ≠ 0

/-- The two halves of a beat. -/
def halves (v : TLPData8 × TLPData8) : List TLPData8 := [v.1, v.2]

/-- The next half is a second one. -/
def oddAfter (odd : Bool) (l : List TLPData8) : Bool := l.foldl (fun odd t => !odd && !t.eof) odd

/-- The halves that a stream makes: a first half that ends a packet is followed by a beat without bytes. -/
def padded (c : GearboxConfig) : Bool → List TLPData8 → List TLPData8
  | _, [] => []
  | odd, t :: l => (if !odd && t.eof then [t, c.invalid] else [t]) ++ padded c (!odd && !t.eof) l

/-- One stream after another. -/
lemma padded_append (odd : Bool) : padded c odd (l ++ l') = padded c odd l ++ padded c (oddAfter odd l) l' := by
  induction l generalizing odd with
  | nil => rfl
  | cons t l ih =>
    show _ ++ padded c _ (l ++ l') = _
    rw [ih, ← List.append_assoc]
    rfl

/-- One more beat. -/
lemma padded_concat (odd : Bool) :
    padded c odd (l ++ [t]) = padded c odd l ++ if !oddAfter odd l && t.eof then [t, c.invalid] else [t] := by
  rw [padded_append]
  simp [padded]

lemma oddAfter_concat (odd : Bool) : oddAfter odd (l ++ [t]) = (!oddAfter odd l && !t.eof) := by
  unfold oddAfter
  rw [List.foldl_append]
  rfl

/-- A longer stream makes more halves. -/
lemma padded_mono (h : l <+: l') : padded c false l <+: padded c false l' := by
  obtain ⟨r, rfl⟩ := h
  rw [padded_append]
  exact List.prefix_append _ _

/-- Without the halves that have no bytes a stream is itself. -/
lemma filter_padded (h : ∀ t ∈ l, t.isValid = true) (odd : Bool) :
    (padded c odd l).filter TLPData8.isValid = l := by
  induction l generalizing odd with
  | nil => rfl
  | cons t l ih =>
    have ht := h t (by simp)
    have hpad : c.invalid.isValid = false := by simp [TLPData8.isValid, GearboxConfig.invalid]
    show ((if !odd && t.eof then [t, c.invalid] else [t]) ++ padded c _ l).filter _ = _
    rw [List.filter_append, ih fun u hu => h u (by simp [hu])]
    split
    · simp [ht, hpad]
    · simp [ht]

/-- The number of halves. -/
lemma length_flatMap_halves (vs : List (TLPData8 × TLPData8)) : (vs.flatMap halves).length = 2 * vs.length := by
  induction vs with
  | nil => rfl
  | cons v vs ih =>
    rw [List.flatMap_cons, List.length_append, ih, List.length_cons]
    show 2 + _ = _
    omega

/-- Pairs of halves that come first come first. -/
lemma prefix_of_halves {vs ws : List (TLPData8 × TLPData8)} (h : vs.flatMap halves <+: ws.flatMap halves) :
    vs <+: ws := by
  induction vs generalizing ws with
  | nil => exact List.nil_prefix
  | cons v vs ih =>
    cases ws with
    | nil => simp [halves] at h
    | cons w ws =>
      simp only [List.flatMap_cons, halves, List.cons_append, List.nil_append, List.cons_prefix_cons] at h
      obtain ⟨h₁, h₂, hrest⟩ := h
      rw [List.cons_prefix_cons]
      exact ⟨Prod.ext h₁ h₂, ih hrest⟩

end Halves

/-! ## The way in -/

/-- The beats `l` have been taken from the endpoint, and the pairs `vs` of halves have gone to the design. -/
structure Widened {c : GearboxConfig} (tr : List PcieGearbox.Event) (s : PcieGearbox c) (l : List TLPData8)
    (vs : List (TLPData8 × TLPData8)) : Prop where
  taken : PcieGearbox.shortIn tr = l ++ s.inFifo.items
  out : PcieGearbox.longOut tr = vs.map combine
  flat : vs.flatMap halves ++ s.fifoRxData.items ++ (if s.rSendInvalid then [c.invalid] else []) = padded c false l
  odd : (!s.rSendInvalid && s.rOddBeat) = oddAfter false l
  invalid : s.rSendInvalid = true → s.rOddBeat = true

namespace Widened

open PcieGearbox

variable {c : GearboxConfig} {tr es : List Event} {s s' : PcieGearbox c} {l : List TLPData8}
  {vs : List (TLPData8 × TLPData8)}

lemma reset (c : GearboxConfig) : Widened [] (PcieGearbox.reset c) [] [] :=
  ⟨rfl, rfl, rfl, rfl, fun h => by cases h⟩

/-- A step of the other direction. -/
lemma frame (h : Widened tr s l vs) (hin : shortIn es = []) (hout : longOut es = [])
    (hrx : s'.fifoRxData = s.fifoRxData) (hodd : s'.rOddBeat = s.rOddBeat)
    (hinvalid : s'.rSendInvalid = s.rSendInvalid) (hfifo : s'.inFifo = s.inFifo) : Widened (tr ++ es) s' l vs := by
  refine ⟨?_, ?_, ?_, ?_, ?_⟩
  · rw [shortIn_append, hin, List.append_nil, hfifo]
    exact h.taken
  · rw [longOut_append, hout, List.append_nil]
    exact h.out
  · rw [hrx, hinvalid]
    exact h.flat
  · rw [hinvalid, hodd]
    exact h.odd
  · rw [hinvalid, hodd]
    exact h.invalid

/-- A beat comes from the endpoint. -/
lemma tlpResponse (h : Widened tr s l vs) {t : TLPData8} (hs : s.tlpResponse t = some s') :
    Widened (tr ++ [PcieGearbox.Event.tlpResponse t]) s' l vs := by
  obtain ⟨q, hq, hs⟩ := Option.bind_eq_some_iff.mp hs
  cases hs
  obtain ⟨-, hitems⟩ := Fifo.enq_eq_some.mp hq
  refine ⟨?_, ?_, h.flat, h.odd, h.invalid⟩
  · rw [shortIn_append, h.taken, hitems, List.append_assoc]
    rfl
  · rw [longOut_append]
    simpa using h.out

/-- A beat is a half of a long one. -/
lemma processIncoming (h : Widened tr s l vs) (hs : s.processIncomingPackets1 = some s') :
    ∃ l', Widened tr s' l' vs := by
  unfold processIncomingPackets1 at hs
  split at hs
  · cases hs
  · rename_i hinvalid
    have hinvalid : s.rSendInvalid = false := by simpa using hinvalid
    obtain ⟨⟨t, q⟩, hq, hs⟩ := Option.bind_eq_some_iff.mp hs
    obtain ⟨r, hr, hs⟩ := Option.bind_eq_some_iff.mp hs
    cases hs
    have hitems := Fifo.deq_eq_some.mp hq
    obtain ⟨-, hrx⟩ := Fifo.enq_eq_some.mp hr
    have hodd := h.odd
    have hflat := h.flat
    rw [hinvalid] at hodd hflat
    simp only [Bool.not_false, Bool.true_and, Bool.false_eq_true, if_false, List.append_nil] at hodd hflat
    refine ⟨l ++ [t], ⟨?_, h.out, ?_, ?_, ?_⟩⟩
    · rw [h.taken, hitems, List.append_assoc]
      rfl
    · rw [padded_concat, ← hflat, ← hodd, hrx]
      cases hsend : (!s.rOddBeat && t.eof) with
      | true => simp
      | false => simp
    · rw [oddAfter_concat, ← hodd]
      cases s.rOddBeat <;> cases t.eof <;> rfl
    · intro hsend
      have hsend : (!s.rOddBeat && t.eof) = true := hsend
      simp only [Bool.and_eq_true] at hsend
      exact hsend.1

/-- The beat without bytes is sent. -/
lemma sendInvalid (h : Widened tr s l vs) (hs : s.sendInvalidPackets1 = some s') : Widened tr s' l vs := by
  unfold sendInvalidPackets1 at hs
  split at hs
  · rename_i hinvalid
    obtain ⟨r, hr, hs⟩ := Option.bind_eq_some_iff.mp hs
    cases hs
    obtain ⟨-, hrx⟩ := Fifo.enq_eq_some.mp hr
    have hodd := h.odd
    have hflat := h.flat
    rw [hinvalid] at hodd hflat
    refine ⟨h.taken, h.out, ?_, ?_, fun h => by cases h⟩
    · rw [hrx, ← hflat]
      simp
    · rw [← hodd, h.invalid hinvalid]
      rfl
  · cases hs

/-- Two halves go to the design. -/
lemma pciResponse (h : Widened tr s l vs) {t : TLPData} (hs : s.pciResponse = some (t, s')) :
    ∃ v, t = combine v ∧ Widened (tr ++ [PcieGearbox.Event.pciResponse t]) s' l (vs ++ [v]) := by
  obtain ⟨⟨v₀, q⟩, hq, hs⟩ := Option.bind_eq_some_iff.mp hs
  obtain ⟨⟨v₁, r⟩, hr, hs⟩ := Option.bind_eq_some_iff.mp hs
  cases hs
  have hitems := Fifo.deq_eq_some.mp hq
  have hitems' := Fifo.deq_eq_some.mp hr
  refine ⟨(v₀, v₁), rfl, ⟨?_, ?_, ?_, h.odd, h.invalid⟩⟩
  · rw [shortIn_append]
    simpa using h.taken
  · rw [longOut_append, h.out]
    simp
  · rw [← h.flat, hitems, hitems']
    simp [halves]

/-- Every step. -/
lemma step (h : Widened tr s l vs) {a : Action} (hs : (pcieGearbox c).step s a = some (s', es)) :
    ∃ l' vs', Widened (tr ++ es) s' l' vs' := by
  cases a with
  | tlpResponse t =>
    obtain ⟨s₁, hs₁, hs⟩ := Option.bind_eq_some_iff.mp hs
    cases hs
    exact ⟨l, vs, h.tlpResponse hs₁⟩
  | processIncomingPackets1 =>
    obtain ⟨s₁, hs₁, hs⟩ := Option.bind_eq_some_iff.mp hs
    cases hs
    rw [List.append_nil]
    obtain ⟨l', hl'⟩ := h.processIncoming hs₁
    exact ⟨l', vs, hl'⟩
  | sendInvalidPackets1 =>
    obtain ⟨s₁, hs₁, hs⟩ := Option.bind_eq_some_iff.mp hs
    cases hs
    rw [List.append_nil]
    exact ⟨l, vs, h.sendInvalid hs₁⟩
  | pciResponse =>
    obtain ⟨⟨t, s₁⟩, hs₁, hs⟩ := Option.bind_eq_some_iff.mp hs
    cases hs
    obtain ⟨v, -, hv⟩ := h.pciResponse hs₁
    exact ⟨l, vs ++ [v], hv⟩
  | pciRequest t =>
    obtain ⟨s₁, hs₁, hs⟩ := Option.bind_eq_some_iff.mp hs
    cases hs
    obtain ⟨q, -, hs₁⟩ := Option.bind_eq_some_iff.mp hs₁
    cases hs₁
    exact ⟨l, vs, h.frame rfl rfl rfl rfl rfl rfl⟩
  | processOutgoingPackets =>
    obtain ⟨s₁, hs₁, hs⟩ := Option.bind_eq_some_iff.mp hs
    cases hs
    obtain ⟨⟨t, q⟩, -, hs₁⟩ := Option.bind_eq_some_iff.mp hs₁
    obtain ⟨r, -, hs₁⟩ := Option.bind_eq_some_iff.mp hs₁
    cases hs₁
    exact ⟨l, vs, h.frame rfl rfl rfl rfl rfl rfl⟩
  | tlpRequest =>
    obtain ⟨⟨t, s₁⟩, hs₁, hs⟩ := Option.bind_eq_some_iff.mp hs
    cases hs
    obtain ⟨⟨t', q⟩, -, hs₁⟩ := Option.bind_eq_some_iff.mp hs₁
    cases hs₁
    exact ⟨l, vs, h.frame rfl rfl rfl rfl rfl rfl⟩

/-- What has gone to the design is what the halves of the stream make. -/
lemma pairs_prefix (h : Widened tr s l vs) : vs.flatMap halves <+: padded c false l := by
  rw [← h.flat, List.append_assoc]
  exact List.prefix_append _ _

end Widened

/-- The invariant of the way in holds in every run. -/
lemma exists_widened {c : GearboxConfig} {tr : List PcieGearbox.Event} {s : PcieGearbox c}
    (h : (pcieGearbox c).Reaches (.reset c) tr s) : ∃ l vs, Widened tr s l vs := by
  have hreset : ∃ l vs, Widened [] (PcieGearbox.reset c) l vs := ⟨[], [], .reset c⟩
  refine h.invariant (I := fun tr (s : PcieGearbox c) => ∃ l vs, Widened tr s l vs) hreset ?_
  rintro tr s a s' es ⟨l, vs, hw⟩ hs
  exact hw.step hs

/-! ## The way out -/

/-- The halves of a long beat that have bytes. -/
def narrow (t : TLPData) : List TLPData8 := (halves (split t)).filter TLPData8.isValid

/-- The halves `done` of the long beats have been looked at. -/
structure Narrowed {c : GearboxConfig} (tr : List PcieGearbox.Event) (s : PcieGearbox c) (done : List TLPData8) :
    Prop where
  taken : (PcieGearbox.longIn tr).flatMap (fun t => halves (split t)) = done ++ s.fifoTxData.items
  out : PcieGearbox.shortOut tr ++ s.outFifo.items = done.filter TLPData8.isValid

namespace Narrowed

open PcieGearbox

variable {c : GearboxConfig} {tr es : List Event} {s s' : PcieGearbox c} {done : List TLPData8}

lemma reset (c : GearboxConfig) : Narrowed [] (PcieGearbox.reset c) [] := ⟨rfl, rfl⟩

/-- A step of the other direction. -/
lemma frame (h : Narrowed tr s done) (hin : longIn es = []) (hout : shortOut es = [])
    (htx : s'.fifoTxData = s.fifoTxData) (hfifo : s'.outFifo = s.outFifo) : Narrowed (tr ++ es) s' done := by
  constructor
  · rw [longIn_append, hin, List.append_nil, htx]
    exact h.taken
  · rw [shortOut_append, hout, List.append_nil, hfifo]
    exact h.out

/-- A beat comes from the design. -/
lemma pciRequest (h : Narrowed tr s done) {t : TLPData} (hs : s.pciRequest t = some s') :
    Narrowed (tr ++ [PcieGearbox.Event.pciRequest t]) s' done := by
  obtain ⟨q, hq, hs⟩ := Option.bind_eq_some_iff.mp hs
  cases hs
  obtain ⟨-, hitems⟩ := Fifo.enqN_eq_some.mp hq
  have hone : longIn [.pciRequest t] = [t] := rfl
  constructor
  · rw [longIn_append, hone, List.flatMap_append, h.taken, hitems, List.append_assoc]
    rfl
  · rw [shortOut_append]
    simpa using h.out

/-- A half goes to the endpoint or is dropped. -/
lemma processOutgoing (h : Narrowed tr s done) (hs : s.processOutgoingPackets = some s') :
    ∃ done', Narrowed tr s' done' := by
  obtain ⟨⟨t, q⟩, hq, hs⟩ := Option.bind_eq_some_iff.mp hs
  obtain ⟨r, hr, hs⟩ := Option.bind_eq_some_iff.mp hs
  cases hs
  have hitems := Fifo.deq_eq_some.mp hq
  obtain ⟨-, hout⟩ := Fifo.enqIf_eq_some.mp hr
  refine ⟨done ++ [t], ?_, ?_⟩
  · rw [h.taken, hitems, List.append_assoc]
    rfl
  · rw [hout, ← List.append_assoc, h.out, List.filter_append]
    congr 1
    show (if t.isValid then [t] else []) = _
    cases ht : t.isValid with
    | true => simp [ht]
    | false => simp [ht]

/-- A beat goes to the endpoint. -/
lemma tlpRequest (h : Narrowed tr s done) {t : TLPData8} (hs : s.tlpRequest = some (t, s')) :
    Narrowed (tr ++ [PcieGearbox.Event.tlpRequest t]) s' done := by
  obtain ⟨⟨t', q⟩, hq, hs⟩ := Option.bind_eq_some_iff.mp hs
  cases hs
  have hitems := Fifo.deq_eq_some.mp hq
  constructor
  · rw [longIn_append]
    simpa using h.taken
  · rw [← h.out, hitems]
    simp

/-- Every step. -/
lemma step (h : Narrowed tr s done) {a : Action} (hs : (pcieGearbox c).step s a = some (s', es)) :
    ∃ done', Narrowed (tr ++ es) s' done' := by
  cases a with
  | tlpResponse t =>
    obtain ⟨s₁, hs₁, hs⟩ := Option.bind_eq_some_iff.mp hs
    cases hs
    obtain ⟨q, -, hs₁⟩ := Option.bind_eq_some_iff.mp hs₁
    cases hs₁
    exact ⟨done, h.frame rfl rfl rfl rfl⟩
  | processIncomingPackets1 =>
    obtain ⟨s₁, hs₁, hs⟩ := Option.bind_eq_some_iff.mp hs
    cases hs
    unfold processIncomingPackets1 at hs₁
    split at hs₁
    · cases hs₁
    · obtain ⟨⟨t, q⟩, -, hs₁⟩ := Option.bind_eq_some_iff.mp hs₁
      obtain ⟨r, -, hs₁⟩ := Option.bind_eq_some_iff.mp hs₁
      cases hs₁
      exact ⟨done, h.frame rfl rfl rfl rfl⟩
  | sendInvalidPackets1 =>
    obtain ⟨s₁, hs₁, hs⟩ := Option.bind_eq_some_iff.mp hs
    cases hs
    unfold sendInvalidPackets1 at hs₁
    split at hs₁
    · obtain ⟨r, -, hs₁⟩ := Option.bind_eq_some_iff.mp hs₁
      cases hs₁
      exact ⟨done, h.frame rfl rfl rfl rfl⟩
    · cases hs₁
  | pciResponse =>
    obtain ⟨⟨t, s₁⟩, hs₁, hs⟩ := Option.bind_eq_some_iff.mp hs
    cases hs
    obtain ⟨⟨v₀, q⟩, -, hs₁⟩ := Option.bind_eq_some_iff.mp hs₁
    obtain ⟨⟨v₁, r⟩, -, hs₁⟩ := Option.bind_eq_some_iff.mp hs₁
    cases hs₁
    exact ⟨done, h.frame rfl rfl rfl rfl⟩
  | pciRequest t =>
    obtain ⟨s₁, hs₁, hs⟩ := Option.bind_eq_some_iff.mp hs
    cases hs
    exact ⟨done, h.pciRequest hs₁⟩
  | processOutgoingPackets =>
    obtain ⟨s₁, hs₁, hs⟩ := Option.bind_eq_some_iff.mp hs
    cases hs
    rw [List.append_nil]
    exact h.processOutgoing hs₁
  | tlpRequest =>
    obtain ⟨⟨t, s₁⟩, hs₁, hs⟩ := Option.bind_eq_some_iff.mp hs
    cases hs
    exact ⟨done, h.tlpRequest hs₁⟩

/-- What has gone to the endpoint are the halves of the long beats that have bytes. -/
lemma out_prefix (h : Narrowed tr s done) : shortOut tr ++ s.outFifo.items <+: (longIn tr).flatMap narrow := by
  have hall : (longIn tr).flatMap narrow = ((longIn tr).flatMap fun t => halves (split t)).filter TLPData8.isValid := by
    rw [List.filter_flatMap]
    rfl
  rw [hall, h.taken, h.out, List.filter_append]
  exact List.prefix_append _ _

end Narrowed

/-- The invariant of the way out holds in every run. -/
lemma exists_narrowed {c : GearboxConfig} {tr : List PcieGearbox.Event} {s : PcieGearbox c}
    (h : (pcieGearbox c).Reaches (.reset c) tr s) : ∃ done, Narrowed tr s done := by
  have hreset : ∃ done, Narrowed [] (PcieGearbox.reset c) done := ⟨[], .reset c⟩
  refine h.invariant (I := fun tr (s : PcieGearbox c) => ∃ done, Narrowed tr s done) hreset ?_
  rintro tr s a s' es ⟨done, hn⟩ hs
  exact hn.step hs

end Xbsv
