import Xbsv.Dma.Burst
import Xbsv.Dma.FrontEnd

set_option relaxedAutoImplicit false
set_option autoImplicit false

/-!
# The read module

`mkMemReadInternal` of `MemServerInternal.bsv`, behind the common front end: the memory takes
translated requests (`readReq`) and puts beats of data (`readData`); each beat is matched with the
oldest request of its tag, and `burstRegs`, `firstRegs` and `lastRegs` keep the position inside
that request's burst. The two `dynamicAssert`s of the source are evaluated and their outcomes are
part of the event of the rule.

The width of a beat is given in bytes: the provisos of the source say that the data width is a
multiple of 8. The performance counters that nothing reads (`cycle_cnt`, `last_eob`) are left out.

## Main definitions

* `Xbsv.MemRead` — the state of the module.
* `Xbsv.MemRead.step` — one rule or method, over the state of the address server and its own.
* `Xbsv.memRead` — the module as a rule system.

## Main results

* `Xbsv.MemRead.Fires`, `Xbsv.MemRead.fires_of_step` — everything a step can do.
-/

namespace Xbsv

open Rules SGList

/-- `DmaErrorBadPointer4`, the error reported by `loadClient` of the read module. -/
abbrev readError : DmaErrorType := .badPointer4

/-- The state of `mkMemReadInternal`. -/
structure MemRead (τ : Type) (numClients numTags addrWidth dataWidthBytes : ℕ) where
  front : FrontEnd τ numClients numTags addrWidth
  dreqFifos : Fin numTags → Fifo tagDepth (DRec numClients numTags)
  readDataPipelineFifo : Fifo 2 (DRec numClients numTags × ObjectData (dataWidthBytes * 8))
  responseFifo : Fifo 2 (ObjectData (dataWidthBytes * 8))
  burstRegs : Fin numTags → BitVec 8
  firstRegs : Fin numTags → Bool
  lastRegs : Fin numTags → Bool
  beatCount : BitVec 64

namespace MemRead

variable {σ τ κ ε : Type} {numClients numTags addrWidth dataWidthBytes : ℕ}

/-- The state after reset, the tag generator being in state `g`. -/
def reset (g : τ) : MemRead τ numClients numTags addrWidth dataWidthBytes where
  front := .reset g
  dreqFifos _ := .empty
  readDataPipelineFifo := .empty
  responseFifo := .empty
  burstRegs _ := 0
  firstRegs _ := true
  lastRegs _ := false
  beatCount := 0

/-- Rules and methods of the module. -/
inductive Action (κ : Type) (numClients dataWidthBytes : ℕ)
  | front (a : FrontEnd.Action κ numClients)
  | readReq
  | readData (d : ObjectData (dataWidthBytes * 8))
  | readClientResponse
  | readDataComp
  deriving DecidableEq, Repr

/-- What the module makes visible. `readReq` shows the record that a request to the memory was
made from, `response` the outcomes of the two assertions for a beat of the memory, and `deliver`
such a beat with the client that got it and with what the client got. -/
inductive Event (ε : Type) (numClients numTags addrWidth dataWidthBytes : ℕ)
  | front (e : FrontEnd.Event ε numClients numTags addrWidth)
  | readReq (r : RRec numClients numTags addrWidth) (m : MemRequest addrWidth)
  | readData (d : ObjectData (dataWidthBytes * 8))
  | response (d : ObjectData (dataWidthBytes * 8)) (tagOk lastOk : Bool)
  | returnTag (t : Fin numTags)
  | deliver (beat : ObjectData (dataWidthBytes * 8)) (client : Fin numClients)
      (d : ObjectData (dataWidthBytes * 8))
  deriving DecidableEq, Repr

/-- The `DRec` that `readReq` queues. -/
def toDRec (dataWidthBytes : ℕ) (r : RRec numClients numTags addrWidth) :
    DRec numClients numTags :=
  ⟨r.req, r.renameTag, r.client, r.req.burstLen == BitVec.ofNat 8 dataWidthBytes⟩

variable (sgl : Server σ ReqTup (BitVec addrWidth)) (tg : TagGen τ κ ε numClients numTags)

/-- Method `read_client.readReq.get`. -/
def readReq (s : MemRead τ numClients numTags addrWidth dataWidthBytes) :
    Option (MemRead τ numClients numTags addrWidth dataWidthBytes ×
      List (Event ε numClients numTags addrWidth dataWidthBytes)) := do
  let (r, reqFifo) ← s.front.reqFifo.deq
  let dreqFifo ← (s.dreqFifos r.renameTag).enq (toDRec dataWidthBytes r)
  return ({ s with
      front := { s.front with reqFifo }
      dreqFifos := Function.update s.dreqFifos r.renameTag dreqFifo },
    [.readReq r r.memRequest])

/-- The count of the current burst of a tag before a beat arrives: taken from the request on the
first beat, else from the register. -/
def burstLen (s : MemRead τ numClients numTags addrWidth dataWidthBytes) (t : Fin numTags)
    (drq : DRec numClients numTags) : BitVec 8 :=
  if s.firstRegs t then drq.req.burstLen >>> beatShift dataWidthBytes else s.burstRegs t

/-- Whether a beat is taken for the last one of its burst. -/
def isLast (s : MemRead τ numClients numTags addrWidth dataWidthBytes) (t : Fin numTags)
    (drq : DRec numClients numTags) : Bool :=
  if s.firstRegs t then drq.last else s.lastRegs t

/-- The outcome of the assertion on the tag. -/
def tagOk (d : ObjectData (dataWidthBytes * 8)) (drq : DRec numClients numTags) : Bool :=
  d.tag.setWidth (tlog numTags) == BitVec.ofNat (tlog numTags) drq.renameTag

/-- The outcome of the assertion on the last beat, which is made on the first beat of a burst. -/
def lastOk (s : MemRead τ numClients numTags addrWidth dataWidthBytes) (t : Fin numTags)
    (drq : DRec numClients numTags) : Bool :=
  !s.firstRegs t || s.isLast t drq == (s.burstLen t drq == 1)

/-- The registers and the pipeline queue after a beat of tag `t`. -/
def afterBeat (s : MemRead τ numClients numTags addrWidth dataWidthBytes) (t : Fin numTags)
    (drq : DRec numClients numTags) (responses : Fifo 2 (ObjectData (dataWidthBytes * 8)))
    (pipe : Fifo 2 (DRec numClients numTags × ObjectData (dataWidthBytes * 8))) :
    MemRead τ numClients numTags addrWidth dataWidthBytes :=
  { s with
    responseFifo := responses
    readDataPipelineFifo := pipe
    burstRegs := Function.update s.burstRegs t (s.burstLen t drq - 1)
    firstRegs := Function.update s.firstRegs t (s.burstLen t drq - 1 == 0)
    lastRegs := Function.update s.lastRegs t (s.burstLen t drq - 1 == 1) }

/-- Rule `read_client_response`. -/
def readClientResponse (s : MemRead τ numClients numTags addrWidth dataWidthBytes) :
    Option (MemRead τ numClients numTags addrWidth dataWidthBytes ×
      List (Event ε numClients numTags addrWidth dataWidthBytes)) := do
  let (response, responseFifo) ← s.responseFifo.deq
  let t ← tagIndex numTags response.tag
  let drq ← (s.dreqFifos t).first
  let readDataPipelineFifo ← s.readDataPipelineFifo.enq (drq, response)
  let s' := s.afterBeat t drq responseFifo readDataPipelineFifo
  if s.isLast t drq then
    let (_, dreqFifo) ← (s.dreqFifos t).deq
    let tagGen ← tg.returnTag s.front.tagGen t
    return ({ s' with
        front := { s.front with tagGen }
        dreqFifos := Function.update s.dreqFifos t dreqFifo },
      [.response response (tagOk response drq) (s.lastOk t drq), .returnTag t])
  else
    return (s', [.response response (tagOk response drq) (s.lastOk t drq)])

/-- Rule `readDataComp`: deliver a beat to the client that it belongs to, under the tag of the
client's request. -/
def readDataComp (s : MemRead τ numClients numTags addrWidth dataWidthBytes) :
    Option (MemRead τ numClients numTags addrWidth dataWidthBytes ×
      List (Event ε numClients numTags addrWidth dataWidthBytes)) := do
  let ((drq, response), readDataPipelineFifo) ← s.readDataPipelineFifo.deq
  return ({ s with readDataPipelineFifo, beatCount := s.beatCount + 1 },
    [.deliver response drq.client ⟨response.data, drq.req.tag, false⟩])

/-- One rule or method of the module; the first component is the state of the address server. -/
def step (p : σ × MemRead τ numClients numTags addrWidth dataWidthBytes) :
    Action κ numClients dataWidthBytes →
      Option ((σ × MemRead τ numClients numTags addrWidth dataWidthBytes) ×
        List (Event ε numClients numTags addrWidth dataWidthBytes))
  | .front a => do
    let (w, front, es) ← FrontEnd.step sgl tg readError p.1 p.2.front a
    return ((w, { p.2 with front }), es.map .front)
  | .readReq => do
    let (s', es) ← p.2.readReq
    return ((p.1, s'), es)
  | .readData d => do
    let responseFifo ← p.2.responseFifo.enq d
    return ((p.1, { p.2 with responseFifo }), [.readData d])
  | .readClientResponse => do
    let (s', es) ← p.2.readClientResponse tg
    return ((p.1, s'), es)
  | .readDataComp => do
    let (s', es) ← p.2.readDataComp
    return ((p.1, s'), es)

/-! ## What a step does -/

/-- A rule or method takes `(w, s)` to `(w', s')` and makes `es` visible. One constructor for each
way through a rule, with the guards that held. -/
inductive Fires (w : σ) (s : MemRead τ numClients numTags addrWidth dataWidthBytes) :
    Action κ numClients dataWidthBytes → σ →
      MemRead τ numClients numTags addrWidth dataWidthBytes →
      List (Event ε numClients numTags addrWidth dataWidthBytes) → Prop
  | front {a : FrontEnd.Action κ numClients} {w' : σ}
      {front : FrontEnd τ numClients numTags addrWidth}
      {es : List (FrontEnd.Event ε numClients numTags addrWidth)}
      (fires : FrontEnd.Fires sgl tg readError w s.front a w' front es) :
      Fires w s (.front a) w' { s with front := front } (es.map .front)
  | readReq {r : RRec numClients numTags addrWidth}
      {reqs : Fifo 2 (RRec numClients numTags addrWidth)}
      {dreqs : Fifo tagDepth (DRec numClients numTags)}
      (deq : s.front.reqFifo.items = r :: reqs.items)
      (enq : dreqs.items = (s.dreqFifos r.renameTag).items ++ [toDRec dataWidthBytes r]) :
      Fires w s .readReq w
        { s with
          front := { s.front with reqFifo := reqs }
          dreqFifos := Function.update s.dreqFifos r.renameTag dreqs }
        [.readReq r r.memRequest]
  | readData {d : ObjectData (dataWidthBytes * 8)}
      {responses : Fifo 2 (ObjectData (dataWidthBytes * 8))}
      (enq : responses.items = s.responseFifo.items ++ [d]) :
      Fires w s (.readData d) w { s with responseFifo := responses } [.readData d]
  | beat {d : ObjectData (dataWidthBytes * 8)} {t : Fin numTags} {drq : DRec numClients numTags}
      {responses : Fifo 2 (ObjectData (dataWidthBytes * 8))} {rest : List (DRec numClients numTags)}
      {pipe : Fifo 2 (DRec numClients numTags × ObjectData (dataWidthBytes * 8))}
      (deq : s.responseFifo.items = d :: responses.items)
      (index : tagIndex numTags d.tag = some t)
      (first : (s.dreqFifos t).items = drq :: rest)
      (enq : pipe.items = s.readDataPipelineFifo.items ++ [(drq, d)])
      (last : s.isLast t drq = false) :
      Fires w s .readClientResponse w (s.afterBeat t drq responses pipe)
        [.response d (tagOk d drq) (s.lastOk t drq)]
  | lastBeat {d : ObjectData (dataWidthBytes * 8)} {t : Fin numTags}
      {drq : DRec numClients numTags}
      {responses : Fifo 2 (ObjectData (dataWidthBytes * 8))}
      {dreqs : Fifo tagDepth (DRec numClients numTags)} {g : τ}
      {pipe : Fifo 2 (DRec numClients numTags × ObjectData (dataWidthBytes * 8))}
      (deq : s.responseFifo.items = d :: responses.items)
      (index : tagIndex numTags d.tag = some t)
      (first : (s.dreqFifos t).items = drq :: dreqs.items)
      (enq : pipe.items = s.readDataPipelineFifo.items ++ [(drq, d)])
      (last : s.isLast t drq = true)
      (ret : tg.returnTag s.front.tagGen t = some g) :
      Fires w s .readClientResponse w
        { s.afterBeat t drq responses pipe with
          front := { s.front with tagGen := g }
          dreqFifos := Function.update s.dreqFifos t dreqs }
        [.response d (tagOk d drq) (s.lastOk t drq), .returnTag t]
  | deliver {d : ObjectData (dataWidthBytes * 8)} {drq : DRec numClients numTags}
      {pipe : Fifo 2 (DRec numClients numTags × ObjectData (dataWidthBytes * 8))}
      (deq : s.readDataPipelineFifo.items = (drq, d) :: pipe.items) :
      Fires w s .readDataComp w
        { s with
          readDataPipelineFifo := pipe
          beatCount := s.beatCount + 1 }
        [.deliver d drq.client ⟨d.data, drq.req.tag, false⟩]

variable {sgl tg}

/-- A step of the module is one of the firings listed. -/
theorem fires_of_step {w w' : σ} {s s' : MemRead τ numClients numTags addrWidth dataWidthBytes}
    {a : Action κ numClients dataWidthBytes}
    {es : List (Event ε numClients numTags addrWidth dataWidthBytes)}
    (h : step sgl tg (w, s) a = some ((w', s'), es)) : Fires sgl tg w s a w' s' es := by
  cases a with
  | front a =>
    simp only [step, bind, pure, Option.bind_eq_some_iff, Prod.exists, Option.some.injEq,
      Prod.mk.injEq] at h
    obtain ⟨w₁, front, es₁, hs, ⟨rfl, rfl⟩, rfl⟩ := h
    exact .front (FrontEnd.fires_of_step hs)
  | readReq =>
    simp only [step, readReq, bind, pure, Option.bind_eq_some_iff, Prod.exists,
      Fifo.deq_eq_some, Fifo.enq_eq_some, Option.some.injEq, Prod.mk.injEq] at h
    obtain ⟨s₁, es₁, ⟨r, reqs, hd, dreqs, ⟨-, he⟩, rfl, rfl⟩, ⟨rfl, rfl⟩, rfl⟩ := h
    exact .readReq hd he
  | readData d =>
    simp only [step, bind, pure, Option.bind_eq_some_iff, Fifo.enq_eq_some, Option.some.injEq,
      Prod.mk.injEq] at h
    obtain ⟨responses, ⟨-, he⟩, ⟨rfl, rfl⟩, rfl⟩ := h
    exact .readData he
  | readClientResponse =>
    simp only [step, readClientResponse, bind, pure, Option.bind_eq_some_iff, Prod.exists,
      Fifo.deq_eq_some, Fifo.enq_eq_some, Fifo.first_eq_some, Option.some.injEq,
      Prod.mk.injEq] at h
    obtain ⟨s₁, es₁, ⟨d, responses, hd, t, ht, drq, ⟨rest, hf⟩, pipe, ⟨-, he⟩, hs⟩, ⟨rfl, rfl⟩,
      rfl⟩ := h
    by_cases hl : s.isLast t drq = true
    · rw [if_pos hl] at hs
      simp only [Option.bind_eq_some_iff, Prod.exists, Fifo.deq_eq_some, Option.some.injEq,
        Prod.mk.injEq] at hs
      obtain ⟨drq', dreqs, hf', g, hg, rfl, rfl⟩ := hs
      obtain ⟨rfl, -⟩ := List.cons.inj (hf.symm.trans hf')
      exact .lastBeat hd ht hf' he hl hg
    · rw [if_neg hl] at hs
      simp only [Option.some.injEq, Prod.mk.injEq] at hs
      obtain ⟨rfl, rfl⟩ := hs
      exact .beat hd ht hf he (by simpa using hl)
  | readDataComp =>
    simp only [step, readDataComp, bind, pure, Option.bind_eq_some_iff, Prod.exists,
      Fifo.deq_eq_some, Option.some.injEq, Prod.mk.injEq] at h
    obtain ⟨s₁, es₁, ⟨drq, d, pipe, hd, rfl, rfl⟩, ⟨rfl, rfl⟩, rfl⟩ := h
    exact .deliver hd

/-- What a firing does to the front end: it is a firing of the front end, or it shows no event of the
front end and lets requests out of `reqFifo` at most, those it hands to the memory. -/
lemma Fires.front_cases {w w' : σ} {s s' : MemRead τ numClients numTags addrWidth dataWidthBytes}
    {a : Action κ numClients dataWidthBytes}
    {es : List (Event ε numClients numTags addrWidth dataWidthBytes)}
    (h : Fires sgl tg w s a w' s' es) :
    (∃ b fs, FrontEnd.Fires sgl tg readError w s.front b w' s'.front fs ∧ es = fs.map .front) ∨
    ((∀ e, .front e ∉ es) ∧ s'.front.lreqFifo = s.front.lreqFifo ∧
      s'.front.reqFifo.items ⊆ s.front.reqFifo.items ∧
      ∀ r m, .readReq r m ∈ es → r ∈ s.front.reqFifo.items) := by
  cases h with
  | front fires => exact .inl ⟨_, _, fires, rfl⟩
  | @readReq r reqs dreqs deq enq =>
    refine .inr ⟨by simp, rfl, ?_, ?_⟩
    · rw [deq]
      exact List.subset_cons_self r reqs.items
    · intro r' m hmem
      obtain ⟨rfl, -⟩ : r' = r ∧ m = r.memRequest := by simpa using hmem
      rw [deq]
      exact List.mem_cons_self
  | readData enq => exact .inr ⟨by simp, rfl, List.Subset.refl _, by simp⟩
  | beat deq index first enq last => exact .inr ⟨by simp, rfl, List.Subset.refl _, by simp⟩
  | lastBeat deq index first enq last ret =>
    exact .inr ⟨by simp, rfl, List.Subset.refl _, by simp⟩
  | deliver deq => exact .inr ⟨by simp, rfl, List.Subset.refl _, by simp⟩

end MemRead

/-- `mkMemReadInternal`, over the state of its address server and its own. -/
def memRead {σ τ κ ε : Type} {numClients numTags addrWidth : ℕ} (dataWidthBytes : ℕ)
    (sgl : Server σ ReqTup (BitVec addrWidth)) (tg : TagGen τ κ ε numClients numTags) :
    RuleSystem (σ × MemRead τ numClients numTags addrWidth dataWidthBytes)
      (MemRead.Action κ numClients dataWidthBytes)
      (MemRead.Event ε numClients numTags addrWidth dataWidthBytes) :=
  ⟨MemRead.step sgl tg⟩

end Xbsv
