import Xbsv.Dma.Burst
import Xbsv.Dma.FrontEnd

set_option relaxedAutoImplicit false
set_option autoImplicit false

/-!
# The write module

`mkMemWriteInternal` of `MemServerInternal.bsv`, behind the common front end: the memory takes
translated requests (`writeReq`) and then their data (`writeData`), one beat after the other in the
order of the requests, and acknowledges each request under its tag (`writeDone`). One register,
`burstReg`, counts the beats of the current request; zero means that no request is under way.

The data of a client is a stream of beats that the module takes one by one. The streams are a
parameter, and `taken` is the position reached in each of them; it is state of the clients and not
of the module. When a client has no data ready `writeData` is not taken, as with every method that
is not called.

## Main definitions

* `Xbsv.MemWrite` — the state of the module.
* `Xbsv.MemWrite.step` — one rule or method, over the state of the address server and its own.
* `Xbsv.memWrite` — the module as a rule system.

## Main results

* `Xbsv.MemWrite.Fires`, `Xbsv.MemWrite.fires_of_step` — everything a step can do.
-/

namespace Xbsv

open Rules SGList

/-- `DmaErrorBadPointer5`, the error reported by `loadClient` of the write module. -/
abbrev writeError : DmaErrorType := .badPointer5

/-- The state of `mkMemWriteInternal`, and the position in the data stream of each client. -/
structure MemWrite (τ : Type) (numClients numTags addrWidth : ℕ) where
  front : FrontEnd τ numClients numTags addrWidth
  dreqFifo : Fifo (tagDepth * numTags) (DRec numClients numTags)
  respFifos : Fin numTags → Fifo tagDepth (RResp numClients)
  writeDonePipelineFifo : Fifo 2 (RResp numClients × BitVec 6)
  burstReg : BitVec 8
  beatCount : BitVec 64
  taken : Fin numClients → ℕ

namespace MemWrite

variable {σ τ κ ε : Type} {numClients numTags addrWidth dataWidthBytes : ℕ}

/-- The state after reset, the tag generator being in state `g`. -/
def reset (g : τ) : MemWrite τ numClients numTags addrWidth where
  front := .reset g
  dreqFifo := .empty
  respFifos _ := .empty
  writeDonePipelineFifo := .empty
  burstReg := 0
  beatCount := 0
  taken _ := 0

/-- Rules and methods of the module. -/
inductive Action (κ : Type) (numClients : ℕ)
  | front (a : FrontEnd.Action κ numClients)
  | writeReq
  | writeData
  | writeDone (resp : BitVec 6)
  | writeDoneComp
  deriving DecidableEq, Repr

/-- What the module makes visible. `writeReq` shows the record that a request to the memory was
made from, `writeData` a beat that the memory got together with the client and the position it was
taken from, and `acknowledge` the acknowledgement that a client got, with the tag of the memory's. -/
inductive Event (ε : Type) (numClients numTags addrWidth dataWidthBytes : ℕ)
  | front (e : FrontEnd.Event ε numClients numTags addrWidth)
  | writeReq (r : RRec numClients numTags addrWidth) (m : MemRequest addrWidth)
  | writeData (client : Fin numClients) (position : ℕ) (d : ObjectData (dataWidthBytes * 8))
  | writeDone (resp : BitVec 6)
  | acknowledge (resp : BitVec 6) (client : Fin numClients) (origTag : BitVec 6)
  | returnTag (t : Fin numTags)
  deriving DecidableEq, Repr

/-- The `DRec` that `writeReq` queues; `last` is not used. -/
def toDRec (r : RRec numClients numTags addrWidth) : DRec numClients numTags :=
  ⟨r.req, r.renameTag, r.client, false⟩

/-- The `RResp` that waits for the acknowledgement of a request. -/
def toRResp (d : DRec numClients numTags) : RResp numClients := ⟨d.req.tag, d.client⟩

variable (sgl : Server σ ReqTup (BitVec addrWidth)) (tg : TagGen τ κ ε numClients numTags)
  (stream : Fin numClients → ℕ → ObjectData (dataWidthBytes * 8))

/-- Method `write_client.writeReq.get`. -/
def writeReq (s : MemWrite τ numClients numTags addrWidth) :
    Option (MemWrite τ numClients numTags addrWidth ×
      List (Event ε numClients numTags addrWidth dataWidthBytes)) := do
  let (r, reqFifo) ← s.front.reqFifo.deq
  let dreqFifo ← s.dreqFifo.enq (toDRec r)
  return ({ s with
      front := { s.front with reqFifo }
      dreqFifo },
    [.writeReq r r.memRequest])

/-- The count of the current burst before a beat: taken from the request when the register is
zero. -/
def burstLen (dataWidthBytes : ℕ) (s : MemWrite τ numClients numTags addrWidth)
    (drq : DRec numClients numTags) : BitVec 8 :=
  if s.burstReg = 0 then drq.req.burstLen >>> beatShift dataWidthBytes else s.burstReg

/-- On the first beat of a burst, queue what waits for the acknowledgement. -/
def beginBurst (s : MemWrite τ numClients numTags addrWidth) (drq : DRec numClients numTags) :
    Option (Fin numTags → Fifo tagDepth (RResp numClients)) :=
  if s.burstReg = 0 then
    ((s.respFifos drq.renameTag).enq (toRResp drq)).map (Function.update s.respFifos drq.renameTag)
  else some s.respFifos

/-- On the last beat of a burst, remove its request. -/
def endBurst (s : MemWrite τ numClients numTags addrWidth) (burstLen : BitVec 8) :
    Option (Fifo (tagDepth * numTags) (DRec numClients numTags)) :=
  if burstLen = 1 then s.dreqFifo.deq.map Prod.snd else some s.dreqFifo

/-- The state after a beat of the oldest request `drq`. -/
def afterBeat (dataWidthBytes : ℕ) (s : MemWrite τ numClients numTags addrWidth)
    (drq : DRec numClients numTags) (resps : Fin numTags → Fifo tagDepth (RResp numClients))
    (dreqs : Fifo (tagDepth * numTags) (DRec numClients numTags)) :
    MemWrite τ numClients numTags addrWidth :=
  { s with
    respFifos := resps
    dreqFifo := dreqs
    burstReg := s.burstLen dataWidthBytes drq - 1
    beatCount := s.beatCount + 1
    taken := Function.update s.taken drq.client (s.taken drq.client + 1) }

/-- Method `write_client.writeData.get`: the next beat of the client of the oldest request. -/
def writeData (s : MemWrite τ numClients numTags addrWidth) :
    Option (MemWrite τ numClients numTags addrWidth ×
      List (Event ε numClients numTags addrWidth dataWidthBytes)) := do
  let drq ← s.dreqFifo.first
  let position := s.taken drq.client
  let tagdata := stream drq.client position
  let respFifos ← s.beginBurst drq
  let dreqFifo ← s.endBurst (s.burstLen dataWidthBytes drq)
  return (s.afterBeat dataWidthBytes drq respFifos dreqFifo,
    [.writeData drq.client position ⟨tagdata.data, memTag drq.renameTag, false⟩])

/-- Method `write_client.writeDone.put`. -/
def writeDone (s : MemWrite τ numClients numTags addrWidth) (resp : BitVec 6) :
    Option (MemWrite τ numClients numTags addrWidth ×
      List (Event ε numClients numTags addrWidth dataWidthBytes)) := do
  let t ← tagIndex numTags resp
  let (rresp, respFifo) ← (s.respFifos t).deq
  let writeDonePipelineFifo ← s.writeDonePipelineFifo.enq (rresp, resp)
  return ({ s with
      writeDonePipelineFifo
      respFifos := Function.update s.respFifos t respFifo },
    [.writeDone resp])

/-- Rule `writeDoneComp`: acknowledge to the client, and return the tag. -/
def writeDoneComp (s : MemWrite τ numClients numTags addrWidth) :
    Option (MemWrite τ numClients numTags addrWidth ×
      List (Event ε numClients numTags addrWidth dataWidthBytes)) := do
  let ((rresp, resp), writeDonePipelineFifo) ← s.writeDonePipelineFifo.deq
  let t ← tagIndex numTags resp
  let tagGen ← tg.returnTag s.front.tagGen t
  return ({ s with
      writeDonePipelineFifo
      front := { s.front with tagGen } },
    [.acknowledge resp rresp.client rresp.origTag, .returnTag t])

/-- One rule or method of the module; the first component is the state of the address server. -/
def step (p : σ × MemWrite τ numClients numTags addrWidth) :
    Action κ numClients →
      Option ((σ × MemWrite τ numClients numTags addrWidth) ×
        List (Event ε numClients numTags addrWidth dataWidthBytes))
  | .front a => do
    let (w, front, es) ← FrontEnd.step sgl tg writeError p.1 p.2.front a
    return ((w, { p.2 with front }), es.map .front)
  | .writeReq => do
    let (s', es) ← p.2.writeReq
    return ((p.1, s'), es)
  | .writeData => do
    let (s', es) ← p.2.writeData stream
    return ((p.1, s'), es)
  | .writeDone resp => do
    let (s', es) ← p.2.writeDone resp
    return ((p.1, s'), es)
  | .writeDoneComp => do
    let (s', es) ← p.2.writeDoneComp tg
    return ((p.1, s'), es)

/-! ## What a step does -/

/-- A rule or method takes `(w, s)` to `(w', s')` and makes `es` visible. One constructor for each
rule, with the guards that held. -/
inductive Fires (w : σ) (s : MemWrite τ numClients numTags addrWidth) :
    Action κ numClients → σ → MemWrite τ numClients numTags addrWidth →
      List (Event ε numClients numTags addrWidth dataWidthBytes) → Prop
  | front {a : FrontEnd.Action κ numClients} {w' : σ}
      {front : FrontEnd τ numClients numTags addrWidth}
      {es : List (FrontEnd.Event ε numClients numTags addrWidth)}
      (fires : FrontEnd.Fires sgl tg writeError w s.front a w' front es) :
      Fires w s (.front a) w' { s with front := front } (es.map .front)
  | writeReq {r : RRec numClients numTags addrWidth}
      {reqs : Fifo 2 (RRec numClients numTags addrWidth)}
      {dreqs : Fifo (tagDepth * numTags) (DRec numClients numTags)}
      (deq : s.front.reqFifo.items = r :: reqs.items)
      (enq : dreqs.items = s.dreqFifo.items ++ [toDRec r]) :
      Fires w s .writeReq w
        { s with
          front := { s.front with reqFifo := reqs }
          dreqFifo := dreqs }
        [.writeReq r r.memRequest]
  | writeData {drq : DRec numClients numTags} {rest : List (DRec numClients numTags)}
      {resps : Fin numTags → Fifo tagDepth (RResp numClients)}
      {dreqs : Fifo (tagDepth * numTags) (DRec numClients numTags)}
      (first : s.dreqFifo.items = drq :: rest)
      (resp : ∀ t, (resps t).items = (s.respFifos t).items ++
        if s.burstReg = 0 ∧ drq.renameTag = t then [toRResp drq] else [])
      (deq : dreqs.items = if s.burstLen dataWidthBytes drq = 1 then rest else drq :: rest) :
      Fires w s .writeData w (s.afterBeat dataWidthBytes drq resps dreqs)
        [.writeData drq.client (s.taken drq.client)
          ⟨(stream drq.client (s.taken drq.client)).data, memTag drq.renameTag, false⟩]
  | writeDone {resp : BitVec 6} {t : Fin numTags} {rresp : RResp numClients}
      {resps : Fifo tagDepth (RResp numClients)} {pipe : Fifo 2 (RResp numClients × BitVec 6)}
      (index : tagIndex numTags resp = some t)
      (deq : (s.respFifos t).items = rresp :: resps.items)
      (enq : pipe.items = s.writeDonePipelineFifo.items ++ [(rresp, resp)]) :
      Fires w s (.writeDone resp) w
        { s with
          writeDonePipelineFifo := pipe
          respFifos := Function.update s.respFifos t resps }
        [.writeDone resp]
  | writeDoneComp {resp : BitVec 6} {t : Fin numTags} {rresp : RResp numClients}
      {pipe : Fifo 2 (RResp numClients × BitVec 6)} {g : τ}
      (deq : s.writeDonePipelineFifo.items = (rresp, resp) :: pipe.items)
      (index : tagIndex numTags resp = some t)
      (ret : tg.returnTag s.front.tagGen t = some g) :
      Fires w s .writeDoneComp w
        { s with
          writeDonePipelineFifo := pipe
          front := { s.front with tagGen := g } }
        [.acknowledge resp rresp.client rresp.origTag, .returnTag t]

variable {sgl tg stream}

/-- A step of the module is one of the firings listed. -/
theorem fires_of_step {w w' : σ} {s s' : MemWrite τ numClients numTags addrWidth}
    {a : Action κ numClients} {es : List (Event ε numClients numTags addrWidth dataWidthBytes)}
    (h : step sgl tg stream (w, s) a = some ((w', s'), es)) :
    Fires sgl tg stream w s a w' s' es := by
  cases a with
  | front a =>
    simp only [step, bind, pure, Option.bind_eq_some_iff, Prod.exists, Option.some.injEq,
      Prod.mk.injEq] at h
    obtain ⟨w₁, front, es₁, hs, ⟨rfl, rfl⟩, rfl⟩ := h
    exact .front (FrontEnd.fires_of_step hs)
  | writeReq =>
    simp only [step, writeReq, bind, pure, Option.bind_eq_some_iff, Prod.exists,
      Fifo.deq_eq_some, Fifo.enq_eq_some, Option.some.injEq, Prod.mk.injEq] at h
    obtain ⟨s₁, es₁, ⟨r, reqs, hd, dreqs, ⟨-, he⟩, rfl, rfl⟩, ⟨rfl, rfl⟩, rfl⟩ := h
    exact .writeReq hd he
  | writeData =>
    simp only [step, writeData, bind, pure, Option.bind_eq_some_iff, Prod.exists,
      Fifo.first_eq_some, Option.some.injEq, Prod.mk.injEq] at h
    obtain ⟨s₁, es₁, ⟨drq, ⟨rest, hf⟩, resps, hr, dreqs, hd, rfl, rfl⟩, ⟨rfl, rfl⟩, rfl⟩ := h
    unfold beginBurst at hr
    unfold endBurst at hd
    refine .writeData hf ?_ ?_
    · intro t
      by_cases h0 : s.burstReg = 0
      · rw [if_pos h0] at hr
        simp only [Option.map_eq_some_iff, Fifo.enq_eq_some] at hr
        obtain ⟨q, ⟨-, hq⟩, rfl⟩ := hr
        by_cases ht : drq.renameTag = t
        · subst ht
          simp [h0, hq]
        · simp [ht, Function.update_of_ne (Ne.symm ht)]
      · rw [if_neg h0] at hr
        cases hr
        rw [if_neg fun h => h0 h.1, List.append_nil]
    · by_cases h1 : s.burstLen dataWidthBytes drq = 1
      · rw [if_pos h1] at hd ⊢
        simp only [Option.map_eq_some_iff, Prod.exists, Fifo.deq_eq_some] at hd
        obtain ⟨drq', dreqs, hq, rfl⟩ := hd
        exact (List.cons.inj (hq.symm.trans hf)).2
      · rw [if_neg h1] at hd ⊢
        cases hd
        exact hf
  | writeDone resp =>
    simp only [step, writeDone, bind, pure, Option.bind_eq_some_iff, Prod.exists,
      Fifo.deq_eq_some, Fifo.enq_eq_some, Option.some.injEq, Prod.mk.injEq] at h
    obtain ⟨s₁, es₁, ⟨t, ht, rresp, resps, hd, pipe, ⟨-, he⟩, rfl, rfl⟩, ⟨rfl, rfl⟩, rfl⟩ := h
    exact .writeDone ht hd he
  | writeDoneComp =>
    simp only [step, writeDoneComp, bind, pure, Option.bind_eq_some_iff, Prod.exists,
      Fifo.deq_eq_some, Option.some.injEq, Prod.mk.injEq] at h
    obtain ⟨s₁, es₁, ⟨rresp, resp, pipe, hd, t, ht, g, hg, rfl, rfl⟩, ⟨rfl, rfl⟩, rfl⟩ := h
    exact .writeDoneComp hd ht hg

/-- What a firing does to the front end: it is a firing of the front end, or it shows no event of the
front end and lets requests out of `reqFifo` at most, those it hands to the memory. -/
lemma Fires.front_cases {w w' : σ} {s s' : MemWrite τ numClients numTags addrWidth}
    {a : Action κ numClients} {es : List (Event ε numClients numTags addrWidth dataWidthBytes)}
    (h : Fires sgl tg stream w s a w' s' es) :
    (∃ b fs, FrontEnd.Fires sgl tg writeError w s.front b w' s'.front fs ∧ es = fs.map .front) ∨
    ((∀ e, .front e ∉ es) ∧ s'.front.lreqFifo = s.front.lreqFifo ∧
      s'.front.reqFifo.items ⊆ s.front.reqFifo.items ∧
      ∀ r m, .writeReq r m ∈ es → r ∈ s.front.reqFifo.items) := by
  cases h with
  | front fires => exact .inl ⟨_, _, fires, rfl⟩
  | @writeReq r reqs dreqs deq enq =>
    refine .inr ⟨by simp, rfl, ?_, ?_⟩
    · rw [deq]
      exact List.subset_cons_self r reqs.items
    · intro r' m hmem
      obtain ⟨rfl, -⟩ : r' = r ∧ m = r.memRequest := by simpa using hmem
      rw [deq]
      exact List.mem_cons_self
  | writeData first resp deq => exact .inr ⟨by simp, rfl, List.Subset.refl _, by simp⟩
  | writeDone index deq enq => exact .inr ⟨by simp, rfl, List.Subset.refl _, by simp⟩
  | writeDoneComp deq index ret => exact .inr ⟨by simp, rfl, List.Subset.refl _, by simp⟩

end MemWrite

/-- `mkMemWriteInternal`, over the state of its address server and its own; `stream` gives the data
of each client. -/
def memWrite {σ τ κ ε : Type} {numClients numTags addrWidth dataWidthBytes : ℕ}
    (sgl : Server σ ReqTup (BitVec addrWidth)) (tg : TagGen τ κ ε numClients numTags)
    (stream : Fin numClients → ℕ → ObjectData (dataWidthBytes * 8)) :
    RuleSystem (σ × MemWrite τ numClients numTags addrWidth) (MemWrite.Action κ numClients)
      (MemWrite.Event ε numClients numTags addrWidth dataWidthBytes) :=
  ⟨MemWrite.step sgl tg stream⟩

end Xbsv
