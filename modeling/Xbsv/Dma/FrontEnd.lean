import Xbsv.Rules.Server
import Xbsv.Dma.SGList
import Xbsv.Dma.TagGen

set_option relaxedAutoImplicit false
set_option autoImplicit false

/-!
# The common front end of the read and the write module

`mkMemReadInternal` and `mkMemWriteInternal` start alike: `loadClient` checks the pointer of a
request and hands the request to the address server and to the tag generator, and `checkSglResp`
pairs their answers with the oldest request waiting. The two copies in the source differ in the
error that `loadClient` reports, which is a parameter here.

Address server and tag generator are arguments of the modules, and so they are here. The state of
the address server is not part of the front end: the masters of a memory server share it.

## Main definitions

* `Xbsv.badPointer` — the pointer check.
* `Xbsv.LRec`, `RRec`, `DRec`, `RResp` — the records of the pipeline.
* `Xbsv.FrontEnd` — the queues of the front end and the state of its tag generator.
* `Xbsv.FrontEnd.step` — the rules `loadClient`, `checkSglResp`, `dmaError` and those of the tag
  generator.

## Main results

* `Xbsv.FrontEnd.Fires`, `Xbsv.FrontEnd.fires_of_step` — everything a step of the front end can do.
* `Xbsv.FrontEnd.Passes.fires` — requests pass in order.
-/

namespace Xbsv

open Rules SGList

/-- `bad_pointer`. -/
def badPointer (p : BitVec 32) : Bool := decide (BitVec.ofNat 32 maxNumSGLists < p >>> 8)

/-- A request waiting for its translation (`LRec`). -/
@[ext]
structure LRec (numClients : ℕ) where
  req : ObjectRequest
  client : Fin numClients
  deriving DecidableEq, Repr

/-- A translated request (`RRec`). -/
@[ext]
structure RRec (numClients numTags addrWidth : ℕ) where
  req : ObjectRequest
  pa : BitVec addrWidth
  renameTag : Fin numTags
  client : Fin numClients
  deriving DecidableEq, Repr

/-- A request handed to the memory (`DRec`). -/
@[ext]
structure DRec (numClients numTags : ℕ) where
  req : ObjectRequest
  renameTag : Fin numTags
  client : Fin numClients
  last : Bool
  deriving DecidableEq, Repr

/-- A write waiting for its acknowledgement (`RResp`). -/
@[ext]
structure RResp (numClients : ℕ) where
  origTag : BitVec 6
  client : Fin numClients
  deriving DecidableEq, Repr

section Records

variable {numClients numTags addrWidth : ℕ}

/-- The part of a translated request that came from the client. -/
def RRec.toLRec (r : RRec numClients numTags addrWidth) : LRec numClients := ⟨r.req, r.client⟩

/-- `extend` of a rename tag to the 6 bits of a memory tag. -/
def memTag (t : Fin numTags) : BitVec 6 := BitVec.ofNat 6 t

/-- The `MemRequest` that the memory gets for a translated request. -/
def RRec.memRequest (r : RRec numClients numTags addrWidth) : MemRequest addrWidth :=
  ⟨r.pa, r.req.burstLen, memTag r.renameTag⟩

/-- The vector element that a memory tag selects, if there is one. -/
def tagIndex (numTags : ℕ) (tag : BitVec 6) : Option (Fin numTags) :=
  if h : tag.toNat < numTags then some ⟨tag.toNat, h⟩ else none

/-- The element selected by the memory tag of a rename tag is that of the rename tag. -/
lemma tagIndex_eq_some (hn : numTags ≤ 64) {tag : BitVec 6} {t : Fin numTags} :
    tagIndex numTags tag = some t ↔ tag = memTag t := by
  have ht : t.val < 64 := lt_of_lt_of_le t.isLt hn
  unfold tagIndex memTag
  constructor
  · intro h
    split at h
    · cases h
      simp
    · cases h
  · rintro rfl
    have hv : (BitVec.ofNat 6 t.val).toNat = t.val := by
      rw [BitVec.toNat_ofNat]
      exact Nat.mod_eq_of_lt ht
    simp [hv]

/-- Distinct rename tags have distinct memory tags. -/
lemma memTag_inj (hn : numTags ≤ 64) {t t' : Fin numTags} : memTag t = memTag t' ↔ t = t' := by
  constructor
  · intro h
    have h₁ := (tagIndex_eq_some hn).mpr h
    have h₂ := (tagIndex_eq_some hn (t := t)).mpr rfl
    rw [h₂] at h₁
    exact Option.some.inj h₁
  · rintro rfl
    rfl

/-- Truncating a memory tag gives the bits of the rename tag. -/
lemma memTag_setWidth (hn : numTags ≤ 64) (t : Fin numTags) (n : ℕ) :
    (memTag t).setWidth n = BitVec.ofNat n t := by
  have ht : t.val < 64 := lt_of_lt_of_le t.isLt hn
  apply BitVec.eq_of_toNat_eq
  rw [BitVec.toNat_setWidth, memTag, BitVec.toNat_ofNat, BitVec.toNat_ofNat,
    Nat.mod_eq_of_lt (a := t.val) (b := 2 ^ 6) ht]

end Records

/-- The queues of the front end, and the state of the tag generator. -/
@[ext]
structure FrontEnd (τ : Type) (numClients numTags addrWidth : ℕ) where
  tagGen : τ
  lreqFifo : Fifo sglPipelineDepth (LRec numClients)
  reqFifo : Fifo 2 (RRec numClients numTags addrWidth)
  dmaErrorFifo : Fifo 2 DmaError

namespace FrontEnd

variable {σ τ κ ε : Type} {numClients numTags addrWidth : ℕ}

/-- The state after reset, the tag generator being in state `g`. -/
def reset (g : τ) : FrontEnd τ numClients numTags addrWidth := ⟨g, .empty, .empty, .empty⟩

/-- The rules of the front end. -/
inductive Action (κ : Type) (numClients : ℕ)
  | loadClient (client : Fin numClients) (req : ObjectRequest)
  | checkSglResp
  | dmaError
  | tagRule (k : κ)
  deriving DecidableEq, Repr

/-- What the front end makes visible. `accept` shows the request put to the address server, and
`checked` the record that pairs a request with the address and the tag it got. -/
inductive Event (ε : Type) (numClients numTags addrWidth : ℕ)
  | accept (client : Fin numClients) (req : ObjectRequest) (tup : ReqTup)
  | reject (client : Fin numClients) (req : ObjectRequest) (err : DmaError)
  | checked (r : RRec numClients numTags addrWidth)
  | dmaError (err : DmaError)
  | tag (e : ε)
  deriving DecidableEq, Repr

/-- The request that `loadClient` puts to the address server; the pointer is truncated. -/
def reqTup (req : ObjectRequest) : ReqTup := ⟨req.pointer.setWidth 5, req.offset⟩

variable (sgl : Server σ ReqTup (BitVec addrWidth)) (tg : TagGen τ κ ε numClients numTags)

/-- Rule `loadClient` for one client. Only the guards of the branch taken are needed. -/
def loadClient (errorType : DmaErrorType) (w : σ) (f : FrontEnd τ numClients numTags addrWidth)
    (client : Fin numClients) (req : ObjectRequest) :
    Option (σ × FrontEnd τ numClients numTags addrWidth ×
      List (Event ε numClients numTags addrWidth)) :=
  if badPointer req.pointer then do
    let dmaErrorFifo ← f.dmaErrorFifo.enq ⟨errorType, req.pointer⟩
    return (w, { f with dmaErrorFifo }, [.reject client req ⟨errorType, req.pointer⟩])
  else do
    let tagGen ← tg.tagRequest f.tagGen client req.tag
    let lreqFifo ← f.lreqFifo.enq ⟨req, client⟩
    let w' ← sgl.put w (reqTup req)
    return (w', { f with tagGen, lreqFifo }, [.accept client req (reqTup req)])

/-- Rule `checkSglResp`. -/
def checkSglResp (w : σ) (f : FrontEnd τ numClients numTags addrWidth) :
    Option (σ × FrontEnd τ numClients numTags addrWidth ×
      List (Event ε numClients numTags addrWidth)) := do
  let (physAddr, w') ← sgl.get w
  let (renameTag, tagGen) ← tg.tagResponse f.tagGen
  let (l, lreqFifo) ← f.lreqFifo.deq
  let r : RRec numClients numTags addrWidth := ⟨l.req, physAddr, renameTag, l.client⟩
  let reqFifo ← f.reqFifo.enq r
  return (w', { f with tagGen, lreqFifo, reqFifo }, [.checked r])

/-- One rule of the front end. `errorType` is the error that `loadClient` reports. -/
def step (errorType : DmaErrorType) (w : σ) (f : FrontEnd τ numClients numTags addrWidth) :
    Action κ numClients → Option (σ × FrontEnd τ numClients numTags addrWidth ×
      List (Event ε numClients numTags addrWidth))
  | .loadClient client req => loadClient sgl tg errorType w f client req
  | .checkSglResp => checkSglResp sgl tg w f
  | .dmaError => do
    let (err, dmaErrorFifo) ← f.dmaErrorFifo.deq
    return (w, { f with dmaErrorFifo }, [.dmaError err])
  | .tagRule k => do
    let (tagGen, es) ← tg.step f.tagGen k
    return (w, { f with tagGen }, es.map .tag)

/-! ## What a step does -/

/-- `Fires … w f w' f' es`: a rule of the front end takes `(w, f)` to `(w', f')` and makes `es`
visible. One constructor for each way through a rule, with the guards that held. -/
inductive Fires (errorType : DmaErrorType) (w : σ) (f : FrontEnd τ numClients numTags addrWidth) :
    Action κ numClients → σ → FrontEnd τ numClients numTags addrWidth →
      List (Event ε numClients numTags addrWidth) → Prop
  | reject {client : Fin numClients} {req : ObjectRequest} {errors : Fifo 2 DmaError}
      (bad : badPointer req.pointer = true)
      (enq : errors.items = f.dmaErrorFifo.items ++ [⟨errorType, req.pointer⟩]) :
      Fires errorType w f (.loadClient client req) w { f with dmaErrorFifo := errors }
        [.reject client req ⟨errorType, req.pointer⟩]
  | accept {client : Fin numClients} {req : ObjectRequest} {g : τ}
      {lreqs : Fifo sglPipelineDepth (LRec numClients)} {w' : σ}
      (good : badPointer req.pointer = false)
      (tag : tg.tagRequest f.tagGen client req.tag = some g)
      (enq : lreqs.items = f.lreqFifo.items ++ [⟨req, client⟩])
      (put : sgl.put w (reqTup req) = some w') :
      Fires errorType w f (.loadClient client req) w' { f with tagGen := g, lreqFifo := lreqs }
        [.accept client req (reqTup req)]
  | checked {r : RRec numClients numTags addrWidth} {g : τ} {w' : σ}
      {lreqs : Fifo sglPipelineDepth (LRec numClients)}
      {reqs : Fifo 2 (RRec numClients numTags addrWidth)}
      (get : sgl.get w = some (r.pa, w'))
      (tag : tg.tagResponse f.tagGen = some (r.renameTag, g))
      (deq : f.lreqFifo.items = r.toLRec :: lreqs.items)
      (enq : reqs.items = f.reqFifo.items ++ [r]) :
      Fires errorType w f .checkSglResp w'
        { f with
          tagGen := g
          lreqFifo := lreqs
          reqFifo := reqs } [.checked r]
  | dmaError {err : DmaError} {errors : Fifo 2 DmaError}
      (deq : f.dmaErrorFifo.items = err :: errors.items) :
      Fires errorType w f .dmaError w { f with dmaErrorFifo := errors } [.dmaError err]
  | tagRule {k : κ} {g : τ} {es : List ε} (step : tg.step f.tagGen k = some (g, es)) :
      Fires errorType w f (.tagRule k) w { f with tagGen := g } (es.map .tag)

variable {sgl tg} {errorType : DmaErrorType} {w w' : σ}
  {f f' : FrontEnd τ numClients numTags addrWidth} {a : Action κ numClients}
  {es : List (Event ε numClients numTags addrWidth)}

/-- A step of the front end is one of the firings listed. -/
theorem fires_of_step (h : step sgl tg errorType w f a = some (w', f', es)) :
    Fires sgl tg errorType w f a w' f' es := by
  cases a with
  | loadClient client req =>
    simp only [step, loadClient] at h
    split at h
    · rename_i hb
      simp only [bind, pure, Option.bind_eq_some_iff, Fifo.enq_eq_some, Option.some.injEq,
        Prod.mk.injEq] at h
      obtain ⟨errors, ⟨-, hq⟩, rfl, rfl, rfl⟩ := h
      exact .reject hb hq
    · rename_i hb
      simp only [bind, pure, Option.bind_eq_some_iff, Fifo.enq_eq_some, Option.some.injEq,
        Prod.mk.injEq] at h
      obtain ⟨g, hg, lreqs, ⟨-, hq⟩, w₁, hp, rfl, rfl, rfl⟩ := h
      exact .accept (by simpa using hb) hg hq hp
  | checkSglResp =>
    simp only [step, checkSglResp, bind, pure, Option.bind_eq_some_iff, Prod.exists,
      Fifo.deq_eq_some, Fifo.enq_eq_some, Option.some.injEq, Prod.mk.injEq] at h
    obtain ⟨pa, w₁, hg, t, g, ht, l, lreqs, hd, reqs, ⟨-, he⟩, rfl, rfl, rfl⟩ := h
    exact .checked hg ht hd he
  | dmaError =>
    simp only [step, bind, pure, Option.bind_eq_some_iff, Prod.exists, Fifo.deq_eq_some,
      Option.some.injEq, Prod.mk.injEq] at h
    obtain ⟨err, errors, hd, rfl, rfl, rfl⟩ := h
    exact .dmaError hd
  | tagRule k =>
    simp only [step, bind, pure, Option.bind_eq_some_iff, Prod.exists, Option.some.injEq,
      Prod.mk.injEq] at h
    obtain ⟨g, es, hs, rfl, rfl, rfl⟩ := h
    exact .tagRule hs

/-! ## Requests pass in order -/

/-- The request of an `accept` event. -/
def Event.accepted? : Event ε numClients numTags addrWidth → Option (LRec numClients)
  | .accept client req _ => some ⟨req, client⟩
  | _ => none

/-- The record of a `checked` event. -/
def Event.checked? : Event ε numClients numTags addrWidth →
    Option (RRec numClients numTags addrWidth)
  | .checked r => some r
  | _ => none

/-- What is checked is what was accepted, in order; what is checked goes to `reqFifo`. -/
lemma Fires.conserves (h : Fires sgl tg errorType w f a w' f' es) :
    (es.filterMap Event.checked?).map RRec.toLRec ++ f'.lreqFifo.items =
        f.lreqFifo.items ++ es.filterMap Event.accepted? ∧
      f'.reqFifo.items = f.reqFifo.items ++ es.filterMap Event.checked? := by
  cases h with
  | reject bad enq => simp [List.filterMap_cons, Event.accepted?, Event.checked?]
  | accept good tag enq put => simp [Event.accepted?, Event.checked?, enq]
  | checked get tag deq enq => simp [Event.accepted?, Event.checked?, deq, enq]
  | dmaError deq => simp [List.filterMap_cons, Event.accepted?, Event.checked?]
  | tagRule step => simp [List.filterMap_map, Function.comp_def, Event.accepted?, Event.checked?]

/-- The requests accepted are, in order, those handed to the memory, those translated, and those
waiting for their translation. -/
def Passes (accepted : List (LRec numClients)) (handed : List (RRec numClients numTags addrWidth))
    (f : FrontEnd τ numClients numTags addrWidth) : Prop :=
  accepted = (handed ++ f.reqFifo.items).map RRec.toLRec ++ f.lreqFifo.items

namespace Passes

variable {accepted : List (LRec numClients)} {handed : List (RRec numClients numTags addrWidth)}

/-- A step of the front end keeps the order. -/
lemma fires (hp : Passes accepted handed f) (h : Fires sgl tg errorType w f a w' f' es) :
    Passes (accepted ++ es.filterMap Event.accepted?) handed f' := by
  obtain ⟨hc, hq⟩ := h.conserves
  unfold Passes at hp ⊢
  rw [hp, hq, List.append_assoc, ← hc]
  simp only [List.map_append, List.append_assoc]

/-- So does handing the oldest translated request to the memory. -/
lemma hand (hp : Passes accepted handed f) {r : RRec numClients numTags addrWidth}
    {reqs : Fifo 2 (RRec numClients numTags addrWidth)} (h : f.reqFifo.items = r :: reqs.items) :
    Passes accepted (handed ++ [r]) { f with reqFifo := reqs } := by
  unfold Passes at hp ⊢
  rw [hp, h, ← List.singleton_append, ← List.append_assoc]

/-- Requests are handed over in the order in which they were accepted. -/
lemma isPrefix (hp : Passes accepted handed f) : handed.map RRec.toLRec <+: accepted := by
  unfold Passes at hp
  rw [hp, List.map_append, List.append_assoc]
  exact List.prefix_append _ _

/-- What is handed over was accepted. -/
lemma toLRec_mem (hp : Passes accepted handed f) {r : RRec numClients numTags addrWidth}
    (hr : r ∈ handed) : r.toLRec ∈ accepted :=
  hp.isPrefix.subset (List.mem_map_of_mem hr)

end Passes

/-! ## The front end as a user of its address server -/

/-- The rule puts a request to the address server. -/
def Action.asks : Action κ numClients → Bool
  | .loadClient _ req => !badPointer req.pointer
  | _ => false

/-- The request put to the address server. -/
def Event.asked? : Event ε numClients numTags addrWidth → Option ReqTup
  | .accept _ _ tup => some tup
  | _ => none

/-- The request checked, as it was put to the address server, with the address it got. -/
def Event.taken? : Event ε numClients numTags addrWidth → Option (ReqTup × BitVec addrWidth)
  | .checked r => some (reqTup r.req, r.pa)
  | _ => none

/-- The requests that wait for their translation. -/
def pending (f : FrontEnd τ numClients numTags addrWidth) : List ReqTup :=
  f.lreqFifo.items.map fun l => reqTup l.req

/-- The front end puts a request when it queues one in `lreqFifo`, and takes a response when it
removes one. -/
lemma Fires.uses (h : Fires sgl tg errorType w f a w' f' es) :
    (w' = w ∧ f'.pending = f.pending ∧ es.filterMap Event.asked? = [] ∧
      es.filterMap Event.taken? = []) ∨
    (∃ r, a.asks = true ∧ sgl.put w r = some w' ∧ f'.pending = f.pending ++ [r] ∧
      es.filterMap Event.asked? = [r] ∧ es.filterMap Event.taken? = []) ∨
    (∃ r v, sgl.get w = some (v, w') ∧ f.pending = r :: f'.pending ∧
      es.filterMap Event.asked? = [] ∧ es.filterMap Event.taken? = [(r, v)]) := by
  cases h with
  | reject bad enq =>
    exact .inl ⟨rfl, rfl, by simp [List.filterMap_cons, Event.asked?],
      by simp [List.filterMap_cons, Event.taken?]⟩
  | @accept client req g lreqs w' good tag enq put =>
    exact .inr (.inl ⟨reqTup req, by simp [Action.asks, good], put, by simp [pending, enq],
      by simp [Event.asked?], by simp [List.filterMap_cons, Event.taken?]⟩)
  | @checked r g w' lreqs reqs get tag deq enq =>
    exact .inr (.inr ⟨reqTup r.req, r.pa, get, by simp [pending, deq, RRec.toLRec],
      by simp [List.filterMap_cons, Event.asked?], by simp [Event.taken?]⟩)
  | dmaError deq =>
    exact .inl ⟨rfl, rfl, by simp [List.filterMap_cons, Event.asked?],
      by simp [List.filterMap_cons, Event.taken?]⟩
  | tagRule step =>
    exact .inl ⟨rfl, rfl, by simp [List.filterMap_map, Function.comp_def, Event.asked?],
      by simp [List.filterMap_map, Function.comp_def, Event.taken?]⟩

end FrontEnd

end Xbsv
