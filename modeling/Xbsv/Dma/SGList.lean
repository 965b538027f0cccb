import Mathlib.Data.Fin.VecNotation
import Mathlib.Logic.Function.Basic
import Xbsv.Rules.Fifo
import Xbsv.Rules.System
import Xbsv.Dma.MemTypes

set_option relaxedAutoImplicit false
set_option autoImplicit false

/-!
# The scatter-gather memory management unit

`mkSGListMMU` of `SGList.bsv`: three region tables, a page table, and two fully pipelined
address servers of five stages each. The combinational part of every stage is a function of
its own, used both by the rule that fires the stage and by `Xbsv.SGList.translate`, the
translation of one request against tables that do not change.

The block RAMs answer a read with the contents at the time of the request; a response queue
holds the answers of a port, oldest first, at most `bramDepth` of them. In `stage5` the source
leaves the physical address unassigned (`?`) when no region matched. The compiler may put any
function of the rule's inputs there, so that function is the parameter `undef`.

## Main definitions

* `Xbsv.SGList.Tables` — the block RAMs, with the writes `Tables.sglist` and `Tables.region`.
* `Xbsv.SGList.regionConds`, `selectPage`, `pageIndex`, `physAddr` — stages 2 to 5.
* `Xbsv.SGList.translate`, `Xbsv.SGList.lookupError` — a request's address, and the error that
  its lookup reports.
* `Xbsv.SGList.mmu` — the unit as a rule system.
-/

namespace Xbsv.SGList

open Rules

/-! ## Tables -/

/-- `SGListId`: the number of an object, `TLog#(MaxNumSGLists)` bits. -/
abbrev SGListId := BitVec 5

/-- `MaxNumSGLists`. -/
def maxNumSGLists : ℕ := 32

/-- A page number in units of the smallest page (`Page`). -/
abbrev Page := BitVec 28

/-- One row of a region table (`Region`): the barrier in pages of the table's own size, and the
offset from page numbers to page-table indices. -/
@[ext]
structure Region where
  barrier : BitVec 28
  idxOffset : BitVec 8
  deriving DecidableEq, Repr

/-- `unpack` of the 36-bit configuration word; the first field is the most significant. -/
def Region.unpack (b : BitVec 36) : Region := ⟨b.extractLsb' 8 28, b.extractLsb' 0 8⟩

/-- A request to an address server (`ReqTup`). -/
@[ext]
structure ReqTup where
  ptr : SGListId
  off : BitVec 40
  deriving DecidableEq, Repr

/-- The selected page size (`0` for none, then 4 KB, 64 KB, 1 MB) and the low bits of the
offset (`Offset`). -/
@[ext]
structure Offset where
  pageSize : BitVec 2
  value : BitVec 20
  deriving DecidableEq, Repr

/-- The contents of the block RAMs. -/
@[ext]
structure Tables where
  reg8 : SGListId → Region
  reg4 : SGListId → Region
  reg0 : SGListId → Region
  pages : BitVec 13 → Page

/-- Method `sglist`: write one page-table entry. The length is not used. -/
def Tables.sglist (t : Tables) (ptr : BitVec 32) (paddr : BitVec 40) (_len : BitVec 32) : Tables :=
  { t with pages := Function.update t.pages (ptr.setWidth 13) (paddr.setWidth 28) }

/-- Method `region`: write the three rows of an object. -/
def Tables.region (t : Tables) (ptr : BitVec 32) (barr8 barr4 barr0 : BitVec 36) : Tables :=
  { t with
    reg8 := Function.update t.reg8 (ptr.setWidth 5) (Region.unpack barr8)
    reg4 := Function.update t.reg4 (ptr.setWidth 5) (Region.unpack barr4)
    reg0 := Function.update t.reg0 (ptr.setWidth 5) (Region.unpack barr0) }

/-! ## The combinational part of the stages -/

/-- Stage 2: compare the page number with the barrier of each region. Both page numbers of the
two larger sizes are held in `Page4`, 24 bits. -/
def regionConds (off : BitVec 40) (region8 region4 region0 : Region) : Bool × Bool × Bool :=
  let off0 : BitVec 28 := (off >>> 12).setWidth 28
  let off4 : BitVec 24 := (off >>> 16).setWidth 24
  let off8 : BitVec 24 := (off >>> 20).setWidth 24
  (decide (off8 < region8.barrier.setWidth 24), decide (off4 < region4.barrier.setWidth 24),
    decide (off0 < region0.barrier))

/-- What stage 3 hands to stage 4. -/
@[ext]
structure Selected where
  offset : Offset
  pbase : BitVec 8
  idxOffset : BitVec 8
  deriving DecidableEq, Repr

/-- Stage 3: the largest page size whose condition holds, and the page number in that size. -/
def selectPage (off : BitVec 40) (conds : Bool × Bool × Bool)
    (idxOffsets : BitVec 8 × BitVec 8 × BitVec 8) : Selected :=
  if conds.1 then ⟨⟨3, off.setWidth 20⟩, (off >>> 20).setWidth 8, idxOffsets.1⟩
  else if conds.2.1 then ⟨⟨2, off.setWidth 20⟩, (off >>> 16).setWidth 8, idxOffsets.2.1⟩
  else if conds.2.2 then ⟨⟨1, off.setWidth 20⟩, (off >>> 12).setWidth 8, idxOffsets.2.2⟩
  else ⟨⟨0, off.setWidth 20⟩, 0, 0⟩

/-- Stage 4: the page-table address `{ptr, pbase + idxOffset}`, the sum taken in 8 bits. -/
def pageIndex (ptr : SGListId) (pbase idxOffset : BitVec 8) : BitVec 13 :=
  ptr ++ (pbase + idxOffset)

/-- Stage 4: the error reported when no region matched. -/
def stage4Error (o : Offset) (ptr : SGListId) : Option DmaError :=
  if o.pageSize = 0 then some ⟨.badAddrTrans, ptr.setWidth 32⟩ else none

/-- Stage 5: page and offset put together, by page size. -/
def physAddr {addrWidth : ℕ} (undef : Page → Offset → BitVec 40) (page : Page) (o : Offset) :
    BitVec addrWidth :=
  let rv : BitVec 40 :=
    if o.pageSize = 1 then page ++ (o.value.setWidth 12 : BitVec 12)
    else if o.pageSize = 2 then (page.setWidth 24 : BitVec 24) ++ (o.value.setWidth 16 : BitVec 16)
    else if o.pageSize = 3 then (page.setWidth 20 : BitVec 20) ++ o.value
    else undef page o
  rv.setWidth addrWidth

/-- The region conditions of a request against given tables. -/
def Tables.conds (t : Tables) (req : ReqTup) : Bool × Bool × Bool :=
  regionConds req.off (t.reg8 req.ptr) (t.reg4 req.ptr) (t.reg0 req.ptr)

/-- Some region condition holds for the request. -/
def Tables.mapped (t : Tables) (req : ReqTup) : Bool :=
  (t.conds req).1 || (t.conds req).2.1 || (t.conds req).2.2

/-- The three index offsets of an object. -/
def Tables.idxOffsets (t : Tables) (ptr : SGListId) : BitVec 8 × BitVec 8 × BitVec 8 :=
  ((t.reg8 ptr).idxOffset, (t.reg4 ptr).idxOffset, (t.reg0 ptr).idxOffset)

/-- The page selection of a request against given tables. -/
def Tables.select (t : Tables) (req : ReqTup) : Selected :=
  selectPage req.off (t.conds req) (t.idxOffsets req.ptr)

/-- The translation of a request against given tables, all stages in one. -/
def translate {addrWidth : ℕ} (undef : Page → Offset → BitVec 40) (t : Tables) (req : ReqTup) :
    BitVec addrWidth :=
  let sel := t.select req
  physAddr undef (t.pages (pageIndex req.ptr sel.pbase sel.idxOffset)) sel.offset

/-- The error, if any, that the lookup of a request reports against given tables. -/
def lookupError (t : Tables) (req : ReqTup) : Option DmaError :=
  stage4Error (t.select req).offset req.ptr

/-! ## The pipeline -/

/-- `outFIFODepth` of the block RAM servers: the answers a port can hold. -/
abbrev bramDepth : ℕ := 3

/-- The queues of one address server. The four `…Resp` queues hold the answers of the block
RAMs on this port. -/
@[ext]
structure Port (addrWidth : ℕ) where
  incomingReqs : Fifo 2 ReqTup
  reg8Resp : Fifo bramDepth Region
  reg4Resp : Fifo bramDepth Region
  reg0Resp : Fifo bramDepth Region
  reqs0 : Fifo 3 ReqTup
  conds : Fifo 2 (Bool × Bool × Bool)
  idxOffsets0 : Fifo 2 (BitVec 8 × BitVec 8 × BitVec 8)
  reqs1 : Fifo 3 ReqTup
  offs0 : Fifo 2 Offset
  pbases : Fifo 2 (BitVec 8)
  idxOffsets1 : Fifo 2 (BitVec 8)
  ptrs1 : Fifo 2 SGListId
  pagesResp : Fifo bramDepth Page
  offs1 : Fifo 3 Offset
  pageResponseFifo : Fifo 2 (BitVec addrWidth)
  deriving DecidableEq

/-- A port with nothing in flight. -/
def Port.idle (addrWidth : ℕ) : Port addrWidth :=
  ⟨.empty, .empty, .empty, .empty, .empty, .empty, .empty, .empty, .empty, .empty, .empty, .empty,
    .empty, .empty, .empty⟩

/-- The state of the unit. -/
structure State (addrWidth : ℕ) where
  tables : Tables
  port : Fin 2 → Port addrWidth
  dmaErrorFifo : Fifo 2 DmaError
  configRespFifo : Fifo 2 SGListId

/-- The state after reset. The block RAMs have no reset, so their contents are arbitrary. -/
def State.reset (addrWidth : ℕ) (t : Tables) : State addrWidth :=
  ⟨t, fun _ => Port.idle addrWidth, .empty, .empty⟩

/-- Replace one port. -/
def State.setPort {addrWidth : ℕ} (s : State addrWidth) (i : Fin 2) (p : Port addrWidth) :
    State addrWidth :=
  { s with port := Function.update s.port i p }

/-- A configuration call that reaches the unit. -/
inductive ConfigCall
  | sglist (ptr : BitVec 32) (paddr : BitVec 40) (len : BitVec 32)
  | region (ptr : BitVec 32) (barr8 barr4 barr0 : BitVec 36)
  deriving DecidableEq, Repr

/-- The effect of a configuration call on the tables. -/
def Tables.apply (t : Tables) : ConfigCall → Tables
  | .sglist ptr paddr len => t.sglist ptr paddr len
  | .region ptr barr8 barr4 barr0 => t.region ptr barr8 barr4 barr0

/-- Rules and methods of the unit. -/
inductive Action
  | put (i : Fin 2) (req : ReqTup)
  | get (i : Fin 2)
  | stage1 (i : Fin 2)
  | stage2 (i : Fin 2)
  | stage3 (i : Fin 2)
  | stage4 (i : Fin 2)
  | stage5 (i : Fin 2)
  | dmaError
  | sendConfigResp
  | config (c : ConfigCall)
  deriving DecidableEq, Repr

/-- The rules of the unit, the methods of the other port included: all but the methods of port `i`
and the configuration. -/
def Action.isBehind (i : Fin 2) : Action → Bool
  | .put j _ => j ≠ i
  | .get j => j ≠ i
  | .config _ => false
  | _ => true

/-- What the unit makes visible. `lookup` is a firing of stage 4 with the error it enqueued. -/
inductive Event (addrWidth : ℕ)
  | put (i : Fin 2) (req : ReqTup)
  | get (i : Fin 2) (addr : BitVec addrWidth)
  | lookup (i : Fin 2) (err : Option DmaError)
  | dmaError (err : DmaError)
  | configResp (ptr : SGListId)
  | config (c : ConfigCall)
  deriving DecidableEq, Repr

section Rules

variable {addrWidth : ℕ} (undef : Page → Offset → BitVec 40)

/-- `request.put` of an address server. -/
def Port.put (p : Port addrWidth) (req : ReqTup) : Option (Port addrWidth) := do
  let incomingReqs ← p.incomingReqs.enq req
  return { p with incomingReqs }

/-- `response.get` of an address server. -/
def Port.get (p : Port addrWidth) : Option (BitVec addrWidth × Port addrWidth) := do
  let (addr, pageResponseFifo) ← p.pageResponseFifo.deq
  return (addr, { p with pageResponseFifo })

/-- Rule `stage1`: read the three region tables. -/
def Port.stage1 (t : Tables) (p : Port addrWidth) : Option (Port addrWidth) := do
  let (req, incomingReqs) ← p.incomingReqs.deq
  let reg8Resp ← p.reg8Resp.enq (t.reg8 req.ptr)
  let reg4Resp ← p.reg4Resp.enq (t.reg4 req.ptr)
  let reg0Resp ← p.reg0Resp.enq (t.reg0 req.ptr)
  let reqs0 ← p.reqs0.enq req
  return { p with incomingReqs, reg8Resp, reg4Resp, reg0Resp, reqs0 }

/-- Rule `stage2`: evaluate the region conditions. -/
def Port.stage2 (p : Port addrWidth) : Option (Port addrWidth) := do
  let (req, reqs0) ← p.reqs0.deq
  let (region8, reg8Resp) ← p.reg8Resp.deq
  let (region4, reg4Resp) ← p.reg4Resp.deq
  let (region0, reg0Resp) ← p.reg0Resp.deq
  let conds ← p.conds.enq (regionConds req.off region8 region4 region0)
  let idxOffsets0 ← p.idxOffsets0.enq (region8.idxOffset, region4.idxOffset, region0.idxOffset)
  let reqs1 ← p.reqs1.enq req
  return { p with reqs0, reg8Resp, reg4Resp, reg0Resp, conds, idxOffsets0, reqs1 }

/-- Rule `stage3`: select the page size. -/
def Port.stage3 (p : Port addrWidth) : Option (Port addrWidth) := do
  let (req, reqs1) ← p.reqs1.deq
  let (cond, conds) ← p.conds.deq
  let (idx, idxOffsets0) ← p.idxOffsets0.deq
  let sel := selectPage req.off cond idx
  let offs0 ← p.offs0.enq sel.offset
  let pbases ← p.pbases.enq sel.pbase
  let idxOffsets1 ← p.idxOffsets1.enq sel.idxOffset
  let ptrs1 ← p.ptrs1.enq req.ptr
  return { p with reqs1, conds, idxOffsets0, offs0, pbases, idxOffsets1, ptrs1 }

/-- The port side of rule `stage4`: read the page table. Also returns what goes into the error
queue. -/
def Port.stage4 (t : Tables) (p : Port addrWidth) : Option (Option DmaError × Port addrWidth) := do
  let (off, offs0) ← p.offs0.deq
  let (pbase, pbases) ← p.pbases.deq
  let (idxOffset, idxOffsets1) ← p.idxOffsets1.deq
  let (ptr, ptrs1) ← p.ptrs1.deq
  let pagesResp ← p.pagesResp.enq (t.pages (pageIndex ptr pbase idxOffset))
  let offs1 ← p.offs1.enq off
  return (stage4Error off ptr, { p with offs0, pbases, idxOffsets1, ptrs1, pagesResp, offs1 })

/-- Rule `stage5`: assemble the physical address. -/
def Port.stage5 (p : Port addrWidth) : Option (Port addrWidth) := do
  let (page, pagesResp) ← p.pagesResp.deq
  let (offset, offs1) ← p.offs1.deq
  let pageResponseFifo ← p.pageResponseFifo.enq (physAddr undef page offset)
  return { p with pagesResp, offs1, pageResponseFifo }

/-- Enqueue an error if there is one; only then must the queue have room. -/
def enqError (q : Fifo 2 DmaError) : Option DmaError → Option (Fifo 2 DmaError)
  | none => some q
  | some e => q.enq e

/-- The configuration methods. `region` also queues a response. -/
def State.config (s : State addrWidth) (c : ConfigCall) : Option (State addrWidth) :=
  match c with
  | .sglist .. => some { s with tables := s.tables.apply c }
  | .region ptr .. => do
    let configRespFifo ← s.configRespFifo.enq (ptr.setWidth 5)
    return { s with tables := s.tables.apply c, configRespFifo }

/-- `mkSGListMMU`: one rule or method at a time. -/
def mmu : RuleSystem (State addrWidth) Action (Event addrWidth) where
  step s a :=
    match a with
    | .put i req => do
      let p ← (s.port i).put req
      return (s.setPort i p, [.put i req])
    | .get i => do
      let (addr, p) ← (s.port i).get
      return (s.setPort i p, [.get i addr])
    | .stage1 i => do
      let p ← (s.port i).stage1 s.tables
      return (s.setPort i p, [])
    | .stage2 i => do
      let p ← (s.port i).stage2
      return (s.setPort i p, [])
    | .stage3 i => do
      let p ← (s.port i).stage3
      return (s.setPort i p, [])
    | .stage4 i => do
      let (err, p) ← (s.port i).stage4 s.tables
      let dmaErrorFifo ← enqError s.dmaErrorFifo err
      return ({ s.setPort i p with dmaErrorFifo }, [.lookup i err])
    | .stage5 i => do
      let p ← (s.port i).stage5 undef
      return (s.setPort i p, [])
    | .dmaError => do
      let (err, dmaErrorFifo) ← s.dmaErrorFifo.deq
      return ({ s with dmaErrorFifo }, [.dmaError err])
    | .sendConfigResp => do
      let (ptr, configRespFifo) ← s.configRespFifo.deq
      return ({ s with configRespFifo }, [.configResp ptr])
    | .config c => do
      let s' ← s.config c
      return (s', [.config c])

end Rules

end Xbsv.SGList
