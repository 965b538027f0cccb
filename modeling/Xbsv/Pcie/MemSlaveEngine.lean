import Mathlib.Data.List.GetD
import Xbsv.Bits.Words
import Xbsv.Pcie.Mifo
import Xbsv.Pcie.Tlp
import Xbsv.Rules.System

set_option relaxedAutoImplicit false
set_option autoImplicit false

/-!
# The DMA slave engine

`mkMemSlaveEngine` makes packets of memory requests. A write request gives a header, which waits for the data
of the request; header and data are sent by two rules, one beat at a time, with the data taken from a queue
of dwords. A read request is sent at once if no write is under way. What is read comes back in completions,
whose data and tags go through two queues of vectors.

## Main definitions

* `Xbsv.WriteSide`, `Xbsv.ReadSide`, `Xbsv.MemSlaveEngine` — the state.
* `Xbsv.WriteSide.writeHeaderTlp`, `Xbsv.WriteSide.writeTlps`, `Xbsv.ReadSide.handleTlpRule` — the rules.
* `Xbsv.memSlaveEngine` — the module, as a system.
-/

namespace Xbsv

open Rules Bits

/-- The number of dwords in a beat of data, as far as the provisos of the module admit it. -/
structure BusWidth where
  /-- `busWidthWords`. -/
  words : ℕ
  pos : 1 ≤ words
  le : words ≤ 4

/-- `beatShift`, the rounded-up logarithm of the number of bytes in a beat. -/
def BusWidth.beatShift (w : BusWidth) : ℕ := tlog (4 * w.words)

/-- The part of the state that requests and data go through. -/
structure WriteSide where
  tlpOutFifo : Fifo 2 TLPData
  tlpWriteHeaderFifo : Fifo 2 TLPData
  writeDataMimo : Fifo 8 (BitVec 32)
  writeBurstCount : BitVec 9
  writeDwCount : BitVec 10
  writeInProgress : Bool
  writeTag : Fifo 16 (BitVec 8)
  doneTag : Fifo 16 (BitVec 8)

/-- The part of the state that completions go through. -/
structure ReadSide where
  tlpInFifo : Fifo 2 TLPData
  hitReg : BitVec 7
  lastTag : BitVec 8
  tlpDecodeFifo : Fifo 2 TLPData
  tlpWordCountFifo : Fifo 2 (LUInt 4)
  completionMimo : Mifo 4 (BitVec 32)
  completionTagMimo : Mifo 4 (BitVec 8)

/-- The state of `mkMemSlaveEngine`. -/
structure MemSlaveEngine where
  writeSide : WriteSide
  readSide : ReadSide

/-- What the module is made with: its width, its number on the bus, and the default records. -/
structure SlaveConfig where
  width : BusWidth
  myId : BitVec 16
  defaults : PcieDefaults

namespace SlaveConfig

variable (c : SlaveConfig)

/-- The number of beats of data of a request. -/
def burstLen (req : MemRequest 40) : BitVec 8 := req.burstLen >>> c.width.beatShift

/-- The number of dwords of a request. -/
def tlplen (req : MemRequest 40) : BitVec 10 :=
  BitVec.ofNat 10 c.width.words * (c.burstLen req).setWidth 10

/-- The header of a request with a short address. -/
def hdr3dw (format : TLPPacketFormat) (req : MemRequest 40) : TLPMemoryIO3DWHeader :=
  { c.defaults.hdr3dw with
    format
    tag := req.tag.setWidth 8
    reqid := c.myId
    nosnoop := 0
    addr := req.addr.extractLsb' 2 30
    length := c.tlplen req
    firstbe := 0xf
    lastbe := if 1 < c.tlplen req then 0xf else 0 }

/-- The header of a request with a long address. -/
def hdr4dw (format : TLPPacketFormat) (req : MemRequest 40) : TLPMemory4DWHeader :=
  { c.defaults.hdr4dw with
    format
    tag := req.tag.setWidth 8
    reqid := c.myId
    nosnoop := 0
    addr := (req.addr.extractLsb' 2 38).setWidth 62
    length := c.tlplen req
    firstbe := 0xf
    lastbe := if 1 < c.tlplen req then 0xf else 0 }

/-- The beat that waits for the data of a write request. -/
def writeHeader (req : MemRequest 40) : TLPData :=
  if req.addr >>> 32 ≠ 0 then
    { sof := true, eof := false, hit := 0, be := 0xffff, data := (c.hdr4dw .memWrite4DWData req).pack }
  else
    { sof := true, eof := false, hit := 0, be := 0xfff0, data := (c.hdr3dw .memWrite3DWData req).pack }

/-- The packet of a read request. -/
def readRequest (req : MemRequest 40) : TLPData :=
  if req.addr.extractLsb' 32 8 ≠ 0 then
    { sof := true, eof := true, hit := 0, be := 0xffff, data := (c.hdr4dw .memRead4DWNoData req).pack }
  else
    { sof := true, eof := true, hit := 0, be := 0xfff0, data := (c.hdr3dw .memRead3DWNoData req).pack }

/-- The dwords of a beat of data. -/
def beatWords (d : ObjectData (32 * c.width.words)) : List (BitVec 32) :=
  (List.range c.width.words).map fun i => d.data.extractLsb' (32 * i) 32

end SlaveConfig

namespace WriteSide

/-- The state after reset. -/
def reset : WriteSide := ⟨.empty, .empty, .empty, 0, 0, false, .empty, .empty⟩

variable (c : SlaveConfig) (s : WriteSide)

/-- What `writeHeaderTlp` has found out about the header that waits. -/
structure Attempt where
  tlp : TLPData
  dwCount : BitVec 10
  sendit : Bool
  writeDataMimo : Fifo 8 (BitVec 32)

/-- The first chain of `writeHeaderTlp`: a short header takes the first dword of its data along. -/
def attempt3dw (tlp : TLPData) : Option Attempt :=
  let hdr4dw := TLPMemory4DWHeader.unpack tlp.data
  let hdr3dw := TLPMemoryIO3DWHeader.unpack tlp.data
  if hdr3dw.format = .memWrite3DWData ∧ s.writeDataMimo.deqReadyN 1 then do
    let v ← s.writeDataMimo.first
    let writeDataMimo ← s.writeDataMimo.deqN 1
    return {
      tlp := { tlp with
        be := 0xffff
        eof := if hdr3dw.length = 1 then true else tlp.eof
        data := TLPMemoryIO3DWHeader.pack { hdr3dw with data := byteSwap v } }
      dwCount := hdr3dw.length - 1
      sendit := true
      writeDataMimo }
  else return ⟨tlp, hdr4dw.length, false, s.writeDataMimo⟩

/-- The second chain of `writeHeaderTlp`: a long header waits for its data, and any other is sent. -/
def attempt4dw (tlp : TLPData) (a : Attempt) : Attempt :=
  let hdr4dw := TLPMemory4DWHeader.unpack tlp.data
  if hdr4dw.format = .memWrite4DWData ∧ s.writeDataMimo.deqReadyN 1 then
    { a with tlp := { a.tlp with be := 0xffff }, sendit := true }
  else if hdr4dw.format = .memWrite4DWData then { a with sendit := false }
  else { a with sendit := true }

/-- The tag of a request goes from `writeTag` to `doneTag` if the request has been sent. -/
def finishIf (b : Bool) : Option (Fifo 16 (BitVec 8) × Fifo 16 (BitVec 8)) :=
  if b then do
    let (tag, writeTag) ← s.writeTag.deq
    let doneTag ← s.doneTag.enq tag
    return (writeTag, doneTag)
  else some (s.writeTag, s.doneTag)

/-- Rule `writeHeaderTlp`, with the beat it has sent. -/
def writeHeaderTlp : Option (WriteSide × Option TLPData) :=
  if s.writeInProgress then none
  else do
    let (tlp, tlpWriteHeaderFifo) ← s.tlpWriteHeaderFifo.deq
    let a ← s.attempt3dw tlp
    let a := s.attempt4dw tlp a
    if a.sendit then do
      let tlpOutFifo ← s.tlpOutFifo.enq a.tlp
      let (writeTag, doneTag) ← s.finishIf (a.dwCount = 0)
      return ({ s with
        tlpWriteHeaderFifo, tlpOutFifo, writeTag, doneTag
        writeDataMimo := a.writeDataMimo
        writeDwCount := a.dwCount
        writeInProgress := a.dwCount ≠ 0 }, some a.tlp)
    else return (s, none)

/-- `writeDataMimo.first`; what stands after the last dword is left over from before. -/
def firstDwords (stale : ℕ → BitVec 32) : Option (ℕ → BitVec 32) :=
  if s.writeDataMimo.items.isEmpty then none
  else some fun i => s.writeDataMimo.items.getD i (stale i)

/-- The data of a beat. -/
def beatData (v : ℕ → BitVec 32) : BitVec 128 :=
  byteSwap (v 0) ++ (byteSwap (v 1) ++ (byteSwap (v 2) ++ byteSwap (v 3)))

/-- The first dwords of a beat are those of the list it is made from. -/
lemma take_lanes_getD {items : List (BitVec 32)} {k : ℕ} (hk : k ≤ 4) (hlen : k ≤ items.length)
    (stale : ℕ → BitVec 32) :
    (lanes (beatData fun i => items.getD i (stale i))).take k = (items.take k).map byteSwap := by
  have hlanes : lanes (beatData fun i => items.getD i (stale i)) =
      (List.range 4).map fun i => byteSwap (items.getD i (stale i)) := lanes_append _ _ _ _
  rw [hlanes]
  refine List.ext_getElem ?_ fun i h1 h2 => ?_
  · simp only [List.length_take, List.length_map, List.length_range]
    omega
  · rw [List.length_map, List.length_take] at h2
    rw [List.getElem_take, List.getElem_map, List.getElem_map, List.getElem_take, List.getElem_range,
      List.getD_eq_getElem _ _ (by omega)]

/-- The mask of the last beat of a packet. -/
def lastBe (dwCount : BitVec 10) : BitVec 16 :=
  if dwCount = 4 then 0xffff
  else if dwCount = 3 then 0xfff0
  else if dwCount = 2 then 0xff00
  else if dwCount = 1 then 0xf000
  else c.defaults.tlp.be

/-- Rule `writeTlps`, with the beat it has sent. -/
def writeTlps (stale : ℕ → BitVec 32) : Option (WriteSide × Option TLPData) :=
  -- the number of dwords that is left, as an argument of `deq`
  let last := ((s.writeDwCount.setWidth _ : LUInt 4)).toNat
  if !s.writeInProgress then none
  else if 4 < s.writeDwCount ∧ s.writeDataMimo.deqReadyN 4 then do
    let v ← s.firstDwords stale
    let writeDataMimo ← s.writeDataMimo.deqN 4
    let tlp : TLPData :=
      { c.defaults.tlp with sof := false, eof := false, be := 0xffff, data := beatData v }
    let tlpOutFifo ← s.tlpOutFifo.enq tlp
    return ({ s with writeDataMimo, tlpOutFifo, writeDwCount := s.writeDwCount - 4 }, some tlp)
  else if s.writeDwCount ≤ 4 ∧ s.writeDataMimo.deqReadyN last then do
    let v ← s.firstDwords stale
    let writeDataMimo ← s.writeDataMimo.deqN last
    let (writeTag, doneTag) ← s.finishIf true
    let tlp : TLPData :=
      { c.defaults.tlp with sof := false, eof := true, be := lastBe c s.writeDwCount, data := beatData v }
    let tlpOutFifo ← s.tlpOutFifo.enq tlp
    return ({ s with
      writeDataMimo, tlpOutFifo, writeTag, doneTag, writeDwCount := 0, writeInProgress := false }, some tlp)
  else some (s, none)

/-- `writeReq.put`. -/
def writeReq (req : MemRequest 40) : Option WriteSide :=
  if s.writeBurstCount = 0 then do
    let tlpWriteHeaderFifo ← s.tlpWriteHeaderFifo.enq (c.writeHeader req)
    let writeTag ← s.writeTag.enq (req.tag.setWidth 8)
    return { s with tlpWriteHeaderFifo, writeTag, writeBurstCount := (c.burstLen req).setWidth 9 }
  else none

/-- `writeData.put`. -/
def writeData (d : ObjectData (32 * c.width.words)) : Option WriteSide :=
  if 0 < s.writeBurstCount ∧ s.writeDataMimo.enqReadyN c.width.words then do
    let writeDataMimo ← s.writeDataMimo.enqN (c.beatWords d)
    return { s with writeDataMimo, writeBurstCount := s.writeBurstCount - 1 }
  else none

/-- `writeDone.get`. -/
def writeDone : Option (BitVec 6 × WriteSide) := do
  let (tag, doneTag) ← s.doneTag.deq
  return (tag.setWidth 6, { s with doneTag })

/-- `readReq.put`, with the beat it has sent. -/
def readReq (req : MemRequest 40) : Option (WriteSide × TLPData) :=
  if !s.writeInProgress ∧ !s.writeDataMimo.deqReadyN 1 then do
    let tlpOutFifo ← s.tlpOutFifo.enq (c.readRequest req)
    return ({ s with tlpOutFifo }, c.readRequest req)
  else none

/-- `tlp.request.get`. -/
def request : Option (TLPData × WriteSide) := do
  let (tlp, tlpOutFifo) ← s.tlpOutFifo.deq
  return (tlp, { s with tlpOutFifo })

end WriteSide

namespace ReadSide

/-- The state after reset. -/
def reset : ReadSide :=
  ⟨.empty, 0, 0, .empty, .empty, .reset 4 (BitVec 32), .reset 4 (BitVec 8)⟩

variable (c : SlaveConfig) (s : ReadSide)

/-- `tlpWordCount`. -/
def tlpWordCount (tlp : TLPData) : LUInt 4 :=
  if tlp.be = 0x0000 then 0
  else if tlp.be = 0x000f ∨ tlp.be = 0xf000 then 1
  else if tlp.be = 0x00ff ∨ tlp.be = 0xff00 then 2
  else if tlp.be = 0x0fff ∨ tlp.be = 0xfff0 then 3
  else if tlp.be = 0xffff then 4
  else 0

/-- `tlp.response.put`. -/
def response (tlp : TLPData) : Option ReadSide := do
  let tlpInFifo ← s.tlpInFifo.enq tlp
  return { s with tlpInFifo }

/-- Rule `tlpInRule`. -/
def tlpInRule : Option ReadSide := do
  let (tlp, tlpInFifo) ← s.tlpInFifo.deq
  let tlpWordCountFifo ← s.tlpWordCountFifo.enq (tlpWordCount tlp)
  let tlpDecodeFifo ← s.tlpDecodeFifo.enq tlp
  return { s with tlpInFifo, tlpWordCountFifo, tlpDecodeFifo }

/-- The dwords of a beat as a vector, the most significant first. -/
def reverseVec (d : BitVec 128) : Fin 4 → BitVec 32 := fun i => d.extractLsb' (32 * (3 - i)) 32

/-- There is room in both queues. -/
def completionReady : Bool := s.completionMimo.enqReady && s.completionTagMimo.enqReady

/-- Data with a tag go into the queues, and the beat they came from is done with. -/
def complete (count : LUInt 4) (vec : Fin 4 → BitVec 32) (tag : BitVec 8) : Option ReadSide := do
  let completionMimo ← s.completionMimo.enq count vec
  let completionTagMimo ← s.completionTagMimo.enq count fun _ => tag
  let (_, tlpDecodeFifo) ← s.tlpDecodeFifo.deq
  let (_, tlpWordCountFifo) ← s.tlpWordCountFifo.deq
  return { s with completionMimo, completionTagMimo, tlpDecodeFifo, tlpWordCountFifo }

/-- Rule `handleTlpRule`. -/
def handleTlpRule : Option ReadSide := do
  let tlp ← s.tlpDecodeFifo.first
  let count ← s.tlpWordCountFifo.first
  let s := { s with hitReg := tlp.hit }
  let hdr3dw := TLPMemoryIO3DWHeader.unpack tlp.data
  let tag := (TLPCompletionHeader.unpack tlp.data).tag
  if !tlp.sof then
    if s.completionReady then s.complete count (reverseVec tlp.data) s.lastTag else some s
  else if hdr3dw.format = .memWrite3DWData ∧ hdr3dw.pkttype = pkttypeCompletion ∧ s.completionReady then
    let s := { s with lastTag := tag }
    s.complete 1 (fun i => if i = 0 then hdr3dw.data else 0) tag
  else some s

/-- Rule `tofifos` of the queue of data. -/
def tofifosData : Option ReadSide := do
  let completionMimo ← s.completionMimo.tofifos
  return { s with completionMimo }

/-- Rule `tofifos` of the queue of tags. -/
def tofifosTag : Option ReadSide := do
  let completionTagMimo ← s.completionTagMimo.tofifos
  return { s with completionTagMimo }

/-- The value that is made of dwords, the first least significant. -/
def joinWords (ds : List (BitVec 32)) : BitVec (32 * c.width.words) :=
  BitVec.ofNat _ (ofWords (ds.map byteSwap).reverse)

/-- `readData.get`, with the value and the tag. -/
def readData : Option (BitVec (32 * c.width.words) × BitVec 6 × ReadSide) :=
  if s.completionMimo.deqReady c.width.words ∧ s.completionTagMimo.deqReady c.width.words then do
    let dataV ← s.completionMimo.first c.width.words
    let tagV ← s.completionTagMimo.first c.width.words
    let tag ← tagV.head?
    let completionMimo ← s.completionMimo.deq c.width.words
    let completionTagMimo ← s.completionTagMimo.deq c.width.words
    return (joinWords c dataV, tag.setWidth 6, { s with completionMimo, completionTagMimo })
  else none

end ReadSide

namespace MemSlaveEngine

/-- The state after reset. -/
def reset : MemSlaveEngine := ⟨.reset, .reset⟩

/-- The methods and the rules. -/
inductive Action (c : SlaveConfig) where
  | writeReq (req : MemRequest 40)
  | writeData (d : ObjectData (32 * c.width.words))
  | writeDone
  | readReq (req : MemRequest 40)
  | request
  | writeHeaderTlp
  | writeTlps (stale : ℕ → BitVec 32)
  | response (tlp : TLPData)
  | tlpInRule
  | handleTlpRule
  | tofifosData
  | tofifosTag
  | readData

/-- What can be seen of a run. -/
inductive Event (c : SlaveConfig) where
  | writeReq (req : MemRequest 40)
  | writeData (d : ObjectData (32 * c.width.words))
  | writeDone (tag : BitVec 6)
  | readReq (req : MemRequest 40)
  /-- A beat is put into `tlpOutFifo`. -/
  | sent (tlp : TLPData)
  /-- A beat is taken from `tlpOutFifo`. -/
  | request (tlp : TLPData)
  | response (tlp : TLPData)
  | readData (data : BitVec (32 * c.width.words)) (tag : BitVec 6)
  deriving DecidableEq

end MemSlaveEngine

open MemSlaveEngine

/-- The module as a system. -/
def memSlaveEngine (c : SlaveConfig) : RuleSystem MemSlaveEngine (Action c) (Event c) where
  step s
    | .writeReq req => do
      let writeSide ← s.writeSide.writeReq c req
      return ({ s with writeSide }, [.writeReq req])
    | .writeData d => do
      let writeSide ← s.writeSide.writeData c d
      return ({ s with writeSide }, [.writeData d])
    | .writeDone => do
      let (tag, writeSide) ← s.writeSide.writeDone
      return ({ s with writeSide }, [.writeDone tag])
    | .readReq req => do
      let (writeSide, tlp) ← s.writeSide.readReq c req
      return ({ s with writeSide }, [.readReq req, .sent tlp])
    | .request => do
      let (tlp, writeSide) ← s.writeSide.request
      return ({ s with writeSide }, [.request tlp])
    | .writeHeaderTlp => do
      let (writeSide, tlp) ← s.writeSide.writeHeaderTlp
      return ({ s with writeSide }, tlp.toList.map .sent)
    | .writeTlps stale => do
      let (writeSide, tlp) ← s.writeSide.writeTlps c stale
      return ({ s with writeSide }, tlp.toList.map .sent)
    | .response tlp => do
      let readSide ← s.readSide.response tlp
      return ({ s with readSide }, [.response tlp])
    | .tlpInRule => do
      let readSide ← s.readSide.tlpInRule
      return ({ s with readSide }, [])
    | .handleTlpRule => do
      let readSide ← s.readSide.handleTlpRule
      return ({ s with readSide }, [])
    | .tofifosData => do
      let readSide ← s.readSide.tofifosData
      return ({ s with readSide }, [])
    | .tofifosTag => do
      let readSide ← s.readSide.tofifosTag
      return ({ s with readSide }, [])
    | .readData => do
      let (data, tag, readSide) ← s.readSide.readData c
      return ({ s with readSide }, [.readData data tag])

/-- Default records that are zero. -/
def zeroDefaults : PcieDefaults where
  tlp := ⟨false, false, 0, 0, 0⟩
  hdr3dw := ⟨⟨0, .memRead3DWNoData, 0, 0, 0, 0, 0, 0, 0, 0, 0, 0, 0, 0, 0, 0⟩, 0, 0, 0⟩
  hdr4dw := ⟨⟨0, .memRead3DWNoData, 0, 0, 0, 0, 0, 0, 0, 0, 0, 0, 0, 0, 0, 0⟩, 0, 0⟩

/-- Beats of two dwords. -/
def twoWords : SlaveConfig := ⟨⟨2, by decide, by decide⟩, 0x0100, zeroDefaults⟩

end Xbsv
