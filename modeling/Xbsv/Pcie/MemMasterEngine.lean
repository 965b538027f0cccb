import Xbsv.Dma.MemTypes
import Xbsv.Pcie.MemSlaveEngine
import Xbsv.Pcie.Tlp
import Xbsv.Rules.Lanes
import Xbsv.Rules.System

set_option relaxedAutoImplicit false
set_option autoImplicit false

/-!
# `MemMasterEngine.bsv`

The host reads and writes the registers of the device in packets. `mkMemMasterEngine` turns the packets into requests
for a slave, and the words the slave returns into completions: a header with the first word, and then four words at
a time.

A dword that does not count, after the last word of a completion, is whatever the memory of the queue holds.

## Main definitions

* `Xbsv.MasterConfig` — what the module is made with.
* `Xbsv.memMasterEngine` — the engine, as a system of rules.

## Main results

* `Xbsv.MemMasterEngine.completionHeader_eq_some` — what the header of a completion takes and sends.
* `Xbsv.MemMasterEngine.continuation_cases` — what the other beats take and send.
-/

namespace Xbsv

open Rules

/-- What the module is made with: its number on the bus, default records, and `getLowerAddr` of the package
`PCIE`. -/
structure MasterConfig where
  myId : BitVec 16
  tlp : TLPData
  completion : TLPCompletionHeader
  getLowerAddr : BitVec 30 → BitVec 4 → BitVec 7

/-- The header of the completion of a read, with its first word. -/
def MasterConfig.completionOf (c : MasterConfig) (hdr : TLPMemoryIO3DWHeader) (d : BitVec 32) :
    TLPCompletionHeader :=
  { c.completion with
    format := .memWrite3DWData
    pkttype := pkttypeCompletion
    relaxed := hdr.relaxed
    nosnoop := hdr.nosnoop
    length := hdr.length
    tclass := hdr.tclass
    cmplid := c.myId
    tag := hdr.tag
    bytecount := 4
    reqid := hdr.reqid
    loweraddr := c.getLowerAddr hdr.addr hdr.firstbe
    data := byteSwap d }

/-- The request for the slave. -/
def TLPMemoryIO3DWHeader.memRequest (hdr : TLPMemoryIO3DWHeader) : MemRequest 32 where
  addr := hdr.addr.setWidth 32 <<< 2
  burstLen := hdr.length.setWidth 8
  tag := hdr.tag.setWidth 6

/-- The state of `mkMemMasterEngine`. -/
structure MemMasterEngine where
  hitReg : BitVec 7
  readHeaderFifo : Fifo 8 TLPMemoryIO3DWHeader
  readDataFifo : Fifo 8 TLPMemoryIO3DWHeader
  writeHeaderFifo : Fifo 8 TLPMemoryIO3DWHeader
  writeDataFifo : Fifo 8 TLPMemoryIO3DWHeader
  tlpOutFifo : Fifo 8 TLPData
  completionMimo : Fifo 4 (BitVec 32)
  readBurstCount : BitVec 10
  readBurstCountGreaterThan4 : Bool
  readInProgress : Bool

namespace MemMasterEngine

/-- After reset. -/
def reset : MemMasterEngine := ⟨0, .empty, .empty, .empty, .empty, .empty, .empty, 0, false, false⟩

/-- The mask of a beat, by the number of dwords left. -/
def tlpBe (len : BitVec 10) : BitVec 16 :=
  if len = 0 then 0
  else if len = 1 then 0xf000
  else if len = 2 then 0xff00
  else if len = 3 then 0xfff0
  else 0xffff

variable (c : MasterConfig) (s : MemMasterEngine)

/-- The first beat of a completion. -/
def headerBeat (hdr : TLPMemoryIO3DWHeader) (d : BitVec 32) : TLPData where
  sof := true
  eof := hdr.length = 1
  hit := s.hitReg
  be := 0xffff
  data := (c.completionOf hdr d).pack

/-- Rule `completionHeader`, with the beat it has sent. -/
def completionHeader : Option (MemMasterEngine × TLPData) :=
  if !s.readInProgress ∧ s.completionMimo.deqReadyN 1 then do
    let hdr ← s.readDataFifo.first
    let d ← s.completionMimo.first
    let completionMimo ← s.completionMimo.deqN 1
    let tlp := headerBeat c s hdr d
    let tlpOutFifo ← s.tlpOutFifo.enq tlp
    let rbc := hdr.length - 1
    let readDataFifo ← s.readDataFifo.dropIf (rbc = 0)
    return ({ s with
      readDataFifo, tlpOutFifo, completionMimo
      readBurstCount := rbc
      readInProgress := rbc ≠ 0
      readBurstCountGreaterThan4 := 4 < rbc }, tlp)
  else none

/-- `completionMimo.first`; what stands after the last word is left over from before. -/
def firstWords (stale : ℕ → BitVec 32) : Option (ℕ → BitVec 32) :=
  if s.completionMimo.items.isEmpty then none
  else some fun i => s.completionMimo.items.getD i (stale i)

/-- The end of `continuation`: the registers, by the number of dwords left. -/
def settle (rbc : BitVec 10) : Option MemMasterEngine := do
  let readDataFifo ← s.readDataFifo.dropIf (rbc = 0)
  return { s with
    readDataFifo
    readBurstCount := rbc
    readBurstCountGreaterThan4 := 4 < rbc
    readInProgress := if rbc = 0 then false else s.readInProgress }

/-- `continuation`, once the number of words is known, their mask, if they are the last, and how many are left. -/
def sendWords (stale : ℕ → BitVec 32) (count : ℕ) (be : BitVec 16) (eof : Bool) (rbc : BitVec 10) :
    Option (MemMasterEngine × Option TLPData) :=
  if s.completionMimo.deqReadyN count then do
    let dvec ← s.firstWords stale
    let completionMimo ← s.completionMimo.deqN count
    let tlp : TLPData := { c.tlp with sof := false, eof, be, data := WriteSide.beatData dvec }
    let tlpOutFifo ← s.tlpOutFifo.enq tlp
    let s' ← { s with completionMimo, tlpOutFifo }.settle rbc
    return (s', some tlp)
  else do
    let s' ← s.settle s.readBurstCount
    return (s', none)

/-- Rule `continuation`, with the beat it has sent. -/
def continuation (stale : ℕ → BitVec 32) : Option (MemMasterEngine × Option TLPData) :=
  if !s.readInProgress then none
  else if s.readBurstCountGreaterThan4 then
    s.sendWords c stale 4 (tlpBe 4) false (s.readBurstCount - 4)
  else
    s.sendWords c stale (s.readBurstCount.setWidth 3).toNat (tlpBe s.readBurstCount) true 0

variable {c s}

/-- What the header of a completion takes and sends. -/
lemma completionHeader_eq_some {s' : MemMasterEngine} {tlp : TLPData}
    (h : s.completionHeader c = some (s', tlp)) :
    ∃ hdr d readDataFifo completionMimo tlpOutFifo, s.readInProgress = false ∧
      s.readDataFifo.first = some hdr ∧ s.readDataFifo.dropIf (hdr.length - 1 = 0) = some readDataFifo ∧
      s.completionMimo.items = d :: completionMimo.items ∧ tlp = s.headerBeat c hdr d ∧
      s.tlpOutFifo.enq tlp = some tlpOutFifo ∧
      s' = { s with
        readDataFifo, tlpOutFifo, completionMimo
        readBurstCount := hdr.length - 1
        readInProgress := hdr.length - 1 ≠ 0
        readBurstCountGreaterThan4 := 4 < hdr.length - 1 } := by
  unfold completionHeader at h
  split at h
  · rename_i hguard
    obtain ⟨hdr, hhdr, h⟩ := Option.bind_eq_some_iff.mp h
    obtain ⟨d, hd, h⟩ := Option.bind_eq_some_iff.mp h
    obtain ⟨m, hm, h⟩ := Option.bind_eq_some_iff.mp h
    obtain ⟨o, ho, h⟩ := Option.bind_eq_some_iff.mp h
    obtain ⟨q, hq, h⟩ := Option.bind_eq_some_iff.mp h
    cases h
    obtain ⟨ds, hds⟩ := Fifo.first_eq_some.mp hd
    obtain ⟨-, hm⟩ := Fifo.deqN_eq_some.mp hm
    have hitems : s.completionMimo.items = d :: m.items := by
      rw [hm, hds]
      rfl
    exact ⟨hdr, d, q, m, o, by simpa using hguard.1, hhdr, hq, hitems, rfl, ho, rfl⟩
  · cases h

/-- The header can be sent when there is a request, a word and room for the beat. -/
lemma exists_completionHeader {hdr : TLPMemoryIO3DWHeader} {hdrs : List TLPMemoryIO3DWHeader}
    (hidle : s.readInProgress = false) (hq : s.readDataFifo.items = hdr :: hdrs)
    (hm : s.completionMimo.items ≠ []) (hout : s.tlpOutFifo.items = []) :
    ∃ s' tlp, s.completionHeader c = some (s', tlp) := by
  obtain ⟨d, ds, hds⟩ := List.exists_cons_of_ne_nil hm
  have hready : s.completionMimo.deqReadyN 1 = true := by
    unfold Fifo.deqReadyN
    rw [hds]
    simp
  have hfirst : s.readDataFifo.first = some hdr := Fifo.first_eq_some.mpr ⟨hdrs, hq⟩
  have hd : s.completionMimo.first = some d := Fifo.first_eq_some.mpr ⟨ds, hds⟩
  have hdeq : ∃ m, s.completionMimo.deqN 1 = some m := by
    unfold Fifo.deqN
    rw [if_pos (by simpa [Fifo.deqReadyN] using hready)]
    exact ⟨_, rfl⟩
  obtain ⟨m, hm⟩ := hdeq
  obtain ⟨o, ho, -⟩ := Fifo.exists_enq (q := s.tlpOutFifo) (by rw [hout]; decide) (s.headerBeat c hdr d)
  obtain ⟨q, hq⟩ := Fifo.exists_dropIf hq (hdr.length - 1 = 0)
  unfold completionHeader
  rw [if_pos ⟨by simp [hidle], hready⟩, hfirst]
  simp only [bind, Option.bind_some, hd, hm, ho, hq]
  exact ⟨_, _, rfl⟩

/-- A beat with words of the queue. -/
def dataBeat (c : MasterConfig) (s : MemMasterEngine) (stale : ℕ → BitVec 32) (be : BitVec 16) (eof : Bool) :
    TLPData :=
  { c.tlp with
    sof := false, eof, be, data := WriteSide.beatData fun i => s.completionMimo.items.getD i (stale i) }

/-- Either the words are there and are sent, or only the registers are written. -/
lemma sendWords_cases {s' : MemMasterEngine} {stale : ℕ → BitVec 32} {count : ℕ} {be : BitVec 16} {eof : Bool}
    {rbc : BitVec 10} {o : Option TLPData} (h : s.sendWords c stale count be eof rbc = some (s', o)) :
    (∃ readDataFifo completionMimo tlpOutFifo, count ≤ s.completionMimo.items.length ∧
      completionMimo.items = s.completionMimo.items.drop count ∧
      s.tlpOutFifo.enq (s.dataBeat c stale be eof) = some tlpOutFifo ∧
      s.readDataFifo.dropIf (rbc = 0) = some readDataFifo ∧
      s' = { s with
        readDataFifo, tlpOutFifo, completionMimo
        readBurstCount := rbc
        readBurstCountGreaterThan4 := 4 < rbc
        readInProgress := if rbc = 0 then false else s.readInProgress }) ∨
    (s.completionMimo.items.length < count ∧ s.settle s.readBurstCount = some s') := by
  unfold sendWords at h
  split at h
  · obtain ⟨dvec, hdvec, h⟩ := Option.bind_eq_some_iff.mp h
    obtain ⟨m, hm, h⟩ := Option.bind_eq_some_iff.mp h
    obtain ⟨o, ho, h⟩ := Option.bind_eq_some_iff.mp h
    obtain ⟨s₁, hs₁, h⟩ := Option.bind_eq_some_iff.mp h
    cases h
    obtain ⟨q, hq, hs₁⟩ := Option.bind_eq_some_iff.mp hs₁
    cases hs₁
    obtain ⟨hcount, hm⟩ := Fifo.deqN_eq_some.mp hm
    unfold firstWords at hdvec
    split at hdvec
    · cases hdvec
    · cases hdvec
      exact .inl ⟨q, m, o, hcount, hm, ho, hq, rfl⟩
  · rename_i hready
    obtain ⟨s₁, hs₁, h⟩ := Option.bind_eq_some_iff.mp h
    cases h
    exact .inr ⟨by simpa [Fifo.deqReadyN] using hready, hs₁⟩

/-- The words can be sent when they are there and there is room for the beat. -/
lemma exists_sendWords {hdr : TLPMemoryIO3DWHeader} {hdrs : List TLPMemoryIO3DWHeader} {count : ℕ}
    (hq : s.readDataFifo.items = hdr :: hdrs) (hpos : 0 < count) (hm : count ≤ s.completionMimo.items.length)
    (hout : s.tlpOutFifo.items = []) (stale : ℕ → BitVec 32) (be : BitVec 16) (eof : Bool) (rbc : BitVec 10) :
    ∃ s' o, s.sendWords c stale count be eof rbc = some (s', o) := by
  have hne : s.completionMimo.items.isEmpty = false := by
    cases hitems : s.completionMimo.items with
    | nil =>
      rw [hitems, List.length_nil] at hm
      omega
    | cons d ds => rfl
  have hready : s.completionMimo.deqReadyN count = true := by simpa [Fifo.deqReadyN] using hm
  have hdeq : ∃ m, s.completionMimo.deqN count = some m := by
    unfold Fifo.deqN
    rw [if_pos hm]
    exact ⟨_, rfl⟩
  obtain ⟨m, hm⟩ := hdeq
  obtain ⟨o, ho, -⟩ := Fifo.exists_enq (q := s.tlpOutFifo) (by rw [hout]; decide) (s.dataBeat c stale be eof)
  obtain ⟨q, hq⟩ := Fifo.exists_dropIf hq (rbc = 0)
  unfold dataBeat at ho
  unfold sendWords firstWords settle
  rw [if_pos hready, hne]
  simp only [Bool.false_eq_true, if_false, bind, Option.bind_some, hm, ho, hq]
  exact ⟨_, _, rfl⟩

variable (c s)

/-- Append to a queue unless it is full. -/
def enqIfRoom {n : ℕ} {α : Type} (q : Fifo n α) (x : α) : Fifo n α := (q.enq x).getD q

/-- `tlp.response.put`. -/
def response (tlp : TLPData) : MemMasterEngine :=
  let hdr3dw := TLPMemoryIO3DWHeader.unpack tlp.data
  if hdr3dw.format = .memRead3DWNoData then
    { s with hitReg := tlp.hit, readHeaderFifo := enqIfRoom s.readHeaderFifo hdr3dw }
  else
    { s with hitReg := tlp.hit, writeHeaderFifo := enqIfRoom s.writeHeaderFifo hdr3dw }

/-- `readReq.get`, with the header the request is made from. -/
def readReq : Option (TLPMemoryIO3DWHeader × MemMasterEngine) := do
  let (hdr, readHeaderFifo) ← s.readHeaderFifo.deq
  let readDataFifo ← s.readDataFifo.enq hdr
  return (hdr, { s with readHeaderFifo, readDataFifo })

/-- `writeReq.get`, with the header the request is made from. -/
def writeReq : Option (TLPMemoryIO3DWHeader × MemMasterEngine) := do
  let (hdr, writeHeaderFifo) ← s.writeHeaderFifo.deq
  let writeDataFifo ← s.writeDataFifo.enq hdr
  return (hdr, { s with writeHeaderFifo, writeDataFifo })

/-- `writeData.get`. -/
def writeData : Option (ObjectData 32 × MemMasterEngine) := do
  let (hdr, writeDataFifo) ← s.writeDataFifo.deq
  return (⟨byteSwap hdr.data, hdr.tag.setWidth 6, true⟩, { s with writeDataFifo })

/-- `readData.put`. -/
def readData (resp : ObjectData 32) : Option MemMasterEngine :=
  if s.completionMimo.enqReadyN 1 then do
    let completionMimo ← s.completionMimo.enqN [resp.data]
    return { s with completionMimo }
  else none

/-- `tlp.request.get`. -/
def request : Option (TLPData × MemMasterEngine) := do
  let (tlp, tlpOutFifo) ← s.tlpOutFifo.deq
  return (tlp, { s with tlpOutFifo })

/-- The methods and the rules. -/
inductive Action where
  | response (tlp : TLPData)
  | request
  | readReq
  | readData (resp : ObjectData 32)
  | writeReq
  | writeData
  | writeDone (tag : BitVec 6)
  | completionHeader
  | continuation (stale : ℕ → BitVec 32)

/-- What can be seen from outside. A request is shown with the header it is made from. -/
inductive Event where
  | response (tlp : TLPData)
  | request (tlp : TLPData)
  | readReq (hdr : TLPMemoryIO3DWHeader) (req : MemRequest 32)
  | readData (resp : ObjectData 32)
  | writeReq (hdr : TLPMemoryIO3DWHeader) (req : MemRequest 32)
  | writeData (data : ObjectData 32)
  | writeDone (tag : BitVec 6)

end MemMasterEngine

/-- `mkMemMasterEngine`. -/
def memMasterEngine (c : MasterConfig) :
    RuleSystem MemMasterEngine MemMasterEngine.Action MemMasterEngine.Event where
  step s
    | .response tlp => some (s.response tlp, [.response tlp])
    | .request => do
      let (tlp, s') ← s.request
      return (s', [.request tlp])
    | .readReq => do
      let (hdr, s') ← s.readReq
      return (s', [.readReq hdr hdr.memRequest])
    | .readData resp => do
      let s' ← s.readData resp
      return (s', [.readData resp])
    | .writeReq => do
      let (hdr, s') ← s.writeReq
      return (s', [.writeReq hdr hdr.memRequest])
    | .writeData => do
      let (data, s') ← s.writeData
      return (s', [.writeData data])
    | .writeDone tag => some (s, [.writeDone tag])
    | .completionHeader => do
      let (s', _) ← s.completionHeader c
      return (s', [])
    | .continuation stale => do
      let (s', _) ← s.continuation c stale
      return (s', [])

end Xbsv
