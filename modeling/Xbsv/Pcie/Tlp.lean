import Mathlib.Data.BitVec
import Mathlib.Tactic.Common

set_option relaxedAutoImplicit false
set_option autoImplicit false

/-!
# Transaction layer packets

The records of the package `PCIE` that comes with the compiler, with the layout of their bits, the first
field most significant. A packet is sent in beats of 16 bytes, each with a mask of the bytes that count. The
four dwords of a beat are in order from the most significant one on.

## Main definitions

* `Xbsv.TLPData` — one beat.
* `Xbsv.TLPRequestHeader`, `Xbsv.TLPMemoryIO3DWHeader`, `Xbsv.TLPMemory4DWHeader`,
  `Xbsv.TLPCompletionHeader` — headers, with `pack` and `unpack`.
* `Xbsv.TLPData.dwords` — the dwords of a beat that count.
* `Xbsv.packets`, `Xbsv.IsPacket` — a stream of beats, cut after every `eof`.

## Main results

* `Xbsv.TLPMemoryIO3DWHeader.unpack_pack`, `Xbsv.TLPMemory4DWHeader.unpack_pack`,
  `Xbsv.TLPCompletionHeader.unpack_pack` — nothing is lost in a header.
* `Xbsv.packets_concat` — the packets of a stream, with one more beat.
-/

namespace Xbsv

/-- One beat of a packet, `TLPData#(16)`. -/
@[ext]
structure TLPData where
  sof : Bool
  eof : Bool
  hit : BitVec 7
  be : BitVec 16
  data : BitVec 128
  deriving DecidableEq

/-- `TLPPacketFormat`, in the order of the encoding. -/
inductive TLPPacketFormat where
  | memRead3DWNoData | memRead4DWNoData | memWrite3DWData | memWrite4DWData
  deriving DecidableEq

namespace TLPPacketFormat

/-- The encoding. -/
def pack : TLPPacketFormat → BitVec 2
  | memRead3DWNoData => 0
  | memRead4DWNoData => 1
  | memWrite3DWData => 2
  | memWrite4DWData => 3

/-- The format with an encoding. -/
def unpack (b : BitVec 2) : TLPPacketFormat :=
  if b = 0 then memRead3DWNoData
  else if b = 1 then memRead4DWNoData
  else if b = 2 then memWrite3DWData
  else memWrite4DWData

@[simp] lemma unpack_pack (f : TLPPacketFormat) : unpack f.pack = f := by
  cases f <;> rfl

end TLPPacketFormat

/-- `COMPLETION`, a value of `TLPPacketType`, of which only some have names. -/
def pkttypeCompletion : BitVec 5 := 10

/-- The first two dwords of the header of a request. -/
@[ext]
structure TLPRequestHeader where
  reserved1 : BitVec 1
  format : TLPPacketFormat
  pkttype : BitVec 5
  reserved2 : BitVec 1
  tclass : BitVec 3
  reserved3 : BitVec 4
  digest : BitVec 1
  poison : BitVec 1
  relaxed : BitVec 1
  nosnoop : BitVec 1
  reserved4 : BitVec 2
  length : BitVec 10
  reqid : BitVec 16
  tag : BitVec 8
  lastbe : BitVec 4
  firstbe : BitVec 4
  deriving DecidableEq

namespace TLPRequestHeader

/-- The bits of the two dwords. -/
def pack (h : TLPRequestHeader) : BitVec 64 :=
  h.reserved1 ++ (h.format.pack ++ (h.pkttype ++ (h.reserved2 ++ (h.tclass ++ (h.reserved3 ++
    (h.digest ++ (h.poison ++ (h.relaxed ++ (h.nosnoop ++ (h.reserved4 ++ (h.length ++
    (h.reqid ++ (h.tag ++ (h.lastbe ++ h.firstbe))))))))))))))

/-- The fields at their places. -/
def unpack (d : BitVec 64) : TLPRequestHeader where
  reserved1 := d.extractLsb' 63 1
  format := .unpack (d.extractLsb' 61 2)
  pkttype := d.extractLsb' 56 5
  reserved2 := d.extractLsb' 55 1
  tclass := d.extractLsb' 52 3
  reserved3 := d.extractLsb' 48 4
  digest := d.extractLsb' 47 1
  poison := d.extractLsb' 46 1
  relaxed := d.extractLsb' 45 1
  nosnoop := d.extractLsb' 44 1
  reserved4 := d.extractLsb' 42 2
  length := d.extractLsb' 32 10
  reqid := d.extractLsb' 16 16
  tag := d.extractLsb' 8 8
  lastbe := d.extractLsb' 4 4
  firstbe := d.extractLsb' 0 4

@[simp] lemma unpack_pack (h : TLPRequestHeader) : unpack h.pack = h := by
  unfold unpack pack
  ext1 <;>
    simp (disch := decide) only [BitVec.extractLsb'_append_eq_of_add_le, BitVec.extractLsb'_append_eq_of_le,
      BitVec.extractLsb'_eq_self, Nat.sub_self, TLPPacketFormat.unpack_pack]

end TLPRequestHeader

/-- The header of a request with a short address; the last dword of the beat is data. -/
@[ext]
structure TLPMemoryIO3DWHeader extends TLPRequestHeader where
  addr : BitVec 30
  reserved5 : BitVec 2
  data : BitVec 32
  deriving DecidableEq

/-- The header of a request with a long address. -/
@[ext]
structure TLPMemory4DWHeader extends TLPRequestHeader where
  addr : BitVec 62
  reserved5 : BitVec 2
  deriving DecidableEq

/-- The header of a completion; the last dword of the beat is data. -/
@[ext]
structure TLPCompletionHeader where
  reserved1 : BitVec 1
  format : TLPPacketFormat
  pkttype : BitVec 5
  reserved2 : BitVec 1
  tclass : BitVec 3
  reserved3 : BitVec 4
  digest : BitVec 1
  poison : BitVec 1
  relaxed : BitVec 1
  nosnoop : BitVec 1
  reserved4 : BitVec 2
  length : BitVec 10
  cmplid : BitVec 16
  cstatus : BitVec 3
  bcm : BitVec 1
  bytecount : BitVec 12
  reqid : BitVec 16
  tag : BitVec 8
  reserved5 : BitVec 1
  loweraddr : BitVec 7
  data : BitVec 32
  deriving DecidableEq

namespace TLPMemoryIO3DWHeader

/-- The bits of the header. -/
def pack (h : TLPMemoryIO3DWHeader) : BitVec 128 :=
  h.toTLPRequestHeader.pack ++ ((h.addr ++ h.reserved5) ++ h.data)

/-- The fields at their places. -/
def unpack (d : BitVec 128) : TLPMemoryIO3DWHeader where
  toTLPRequestHeader := .unpack (d.extractLsb' 64 64)
  addr := d.extractLsb' 34 30
  reserved5 := d.extractLsb' 32 2
  data := d.extractLsb' 0 32

@[simp] lemma unpack_pack (h : TLPMemoryIO3DWHeader) : unpack h.pack = h := by
  unfold unpack pack
  simp (disch := decide) only [BitVec.extractLsb'_append_eq_of_add_le, BitVec.extractLsb'_append_eq_of_le,
    BitVec.extractLsb'_eq_self, Nat.sub_self, TLPRequestHeader.unpack_pack]

end TLPMemoryIO3DWHeader

namespace TLPMemory4DWHeader

/-- The bits of the header. -/
def pack (h : TLPMemory4DWHeader) : BitVec 128 :=
  h.toTLPRequestHeader.pack ++ (h.addr ++ h.reserved5)

/-- The fields at their places. -/
def unpack (d : BitVec 128) : TLPMemory4DWHeader where
  toTLPRequestHeader := .unpack (d.extractLsb' 64 64)
  addr := d.extractLsb' 2 62
  reserved5 := d.extractLsb' 0 2

@[simp] lemma unpack_pack (h : TLPMemory4DWHeader) : unpack h.pack = h := by
  unfold unpack pack
  simp (disch := decide) only [BitVec.extractLsb'_append_eq_of_add_le, BitVec.extractLsb'_append_eq_of_le,
    BitVec.extractLsb'_eq_self, Nat.sub_self, TLPRequestHeader.unpack_pack]

end TLPMemory4DWHeader

namespace TLPCompletionHeader

/-- The fields at their places. -/
def unpack (d : BitVec 128) : TLPCompletionHeader where
  reserved1 := d.extractLsb' 127 1
  format := .unpack (d.extractLsb' 125 2)
  pkttype := d.extractLsb' 120 5
  reserved2 := d.extractLsb' 119 1
  tclass := d.extractLsb' 116 3
  reserved3 := d.extractLsb' 112 4
  digest := d.extractLsb' 111 1
  poison := d.extractLsb' 110 1
  relaxed := d.extractLsb' 109 1
  nosnoop := d.extractLsb' 108 1
  reserved4 := d.extractLsb' 106 2
  length := d.extractLsb' 96 10
  cmplid := d.extractLsb' 80 16
  cstatus := d.extractLsb' 77 3
  bcm := d.extractLsb' 76 1
  bytecount := d.extractLsb' 64 12
  reqid := d.extractLsb' 48 16
  tag := d.extractLsb' 40 8
  reserved5 := d.extractLsb' 39 1
  loweraddr := d.extractLsb' 32 7
  data := d.extractLsb' 0 32

/-- The bits of the header. -/
def pack (h : TLPCompletionHeader) : BitVec 128 :=
  h.reserved1 ++ (h.format.pack ++ (h.pkttype ++ (h.reserved2 ++ (h.tclass ++ (h.reserved3 ++
    (h.digest ++ (h.poison ++ (h.relaxed ++ (h.nosnoop ++ (h.reserved4 ++ (h.length ++
    (h.cmplid ++ (h.cstatus ++ (h.bcm ++ (h.bytecount ++ (h.reqid ++ (h.tag ++ (h.reserved5 ++
    (h.loweraddr ++ h.data)))))))))))))))))))

@[simp] lemma unpack_pack (h : TLPCompletionHeader) : unpack h.pack = h := by
  unfold unpack pack
  ext1 <;>
    simp (disch := decide) only [BitVec.extractLsb'_append_eq_of_add_le, BitVec.extractLsb'_append_eq_of_le,
      BitVec.extractLsb'_eq_self, Nat.sub_self, TLPPacketFormat.unpack_pack]

end TLPCompletionHeader

section FirstDwords

/-! The first two dwords of a header do not depend on how the others are read. -/

variable (h3 : TLPMemoryIO3DWHeader) (h4 : TLPMemory4DWHeader)

@[simp] lemma unpack3dw_pack3dw :
    (TLPMemoryIO3DWHeader.unpack h3.pack).toTLPRequestHeader = h3.toTLPRequestHeader :=
  congrArg TLPMemoryIO3DWHeader.toTLPRequestHeader h3.unpack_pack

@[simp] lemma unpack4dw_pack4dw :
    (TLPMemory4DWHeader.unpack h4.pack).toTLPRequestHeader = h4.toTLPRequestHeader :=
  congrArg TLPMemory4DWHeader.toTLPRequestHeader h4.unpack_pack

@[simp] lemma unpack3dw_pack4dw :
    (TLPMemoryIO3DWHeader.unpack h4.pack).toTLPRequestHeader = h4.toTLPRequestHeader := unpack4dw_pack4dw h4

@[simp] lemma unpack4dw_pack3dw :
    (TLPMemory4DWHeader.unpack h3.pack).toTLPRequestHeader = h3.toTLPRequestHeader := unpack3dw_pack3dw h3

end FirstDwords

/-- `defaultValue` of the records. -/
structure PcieDefaults where
  tlp : TLPData
  hdr3dw : TLPMemoryIO3DWHeader
  hdr4dw : TLPMemory4DWHeader

/-- `byteSwap`. -/
def byteSwap (x : BitVec 32) : BitVec 32 :=
  x.extractLsb' 0 8 ++ (x.extractLsb' 8 8 ++ (x.extractLsb' 16 8 ++ x.extractLsb' 24 8))

/-- The dwords of a beat, in the order of the packet. -/
def lanes (d : BitVec 128) : List (BitVec 32) :=
  [d.extractLsb' 96 32, d.extractLsb' 64 32, d.extractLsb' 32 32, d.extractLsb' 0 32]

/-- The dwords of a beat that is made of dwords. -/
lemma lanes_append (x y z t : BitVec 32) : lanes (x ++ (y ++ (z ++ t))) = [x, y, z, t] := by
  unfold lanes
  simp (disch := decide) only [BitVec.extractLsb'_append_eq_of_add_le, BitVec.extractLsb'_append_eq_of_le,
    BitVec.extractLsb'_eq_self, Nat.sub_self]

/-- The dwords of a beat with a short header: the last is data. -/
lemma lanes_pack3dw (h : TLPMemoryIO3DWHeader) :
    lanes h.pack = [h.toTLPRequestHeader.pack.extractLsb' 32 32, h.toTLPRequestHeader.pack.extractLsb' 0 32,
      h.addr ++ h.reserved5, h.data] := by
  unfold lanes TLPMemoryIO3DWHeader.pack
  simp (disch := decide) only [BitVec.extractLsb'_append_eq_of_add_le, BitVec.extractLsb'_append_eq_of_le,
    BitVec.extractLsb'_eq_self, Nat.sub_self]

/-- The dwords of a long header. -/
lemma lanes_pack4dw (h : TLPMemory4DWHeader) :
    lanes h.pack = [h.toTLPRequestHeader.pack.extractLsb' 32 32, h.toTLPRequestHeader.pack.extractLsb' 0 32,
      (h.addr ++ h.reserved5).extractLsb' 32 32, (h.addr ++ h.reserved5).extractLsb' 0 32] := by
  unfold lanes TLPMemory4DWHeader.pack
  simp (disch := decide) only [BitVec.extractLsb'_append_eq_of_add_le, BitVec.extractLsb'_append_eq_of_le,
    Nat.sub_self]

namespace TLPData

/-- The dwords that count. -/
def dwords (t : TLPData) : List (BitVec 32) :=
  [3, 2, 1, 0].filterMap fun i =>
    if t.be.extractLsb' (4 * i) 4 = 0xf then some (t.data.extractLsb' (32 * i) 32) else none

/-- The number of dwords that count is known from the mask, if these are the first ones. -/
lemma dwords_eq (t : TLPData) {k : ℕ} (hk : k ≤ 4)
    (hbe : t.be = (BitVec.allOnes 16) <<< (16 - 4 * k)) : t.dwords = (lanes t.data).take k := by
  unfold dwords lanes
  rw [hbe]
  obtain rfl | rfl | rfl | rfl | rfl : k = 0 ∨ k = 1 ∨ k = 2 ∨ k = 3 ∨ k = 4 := by omega
  all_goals rfl

end TLPData

/-! ## Packets -/

/-- A beat is added to the packets so far and the one that has begun. -/
def addBeat (ps : List (List TLPData) × List TLPData) (t : TLPData) : List (List TLPData) × List TLPData :=
  if t.eof then (ps.1 ++ [ps.2 ++ [t]], []) else (ps.1, ps.2 ++ [t])

/-- The packets of a stream of beats, which is cut after every `eof`, and the beats after the last. -/
def packets (l : List TLPData) : List (List TLPData) × List TLPData := l.foldl addBeat ([], [])

/-- The packets of a stream, with one more beat. -/
lemma packets_concat (l : List TLPData) (t : TLPData) : packets (l ++ [t]) = addBeat (packets l) t := by
  unfold packets
  rw [List.foldl_append]
  rfl

/-- `sof` is on the first of the beats only. -/
def SofFirst : List TLPData → Prop
  | [] => True
  | t :: ts => t.sof = true ∧ ∀ t' ∈ ts, t'.sof = false

/-- A packet has `sof` on its first beat only and `eof` on its last only. -/
def IsPacket (p : List TLPData) : Prop :=
  SofFirst p ∧ ∃ ts t, p = ts ++ [t] ∧ t.eof = true ∧ ∀ t' ∈ ts, t'.eof = false

/-- The beats of a packet that has begun. -/
def IsPartial (p : List TLPData) : Prop := SofFirst p ∧ ∀ t ∈ p, t.eof = false

/-- The format in the first dword of a packet. -/
def formatOf (ds : List (BitVec 32)) : Option TLPPacketFormat :=
  ds.head?.map fun d => .unpack (d.extractLsb' 29 2)

/-- The length in the first dword of a packet. -/
def lengthOf (ds : List (BitVec 32)) : ℕ := (ds.head?.map fun d => (d.extractLsb' 0 10).toNat).getD 0

/-- The number of dwords in a header. -/
def TLPPacketFormat.headerLength : TLPPacketFormat → ℕ
  | memRead3DWNoData => 3
  | memRead4DWNoData => 4
  | memWrite3DWData => 3
  | memWrite4DWData => 4

/-- Bits of some of the bits. -/
lemma extractLsb'_extractLsb' {w i n j k : ℕ} (x : BitVec w) (h : j + k ≤ n) :
    (x.extractLsb' i n).extractLsb' j k = x.extractLsb' (i + j) k := by
  ext b hb
  rw [BitVec.getElem_extractLsb', BitVec.getElem_extractLsb', BitVec.getLsbD_extractLsb',
    Nat.add_assoc]
  simp only [show j + b < n by omega, decide_true, Bool.true_and]

/-- The format is where `formatOf` finds it. -/
lemma formatOf_pack (h : TLPRequestHeader) (ds : List (BitVec 32)) :
    formatOf (h.pack.extractLsb' 32 32 :: ds) = some h.format := by
  show some (TLPPacketFormat.unpack ((h.pack.extractLsb' 32 32).extractLsb' 29 2)) = _
  rw [extractLsb'_extractLsb' _ (by decide)]
  exact congrArg (fun g => some g.format) (TLPRequestHeader.unpack_pack h)

/-- The length is where `lengthOf` finds it. -/
lemma lengthOf_pack (h : TLPRequestHeader) (ds : List (BitVec 32)) :
    lengthOf (h.pack.extractLsb' 32 32 :: ds) = h.length.toNat := by
  show ((h.pack.extractLsb' 32 32).extractLsb' 0 10).toNat = _
  rw [extractLsb'_extractLsb' _ (by decide)]
  exact congrArg (fun g => g.length.toNat) (TLPRequestHeader.unpack_pack h)

/-- The dwords of a packet that count. -/
def packetDwords (p : List TLPData) : List (BitVec 32) := p.flatMap TLPData.dwords

/-- The packet is a memory write. -/
def isWrite (p : List TLPData) : Bool :=
  formatOf (packetDwords p) = some .memWrite3DWData ∨ formatOf (packetDwords p) = some .memWrite4DWData

/-- The number of dwords in the header of a packet. -/
def headerLength (ds : List (BitVec 32)) : ℕ := ((formatOf ds).map TLPPacketFormat.headerLength).getD 0

/-- The header of a packet. -/
def packetHeader (p : List TLPData) : List (BitVec 32) :=
  (packetDwords p).take (headerLength (packetDwords p))

/-- The data of a packet. -/
def payload (p : List TLPData) : List (BitVec 32) := (packetDwords p).drop (headerLength (packetDwords p))

end Xbsv
