import Xbsv.Pcie.MemSlaveEngine

set_option relaxedAutoImplicit false
set_option autoImplicit false

/-!
# One beat of a write packet

What the two rules that send write packets do when they fire. Each either does nothing, because it has to
wait for data, or sends one beat: the header, with at most one dword of data, or up to four dwords.

## Main definitions

* `Xbsv.SlaveConfig.headerDwords` — the header of a write request, as dwords.
* `Xbsv.WriteSide.Beat` — a beat with some dwords of data has been sent.

## Main results

* `Xbsv.WriteSide.writeHeaderTlp_cases`, `Xbsv.WriteSide.writeTlps_cases` — the rules.
-/

namespace Xbsv

open Rules

/-! ## Headers -/

/-- The format of a write request. -/
def writeFormat (req : MemRequest 40) : TLPPacketFormat :=
  if req.addr >>> 32 ≠ 0 then .memWrite4DWData else .memWrite3DWData

namespace SlaveConfig

variable (c : SlaveConfig)

/-- The dwords of the header of a write request. -/
def headerDwords (req : MemRequest 40) : List (BitVec 32) :=
  if req.addr >>> 32 ≠ 0 then lanes (c.hdr4dw .memWrite4DWData req).pack
  else (lanes (c.hdr3dw .memWrite3DWData req).pack).take 3

variable (req : MemRequest 40) (ds : List (BitVec 32))

/-- The header of a request of up to 255 bytes holds its length. -/
lemma toNat_tlplen : (c.tlplen req).toNat = c.width.words * (c.burstLen req).toNat := by
  have hw := c.width.le
  have hb := (c.burstLen req).isLt
  have hle : c.width.words * (c.burstLen req).toNat ≤ 4 * 255 := Nat.mul_le_mul hw (by omega)
  unfold tlplen
  rw [BitVec.toNat_mul, BitVec.toNat_ofNat, BitVec.toNat_setWidth,
    Nat.mod_eq_of_lt (by omega : c.width.words < 2 ^ 10), Nat.mod_eq_of_lt (by omega : (c.burstLen req).toNat < 2 ^ 10),
    Nat.mod_eq_of_lt (by omega)]

/-- The header begins with the format and the length. -/
lemma exists_headerDwords : ∃ h : TLPRequestHeader, h.format = writeFormat req ∧
    h.length = c.tlplen req ∧
    ∃ rest, c.headerDwords req = h.pack.extractLsb' 32 32 :: rest ∧
      (c.headerDwords req).length = (writeFormat req).headerLength := by
  unfold headerDwords writeFormat
  split
  · rw [lanes_pack4dw]
    exact ⟨(c.hdr4dw .memWrite4DWData req).toTLPRequestHeader, rfl, rfl, _, rfl, rfl⟩
  · rw [lanes_pack3dw]
    exact ⟨(c.hdr3dw .memWrite3DWData req).toTLPRequestHeader, rfl, rfl, _, rfl, rfl⟩

@[simp] lemma formatOf_headerDwords :
    formatOf (c.headerDwords req ++ ds) = some (writeFormat req) := by
  obtain ⟨h, hformat, -, rest, hdw, -⟩ := c.exists_headerDwords req
  rw [hdw, List.cons_append, formatOf_pack, hformat]

@[simp] lemma lengthOf_headerDwords :
    lengthOf (c.headerDwords req ++ ds) = c.width.words * (c.burstLen req).toNat := by
  obtain ⟨h, -, hlength, rest, hdw, -⟩ := c.exists_headerDwords req
  rw [hdw, List.cons_append, lengthOf_pack, hlength, toNat_tlplen]

lemma length_headerDwords : (c.headerDwords req).length = headerLength (c.headerDwords req ++ ds) := by
  obtain ⟨h, -, -, rest, -, hlen⟩ := c.exists_headerDwords req
  unfold headerLength
  rw [formatOf_headerDwords, hlen]
  rfl

/-- The packet of a read request is not a write packet. -/
lemma isWrite_readRequest : isWrite [c.readRequest req] = false := by
  have hformat : formatOf (packetDwords [c.readRequest req]) = some .memRead4DWNoData ∨
      formatOf (packetDwords [c.readRequest req]) = some .memRead3DWNoData := by
    unfold packetDwords
    rw [List.flatMap_singleton]
    unfold readRequest
    split
    · left
      rw [TLPData.dwords_eq _ (Nat.le_refl 4) rfl, lanes_pack4dw]
      exact formatOf_pack (c.hdr4dw .memRead4DWNoData req).toTLPRequestHeader _
    · right
      rw [TLPData.dwords_eq _ (by decide : 3 ≤ 4) rfl, lanes_pack3dw]
      exact formatOf_pack (c.hdr3dw .memRead3DWNoData req).toTLPRequestHeader _
  unfold isWrite
  rcases hformat with h | h <;> rw [h] <;> rfl

lemma readRequest_sof : (c.readRequest req).sof = true := by
  unfold readRequest
  split <;> rfl

lemma readRequest_eof : (c.readRequest req).eof = true := by
  unfold readRequest
  split <;> rfl

end SlaveConfig

namespace WriteSide

variable {c : SlaveConfig} {s s' : WriteSide}

/-- A beat with `k` dwords of data has been sent, after which `left` are left to send. -/
structure Beat (s s' : WriteSide) (tlp : TLPData) (k left : ℕ) : Prop where
  out : s'.tlpOutFifo.items = s.tlpOutFifo.items ++ [tlp]
  available : k ≤ s.writeDataMimo.items.length
  data : s'.writeDataMimo.items = s.writeDataMimo.items.drop k
  burstCount : s'.writeBurstCount = s.writeBurstCount
  dwCount : s'.writeDwCount.toNat = left
  inProgress : s'.writeInProgress = decide (left ≠ 0)
  eof : tlp.eof = decide (left = 0)
  more : left ≠ 0 → s'.writeTag.items = s.writeTag.items ∧ s'.doneTag.items = s.doneTag.items
  /-- With the last beat the request is done. -/
  done : left = 0 → ∃ tag, s.writeTag.items = tag :: s'.writeTag.items ∧
    s'.doneTag.items = s.doneTag.items ++ [tag]

/-- The tag moves if the request has been sent. -/
lemma finishIf_eq_some {b : Bool} {writeTag doneTag : Fifo 16 (BitVec 8)}
    (h : s.finishIf b = some (writeTag, doneTag)) :
    (b = false → writeTag.items = s.writeTag.items ∧ doneTag.items = s.doneTag.items) ∧
      (b = true → ∃ tag, s.writeTag.items = tag :: writeTag.items ∧
        doneTag.items = s.doneTag.items ++ [tag]) := by
  unfold finishIf at h
  cases b with
  | false =>
    simp only [Bool.false_eq_true, if_false, Option.some.injEq, Prod.mk.injEq] at h
    obtain ⟨rfl, rfl⟩ := h
    exact ⟨fun _ => ⟨rfl, rfl⟩, fun h => (by cases h)⟩
  | true =>
    simp only [if_true, bind, pure, Option.bind_eq_some_iff, Prod.exists, Fifo.deq_eq_some, Fifo.enq_eq_some,
      Option.some.injEq, Prod.mk.injEq] at h
    obtain ⟨tag, q, hq, q', ⟨-, hq'⟩, rfl, rfl⟩ := h
    exact ⟨fun h => (by cases h), fun _ => ⟨tag, hq, hq'⟩⟩

/-- The dwords of a beat of data: those that were there come first. -/
lemma take_lanes_beatData {v stale : ℕ → BitVec 32} {k : ℕ} (hk : k ≤ 4)
    (hv : s.firstDwords stale = some v) (hlen : k ≤ s.writeDataMimo.items.length) :
    (lanes (beatData v)).take k = (s.writeDataMimo.items.take k).map byteSwap := by
  unfold firstDwords at hv
  split at hv
  · cases hv
  · cases hv
    exact take_lanes_getD hk hlen stale

/-- The mask of the last beat counts the dwords that are left. -/
lemma lastBe_eq {d : BitVec 10} (hpos : 0 < d.toNat) (hle : d.toNat ≤ 4) :
    lastBe c d = BitVec.allOnes 16 <<< (16 - 4 * d.toNat) := by
  have hd : d = 1 ∨ d = 2 ∨ d = 3 ∨ d = 4 := by
    have h : d.toNat = 1 ∨ d.toNat = 2 ∨ d.toNat = 3 ∨ d.toNat = 4 := by omega
    rcases h with h | h | h | h
    · exact .inl (BitVec.eq_of_toNat_eq h)
    · exact .inr (.inl (BitVec.eq_of_toNat_eq h))
    · exact .inr (.inr (.inl (BitVec.eq_of_toNat_eq h)))
    · exact .inr (.inr (.inr (BitVec.eq_of_toNat_eq h)))
  rcases hd with rfl | rfl | rfl | rfl <;> rfl

/-- **Data are sent.** The rule `writeTlps` has to wait, or it sends as many dwords as a beat holds or as
are left. -/
lemma writeTlps_cases {stale : ℕ → BitVec 32} {o : Option TLPData} (hpos : 0 < s.writeDwCount.toNat)
    (h : s.writeTlps c stale = some (s', o)) :
    s.writeInProgress = true ∧ ((o = none ∧ s' = s) ∨
      ∃ tlp k, o = some tlp ∧ 0 < k ∧ k ≤ s.writeDwCount.toNat ∧
        Beat s s' tlp k (s.writeDwCount.toNat - k) ∧ tlp.sof = false ∧
        tlp.dwords = (s.writeDataMimo.items.take k).map byteSwap ∧
        s'.tlpWriteHeaderFifo = s.tlpWriteHeaderFifo ∧ (tlp.eof = false → tlp.be = 0xffff)) := by
  unfold writeTlps at h
  have hlast : s.writeDwCount ≤ 4 → ((s.writeDwCount.setWidth _ : LUInt 4)).toNat = s.writeDwCount.toNat := by
    intro hle
    have hle' : s.writeDwCount.toNat ≤ 4 := hle
    exact Nat.mod_eq_of_lt (Nat.lt_of_le_of_lt hle' (by decide))
  cases hprog : s.writeInProgress with
  | false => simp [hprog] at h
  | true =>
    refine ⟨rfl, ?_⟩
    simp only [hprog, Bool.not_true, Bool.false_eq_true, if_false] at h
    split at h
    · rename_i hmany
      obtain ⟨hgt, -⟩ := hmany
      have hgt' : 4 < s.writeDwCount.toNat := hgt
      simp only [bind, pure, Option.bind_eq_some_iff, Fifo.deqN_eq_some, Fifo.enq_eq_some, Option.some.injEq,
        Prod.mk.injEq] at h
      obtain ⟨v, hv, q, ⟨hlen, hq⟩, out, ⟨-, hout⟩, rfl, rfl⟩ := h
      refine .inr ⟨_, 4, rfl, by omega, by omega, ⟨hout, hlen, hq, rfl, ?_, ?_, ?_, fun _ => ⟨rfl, rfl⟩,
        fun h0 => ?_⟩, rfl, ?_, rfl, fun _ => rfl⟩
      · show (s.writeDwCount - 4).toNat = _
        rw [BitVec.toNat_sub_of_le (BitVec.le_of_lt hgt)]
        rfl
      · exact (decide_eq_true (by omega : s.writeDwCount.toNat - 4 ≠ 0)).symm
      · exact (decide_eq_false (by omega : ¬ s.writeDwCount.toNat - 4 = 0)).symm
      · omega
      · rw [TLPData.dwords_eq _ (Nat.le_refl 4) rfl]
        exact take_lanes_beatData (Nat.le_refl 4) hv hlen
    · split at h
      · rename_i hfew
        obtain ⟨hle, -⟩ := hfew
        have hle' : s.writeDwCount.toNat ≤ 4 := hle
        rw [hlast hle] at h
        simp only [bind, pure, Option.bind_eq_some_iff, Prod.exists, Fifo.deqN_eq_some, Fifo.enq_eq_some,
          Option.some.injEq, Prod.mk.injEq] at h
        obtain ⟨v, hv, q, ⟨hlen, hq⟩, writeTag, doneTag, hfinish, out, ⟨-, hout⟩, rfl, rfl⟩ := h
        have htags := (finishIf_eq_some hfinish).2 rfl
        have hzero : s.writeDwCount.toNat - s.writeDwCount.toNat = 0 := Nat.sub_self _
        refine .inr ⟨_, s.writeDwCount.toNat, rfl, hpos, Nat.le_refl _, ⟨hout, hlen, hq, rfl, ?_, ?_, ?_,
          fun h0 => absurd hzero h0, fun _ => htags⟩, rfl, ?_, rfl, fun h => by cases h⟩
        · exact hzero.symm
        · exact (decide_eq_false (not_not.mpr hzero)).symm
        · exact (decide_eq_true hzero).symm
        · rw [TLPData.dwords_eq _ hle' (lastBe_eq hpos hle')]
          exact take_lanes_beatData hle' hv hlen
      · cases h
        exact .inl ⟨rfl, rfl⟩

section Header

variable {req : MemRequest 40}

/-- The fields that the rule `writeHeaderTlp` reads in a header. -/
lemma unpack_writeHeader :
    (TLPMemory4DWHeader.unpack (c.writeHeader req).data).format = writeFormat req ∧
      (TLPMemory4DWHeader.unpack (c.writeHeader req).data).length = c.tlplen req ∧
      (TLPMemoryIO3DWHeader.unpack (c.writeHeader req).data).format = writeFormat req := by
  unfold SlaveConfig.writeHeader writeFormat
  split
  · exact ⟨congrArg TLPRequestHeader.format (unpack4dw_pack4dw _),
      congrArg TLPRequestHeader.length (unpack4dw_pack4dw _),
      congrArg TLPRequestHeader.format (unpack3dw_pack4dw _)⟩
  · exact ⟨congrArg TLPRequestHeader.format (unpack4dw_pack3dw _),
      congrArg TLPRequestHeader.length (unpack4dw_pack3dw _),
      congrArg TLPRequestHeader.format (unpack3dw_pack3dw _)⟩

/-- What the rule `writeHeaderTlp` sends: the header with `k` dwords of data. -/
structure Attempt.Sends (c : SlaveConfig) (s : WriteSide) (req : MemRequest 40) (a : Attempt) (k : ℕ) :
    Prop where
  available : k ≤ s.writeDataMimo.items.length
  data : a.writeDataMimo.items = s.writeDataMimo.items.drop k
  le : k ≤ (c.tlplen req).toNat
  dwCount : a.dwCount.toNat = (c.tlplen req).toNat - k
  sof : a.tlp.sof = true
  eof : a.tlp.eof = decide ((c.tlplen req).toNat - k = 0)
  dwords : a.tlp.dwords = c.headerDwords req ++ (s.writeDataMimo.items.take k).map byteSwap
  be : s.writeDataMimo.items ≠ [] → a.tlp.be = 0xffff

/-- A long header is sent alone, and only if there are data. -/
lemma attempt_long {a : Attempt} (hlong : req.addr >>> 32 ≠ 0) (hpos : 0 < (c.tlplen req).toNat)
    (ha : s.attempt3dw (c.writeHeader req) = some a)
    (hsend : (s.attempt4dw (c.writeHeader req) a).sendit = true) :
    s.writeDataMimo.items ≠ [] ∧ (s.attempt4dw (c.writeHeader req) a).Sends c s req 0 := by
  obtain ⟨h4, hlen, h3⟩ := @unpack_writeHeader c req
  have hformat : writeFormat req = .memWrite4DWData := if_pos hlong
  rw [hformat] at h4 h3
  simp only [attempt3dw, h3, reduceCtorEq, false_and, if_false, pure, Option.some.injEq, hlen] at ha
  subst ha
  simp only [attempt4dw, h4, true_and] at hsend ⊢
  have hready : s.writeDataMimo.deqReadyN 1 = true := by
    by_contra hn
    simp [hn] at hsend
  have hne : s.writeDataMimo.items ≠ [] := by
    intro hnil
    simp [Fifo.deqReadyN, hnil] at hready
  rw [if_pos hready]
  have hheader : c.writeHeader req =
      ⟨true, false, 0, 0xffff, (c.hdr4dw .memWrite4DWData req).pack⟩ := if_pos hlong
  rw [hheader]
  refine ⟨hne, ⟨Nat.zero_le _, rfl, Nat.zero_le _, rfl, rfl, ?_, ?_, fun _ => rfl⟩⟩
  · exact (decide_eq_false (by omega : ¬ (c.tlplen req).toNat - 0 = 0)).symm
  · rw [TLPData.dwords_eq _ (Nat.le_refl 4) rfl, SlaveConfig.headerDwords, if_pos hlong, List.take_zero,
      List.map_nil, List.append_nil]
    rfl

/-- A short header is sent in any case, with a dword of data if there are data. -/
lemma attempt_short {a : Attempt} (hshort : ¬ req.addr >>> 32 ≠ 0) (hpos : 0 < (c.tlplen req).toNat)
    (ha : s.attempt3dw (c.writeHeader req) = some a) :
    (s.attempt4dw (c.writeHeader req) a).sendit = true ∧
      ∃ k, (s.attempt4dw (c.writeHeader req) a).Sends c s req k := by
  obtain ⟨h4, hlen, h3⟩ := @unpack_writeHeader c req
  have hformat : writeFormat req = .memWrite3DWData := if_neg hshort
  rw [hformat] at h4 h3
  simp only [attempt3dw, h3, true_and, hlen] at ha
  simp only [attempt4dw, h4, reduceCtorEq, false_and, if_false, true_and]
  have hheader : c.writeHeader req =
      ⟨true, false, 0, 0xfff0, (c.hdr3dw .memWrite3DWData req).pack⟩ := if_neg hshort
  have hdwords : c.headerDwords req = (lanes (c.hdr3dw .memWrite3DWData req).pack).take 3 := if_neg hshort
  rw [hheader] at ha
  split at ha
  · -- the first dword goes with the header
    simp only [bind, pure, Option.bind_eq_some_iff, Fifo.first_eq_some, Fifo.deqN_eq_some, Option.some.injEq,
      TLPMemoryIO3DWHeader.unpack_pack] at ha
    obtain ⟨v, ⟨rest, hitems⟩, q, ⟨hone, hq⟩, rfl⟩ := ha
    refine ⟨1, ⟨hone, hq, hpos, ?_, rfl, ?_, ?_, fun _ => rfl⟩⟩
    · show (c.tlplen req - 1).toNat = _
      rw [BitVec.toNat_sub_of_le (show (1 : BitVec 10) ≤ c.tlplen req from hpos)]
      rfl
    · show (if c.tlplen req = 1 then true else false) = _
      by_cases h1 : c.tlplen req = 1
      · rw [if_pos h1, h1]
        rfl
      · have hne : (c.tlplen req).toNat ≠ 1 := fun he => h1 (BitVec.eq_of_toNat_eq he)
        rw [if_neg h1]
        exact (decide_eq_false (by omega)).symm
    · rw [TLPData.dwords_eq _ (Nat.le_refl 4) rfl, hdwords, hitems]
      show (lanes (TLPMemoryIO3DWHeader.pack { c.hdr3dw .memWrite3DWData req with data := byteSwap v })).take 4 = _
      rw [lanes_pack3dw, lanes_pack3dw]
      rfl
  · -- there are no data, and the header is sent nevertheless
    rename_i hready
    simp only [pure, Option.some.injEq] at ha
    subst ha
    have hnil : s.writeDataMimo.items = [] := by
      by_contra hne
      refine hready (decide_eq_true ?_)
      exact Nat.one_le_iff_ne_zero.mpr (mt List.eq_nil_of_length_eq_zero hne)
    refine ⟨0, ⟨Nat.zero_le _, rfl, Nat.zero_le _, rfl, rfl, ?_, ?_, fun hne => absurd hnil hne⟩⟩
    · exact (decide_eq_false (by omega : ¬ (c.tlplen req).toNat - 0 = 0)).symm
    · rw [TLPData.dwords_eq _ (by decide : 3 ≤ 4) rfl, hdwords, List.take_zero, List.map_nil, List.append_nil]

/-- **A header is sent.** The rule `writeHeaderTlp` has to wait, or it sends the header, with the first dword
of the data if the header is short and there are data. -/
lemma writeHeaderTlp_cases {o : Option TLPData} {hs : List TLPData}
    (hitems : s.tlpWriteHeaderFifo.items = c.writeHeader req :: hs) (hpos : 0 < (c.tlplen req).toNat)
    (h : s.writeHeaderTlp = some (s', o)) :
    s.writeInProgress = false ∧ ((o = none ∧ s' = s) ∨
      ∃ tlp k, o = some tlp ∧ k ≤ (c.tlplen req).toNat ∧ Beat s s' tlp k ((c.tlplen req).toNat - k) ∧
        tlp.sof = true ∧ tlp.dwords = c.headerDwords req ++ (s.writeDataMimo.items.take k).map byteSwap ∧
        s'.tlpWriteHeaderFifo.items = hs ∧ (req.addr >>> 32 ≠ 0 → s.writeDataMimo.items ≠ []) ∧
        (s.writeDataMimo.items ≠ [] → tlp.be = 0xffff)) := by
  unfold writeHeaderTlp at h
  cases hprog : s.writeInProgress with
  | true => simp [hprog] at h
  | false =>
    refine ⟨rfl, ?_⟩
    simp only [hprog, Bool.false_eq_true, if_false, bind, pure, Option.bind_eq_some_iff, Prod.exists,
      Fifo.deq_eq_some] at h
    obtain ⟨tlp, headers, hdeq, a, ha, h⟩ := h
    rw [hitems, List.cons.injEq] at hdeq
    obtain ⟨rfl, rfl⟩ := hdeq
    split at h
    · rename_i hsend
      have hsends : (req.addr >>> 32 ≠ 0 → s.writeDataMimo.items ≠ []) ∧
          ∃ k, (s.attempt4dw (c.writeHeader req) a).Sends c s req k := by
        by_cases hlong : req.addr >>> 32 ≠ 0
        · obtain ⟨hne, hs⟩ := attempt_long hlong hpos ha hsend
          exact ⟨fun _ => hne, 0, hs⟩
        · exact ⟨fun h => absurd h hlong, (attempt_short hlong hpos ha).2⟩
      obtain ⟨hdata, k, hs⟩ := hsends
      simp only [Option.bind_eq_some_iff, Prod.exists, Fifo.enq_eq_some, Option.some.injEq, Prod.mk.injEq] at h
      obtain ⟨out, ⟨-, hout⟩, writeTag, doneTag, hfinish, rfl, rfl⟩ := h
      have hzero : (s.attempt4dw (c.writeHeader req) a).dwCount = 0 ↔ (c.tlplen req).toNat - k = 0 := by
        rw [← hs.dwCount]
        exact ⟨fun he => congrArg BitVec.toNat he, fun he => BitVec.eq_of_toNat_eq he⟩
      have htags := finishIf_eq_some hfinish
      refine .inr ⟨_, k, rfl, hs.le, ⟨hout, hs.available, hs.data, rfl, hs.dwCount, ?_, hs.eof, ?_, ?_⟩, hs.sof,
        hs.dwords, rfl, hdata, hs.be⟩
      · simp only [ne_eq, hzero]
      · exact fun h0 => htags.1 (decide_eq_false (mt hzero.mp h0))
      · exact fun h0 => htags.2 (decide_eq_true (hzero.mpr h0))
    · cases h
      exact .inl ⟨rfl, rfl⟩

/-- The rule needs a header. -/
lemma exists_header {o : Option TLPData} (h : s.writeHeaderTlp = some (s', o)) :
    s.tlpWriteHeaderFifo.items ≠ [] := by
  unfold writeHeaderTlp at h
  split at h
  · cases h
  · simp only [bind, Option.bind_eq_some_iff, Prod.exists, Fifo.deq_eq_some] at h
    obtain ⟨tlp, headers, hdeq, -⟩ := h
    rw [hdeq]
    exact List.cons_ne_nil _ _

end Header

end WriteSide

end Xbsv
