import Xbsv.Dma.ReaderBuff

set_option relaxedAutoImplicit false
set_option autoImplicit false

/-!
# The writer with a buffer

`mkMemWriterBuff` of `MemUtils.bsv` passes a write request on to the memory when its data are in the buffer. Rule
`commitReq` adds the beats of the request to those that are owed for the requests before it (`unfulfilled`), in as many
bits as the level of the buffer has, and asks for that many elements. The sum saturates. The greatest value of the level
is more than the buffer holds, unless the buffer holds one element: then two beats are asked for as one.

The module is modelled cycle by cycle. In a cycle any of the methods may be used and the rule may fire, each as the
state is at the beginning of the cycle; the counters take what the pulse wires bring together.

## Main definitions

* `Xbsv.FIFOFLevel.cycle`, `Xbsv.mkCounterReact`, `Xbsv.configCounterReact` — a queue and two counters in one cycle.
* `Xbsv.MemWriterBuff`, `Xbsv.memWriterBuff` — the writer with its clients and its memory, and its runs.
* `Xbsv.MemWriterBuff.Fed` — the buffer has all beats that are owed, and the counters are exact.

## Main results

* `Xbsv.MemWriterBuff.Fed.step` — a cycle in which the rule does not fire by mistake.
* `Xbsv.MemWriterBuff.fed_iff` — the depths and widths for which the buffer has the beats in all runs.
-/

namespace Xbsv

open Rules

/-! ## Counters -/

/-- Rule `react` of `mkCounter`. -/
def mkCounterReact {w : ℕ} (cnt : BitVec w) (inc dec : Bool) : BitVec w :=
  if inc && dec then cnt
  else if inc then cnt + 1
  else if dec then cnt - 1
  else cnt

/-- Rule `react` of `mkConfigCounter`. -/
def configCounterReact {w : ℕ} (cnt inc dec : BitVec w) : BitVec w :=
  if dec < inc then cnt + (inc - dec) else cnt - (dec - inc)

/-- A counter that does not wrap. -/
lemma toNat_mkCounterReact {w : ℕ} {cnt : BitVec w} {inc dec : Bool} (hw : 0 < w)
    (hinc : inc = true → cnt.toNat + 1 < 2 ^ w) (hdec : dec = true → 0 < cnt.toNat) :
    (mkCounterReact cnt inc dec).toNat + dec.toNat = cnt.toNat + inc.toNat := by
  have hone : (1 : BitVec w).toNat = 1 := BitVec.toNat_one hw
  cases inc with
  | false =>
    cases dec with
    | false => rfl
    | true =>
      have hle : (1 : BitVec w) ≤ cnt := by
        rw [BitVec.le_def, hone]
        exact hdec rfl
      have hpos := hdec rfl
      show (cnt - 1).toNat + 1 = cnt.toNat + 0
      rw [BitVec.toNat_sub_of_le hle, hone]
      omega
  | true =>
    cases dec with
    | false =>
      show (cnt + 1).toNat + 0 = cnt.toNat + 1
      rw [BitVec.toNat_add, hone, Nat.mod_eq_of_lt (hinc rfl)]
    | true => rfl

lemma toNat_configCounterReact {w : ℕ} {cnt inc dec : BitVec w} (hinc : cnt.toNat + inc.toNat < 2 ^ w)
    (hdec : dec.toNat ≤ cnt.toNat) :
    (configCounterReact cnt inc dec).toNat + dec.toNat = cnt.toNat + inc.toNat := by
  unfold configCounterReact
  split
  case isTrue hlt =>
    rw [BitVec.lt_def] at hlt
    have hle : dec ≤ inc := hlt.le
    rw [BitVec.toNat_add, BitVec.toNat_sub_of_le hle, Nat.mod_eq_of_lt (by omega)]
    omega
  case isFalse hlt =>
    have hle : inc ≤ dec := by
      rw [BitVec.lt_def] at hlt
      rw [BitVec.le_def]
      omega
    have hsub : (dec - inc).toNat = dec.toNat - inc.toNat := BitVec.toNat_sub_of_le hle
    have hle' : dec - inc ≤ cnt := by
      rw [BitVec.le_def, hsub]
      omega
    rw [BitVec.le_def] at hle
    rw [BitVec.toNat_sub_of_le hle', hsub]
    omega

/-! ## The queue that counts its elements, in one cycle -/

namespace FIFOFLevel

variable {fifoDepth : ℕ} {α : Type}

/-- Method `highWater`: there are `mark` elements. -/
def highWater (f : FIFOFLevel fifoDepth α) (mark : BitVec (tlog fifoDepth + 1)) : Bool := mark ≤ f.cnt

/-- An element is taken, and one put, or both, or neither. -/
def cycle (f : FIFOFLevel fifoDepth α) (deq : Bool) (enq : Option α) : Option (FIFOFLevel fifoDepth α) := do
  let fif ← f.fif.cycle deq enq
  return ⟨fif, mkCounterReact f.cnt enq.isSome deq⟩

/-- The level stays the number of elements. -/
lemma Counted.cycle {f f' : FIFOFLevel fifoDepth α} {deq : Bool} {enq : Option α} (hf : f.Counted)
    (h : f.cycle deq enq = some f') :
    f'.Counted ∧ f'.fif.items.length + deq.toNat = f.fif.items.length + enq.isSome.toNat ∧
      (deq = true → 0 < f.fif.items.length) := by
  obtain ⟨fif, hfif, heq⟩ := Option.bind_eq_some_iff.mp h
  cases heq
  obtain ⟨hne, hroom, hitems⟩ := Fifo.cycle_eq_some hfif
  have hdepth := depth_lt fifoDepth
  have hpos : deq = true → 0 < f.fif.items.length := fun hdeq => List.length_pos_of_ne_nil (hne hdeq)
  have hlength : fif.items.length + deq.toNat = f.fif.items.length + enq.isSome.toNat := by
    have henq : enq.toList.length = enq.isSome.toNat := by cases enq <;> rfl
    rw [hitems, List.length_append, henq]
    cases deq with
    | false => rfl
    | true =>
      have hpos := hpos rfl
      rw [if_pos rfl, List.length_tail, show true.toNat = 1 from rfl]
      omega
  have hcnt : (mkCounterReact f.cnt enq.isSome deq).toNat + deq.toNat = f.cnt.toNat + enq.isSome.toNat := by
    apply toNat_mkCounterReact (Nat.succ_pos _)
    · intro henq
      have hlt := hroom (Option.isSome_iff_ne_none.mp henq)
      rw [hf]
      omega
    · intro hdeq
      rw [hf]
      exact hpos hdeq
  refine ⟨?_, hlength, hpos⟩
  rw [hf] at hcnt
  show (mkCounterReact f.cnt enq.isSome deq).toNat = fif.items.length
  omega

end FIFOFLevel

/-! ## The source -/

/-- The state of `mkMemWriterBuff`, and the beats of the requests that were passed on and whose data the memory has not
taken. -/
structure MemWriterBuff (dataWidthBytes bufferDepth : ℕ) where
  writeBuffer : FIFOFLevel bufferDepth (ObjectData (dataWidthBytes * 8))
  reqOutstanding : Fifo 2 ObjectRequest
  reqCommitted : Fifo 2 ObjectRequest
  doneTags : Fifo 2 (BitVec 6)
  unfulfilled : BitVec (tlog bufferDepth + 1)
  owed : ℕ

namespace MemWriterBuff

variable {dataWidthBytes bufferDepth : ℕ}

def reset : MemWriterBuff dataWidthBytes bufferDepth := ⟨.reset, .empty, .empty, .empty, 0, 0⟩

/-- What happens in a cycle: `writeServer.writeReq.put`, `writeServer.writeData.put`, `writeServer.writeDone.get`, rule
`commitReq`, `writeClient.writeReq.get`, `writeClient.writeData.get` and `writeClient.writeDone.put`. -/
structure Cycle (dataWidthBytes : ℕ) where
  writeReq : Option ObjectRequest
  writeData : Option (ObjectData (dataWidthBytes * 8))
  writeDone : Bool
  commitReq : Bool
  clientReq : Bool
  clientData : Bool
  clientDone : Option (BitVec 6)

/-- `truncate(burstLen>>beat_shift)`. -/
def counted (bufferDepth : ℕ) (dataWidthBytes : ℕ) (req : ObjectRequest) : BitVec (tlog bufferDepth + 1) :=
  (req.burstLen >>> beatShift dataWidthBytes).setWidth _

/-- `sreq`, for the request at the head of `reqOutstanding`. -/
def sreq (s : MemWriterBuff dataWidthBytes bufferDepth) (req : ObjectRequest) : BitVec (tlog bufferDepth + 1) :=
  satPlus (counted bufferDepth dataWidthBytes req) s.unfulfilled

/-- The request that rule `commitReq` passes on, if it fires. -/
def committed (s : MemWriterBuff dataWidthBytes bufferDepth) (commitReq : Bool) : Option (Option ObjectRequest) :=
  if commitReq then do
    let req ← s.reqOutstanding.first
    if s.writeBuffer.highWater (s.sreq req) then some (some req) else none
  else some none

/-- One cycle. A client asks for at most as many beats as the buffer has elements, and the memory takes the data of
requests that were passed on. -/
def step (s : MemWriterBuff dataWidthBytes bufferDepth) (c : Cycle dataWidthBytes) :
    Option (MemWriterBuff dataWidthBytes bufferDepth) := do
  let req ← s.committed c.commitReq
  let writeBuffer ← s.writeBuffer.cycle c.clientData c.writeData
  let reqOutstanding ← s.reqOutstanding.cycle c.commitReq c.writeReq
  let reqCommitted ← s.reqCommitted.cycle c.clientReq req
  let doneTags ← s.doneTags.cycle c.writeDone c.clientDone
  let counts := (req.map (counted bufferDepth dataWidthBytes)).getD 0
  let passed := (req.map fun req => beats dataWidthBytes req.burstLen).getD 0
  if (∀ req ∈ c.writeReq, beats dataWidthBytes req.burstLen ≤ bufferDepth) ∧ (c.clientData = true → 0 < s.owed) then
    return {
      writeBuffer, reqOutstanding, reqCommitted, doneTags
      unfulfilled := configCounterReact s.unfulfilled counts (BitVec.ofNat _ c.clientData.toNat)
      owed := s.owed + passed - c.clientData.toNat }
  else none

end MemWriterBuff

/-- The writer, its clients and its memory. -/
def memWriterBuff (dataWidthBytes bufferDepth : ℕ) :
    RuleSystem (MemWriterBuff dataWidthBytes bufferDepth) (MemWriterBuff.Cycle dataWidthBytes) Empty where
  step s c := (s.step c).map fun s' => (s', [])

namespace MemWriterBuff

variable {dataWidthBytes bufferDepth : ℕ} {s s' : MemWriterBuff dataWidthBytes bufferDepth}

/-! ## A cycle -/

/-- **The buffer has all beats that are owed**, and the counters have not wrapped. -/
structure Fed (s : MemWriterBuff dataWidthBytes bufferDepth) : Prop where
  owed_le : s.owed ≤ s.writeBuffer.fif.items.length
  level : s.writeBuffer.Counted
  unfulfilled : s.unfulfilled.toNat = s.owed

/-- The invariant, with the requests that wait. -/
structure Tracks (s : MemWriterBuff dataWidthBytes bufferDepth) : Prop extends Fed s where
  bursts : ∀ req ∈ s.reqOutstanding.items, beats dataWidthBytes req.burstLen ≤ bufferDepth

lemma fed_reset : Fed (reset : MemWriterBuff dataWidthBytes bufferDepth) :=
  ⟨Nat.le_refl _, FIFOFLevel.counted_reset, rfl⟩

lemma tracks_reset : Tracks (reset : MemWriterBuff dataWidthBytes bufferDepth) :=
  ⟨fed_reset, fun _ h => absurd h List.not_mem_nil⟩

/-- What the shift finds of a request that the buffer has room for. -/
lemma toNat_counted (hw : MemReaderBuff.CountsBeats dataWidthBytes) {req : ObjectRequest}
    (hreq : beats dataWidthBytes req.burstLen ≤ bufferDepth) :
    (counted bufferDepth dataWidthBytes req).toNat = beats dataWidthBytes req.burstLen := by
  have hbeats := hw req
  have hdepth := FIFOFLevel.depth_lt bufferDepth
  rw [MemReaderBuff.toNat_counted] at hbeats
  rw [counted, beatShift, BitVec.toNat_setWidth, BitVec.toNat_ushiftRight, Nat.shiftRight_eq_div_pow, hbeats,
    Nat.mod_eq_of_lt (by omega)]

/-- The sum that rule `commitReq` asks for, if it is not too great. -/
lemma toNat_satPlus {w : ℕ} (x y : BitVec w) :
    (satPlus x y).toNat = min (x.toNat + y.toNat) (2 ^ w - 1) := by
  unfold satPlus
  split
  · rw [BitVec.toNat_add, Nat.mod_eq_of_lt (by omega)]
    omega
  · rw [BitVec.toNat_allOnes]
    omega

/-- The greatest value of the level is more than the buffer holds, unless that is one element. -/
lemma depth_lt_top (hdepth : bufferDepth ≠ 1) : bufferDepth < 2 ^ (tlog bufferDepth + 1) - 1 := by
  have hle := le_two_pow_tlog bufferDepth
  have hpos := Nat.two_pow_pos (tlog bufferDepth)
  rw [pow_succ]
  rcases Nat.lt_or_ge 1 bufferDepth with hlt | hge
  · omega
  · have hzero : bufferDepth = 0 := by omega
    subst hzero
    decide

/-- **When rule `commitReq` fires, the data of its request are in the buffer.** -/
lemma Tracks.committed (h : Tracks s) (hw : MemReaderBuff.CountsBeats dataWidthBytes)
    (hdepth : bufferDepth ≠ 1 ∨ ∀ req : ObjectRequest, beats dataWidthBytes req.burstLen = 0) {commitReq : Bool}
    {req : Option ObjectRequest} (hreq : s.committed commitReq = some req) :
    let passed := (req.map fun req => beats dataWidthBytes req.burstLen).getD 0
    ((req.map (counted bufferDepth dataWidthBytes)).getD 0).toNat = passed ∧
      s.owed + passed ≤ s.writeBuffer.fif.items.length := by
  have hle := h.owed_le
  unfold MemWriterBuff.committed at hreq
  split at hreq
  case isFalse =>
    cases hreq
    exact ⟨rfl, hle⟩
  case isTrue =>
    obtain ⟨r, hfirst, hreq⟩ := Option.bind_eq_some_iff.mp hreq
    split at hreq
    case isFalse => cases hreq
    case isTrue hhigh =>
      cases hreq
      obtain ⟨rest, hitems⟩ := Fifo.first_eq_some.mp hfirst
      have hburst := h.bursts r (hitems ▸ List.mem_cons_self)
      have hcounted := toNat_counted hw hburst
      refine ⟨hcounted, ?_⟩
      have hsum : (s.sreq r).toNat ≤ s.writeBuffer.cnt.toNat := of_decide_eq_true hhigh
      rw [sreq, toNat_satPlus, hcounted, h.unfulfilled, h.level] at hsum
      have hlength := s.writeBuffer.fif.length_le
      show s.owed + beats dataWidthBytes r.burstLen ≤ _
      rcases hdepth with hdepth | hnone
      · have htop := depth_lt_top hdepth
        omega
      · rw [hnone r]
        exact hle

/-- **A cycle keeps the buffer ahead of what is owed.** -/
theorem Tracks.step (h : Tracks s) (hw : MemReaderBuff.CountsBeats dataWidthBytes)
    (hdepth : bufferDepth ≠ 1 ∨ ∀ req : ObjectRequest, beats dataWidthBytes req.burstLen = 0)
    {c : Cycle dataWidthBytes} {es : List Empty}
    (hstep : (memWriterBuff dataWidthBytes bufferDepth).step s c = some (s', es)) : Tracks s' := by
  obtain ⟨s₁, hs, heq⟩ := Option.map_eq_some_iff.mp hstep
  cases heq
  simp only [MemWriterBuff.step, Option.bind_eq_bind, Option.bind_eq_some_iff] at hs
  obtain ⟨req, hreq, writeBuffer, hbuffer, reqOutstanding, houtstanding, reqCommitted, -, doneTags, -, hs⟩ := hs
  split at hs
  case isFalse => cases hs
  case isTrue hclient =>
    cases hs
    obtain ⟨hnew, howed⟩ := hclient
    obtain ⟨hcounts, hfed⟩ := h.committed hw hdepth hreq
    obtain ⟨hlevel, hlength, hpos⟩ := h.level.cycle hbuffer
    obtain ⟨-, -, hitems⟩ := Fifo.cycle_eq_some houtstanding
    have hroom := s.writeBuffer.fif.length_le
    have hlt := FIFOFLevel.depth_lt bufferDepth
    have hunfulfilled := h.unfulfilled
    set passed := (req.map fun req => beats dataWidthBytes req.burstLen).getD 0
    have hdata : c.clientData.toNat ≤ s.owed := by
      cases hc : c.clientData with
      | false => exact Nat.zero_le _
      | true => exact howed hc
    have hone : c.clientData.toNat < 2 ^ (tlog bufferDepth + 1) := by
      have hle := Bool.toNat_le c.clientData
      have htwo := Nat.two_pow_pos (tlog bufferDepth)
      rw [pow_succ]
      omega
    have hdec : (BitVec.ofNat (tlog bufferDepth + 1) c.clientData.toNat).toNat = c.clientData.toNat := by
      rw [BitVec.toNat_ofNat, Nat.mod_eq_of_lt hone]
    refine ⟨⟨?_, hlevel, ?_⟩, fun r hr => ?_⟩
    · show s.owed + passed - c.clientData.toNat ≤ writeBuffer.fif.items.length
      omega
    · have hreact := @toNat_configCounterReact _ s.unfulfilled
        ((req.map (counted bufferDepth dataWidthBytes)).getD 0) (BitVec.ofNat _ c.clientData.toNat)
        (by omega) (by omega)
      rw [hdec, hcounts, hunfulfilled] at hreact
      show (configCounterReact s.unfulfilled _ _).toNat = s.owed + passed - c.clientData.toNat
      omega
    · dsimp only at hr
      rw [hitems, List.mem_append, Option.mem_toList] at hr
      rcases hr with hr | hr
      · refine h.bursts r ?_
        split at hr
        · exact List.mem_of_mem_tail hr
        · exact hr
      · exact hnew r hr

/-! ## The runs -/

/-- The cycle in which a client puts a request, and the one in which the rule fires. -/
def putReq (req : ObjectRequest) (writeData : Option (ObjectData (dataWidthBytes * 8))) : Cycle dataWidthBytes :=
  ⟨some req, writeData, false, false, false, false, none⟩

def fire : Cycle dataWidthBytes := ⟨none, none, false, true, false, false, none⟩

/-- A beat of data. -/
def beat : ObjectData (dataWidthBytes * 8) := ⟨0, 0, true⟩

/-- A request for one beat, of which the shift finds none. -/
lemma not_fed_uncounted (hpow : ¬∃ j, dataWidthBytes = 2 ^ j) (hpos : 0 < dataWidthBytes)
    (hle : dataWidthBytes ≤ 255) (hdepth : 0 < bufferDepth) :
    ∃ tr s, (memWriterBuff dataWidthBytes bufferDepth).Reaches .reset tr s ∧ ¬Fed s := by
  set req : ObjectRequest := ⟨0, 0, BitVec.ofNat 8 dataWidthBytes, 0⟩
  have hlen : req.burstLen.toNat = dataWidthBytes := by
    rw [BitVec.toNat_ofNat, Nat.mod_eq_of_lt (by omega)]
  have hbeats : beats dataWidthBytes req.burstLen = 1 := by
    rw [beats, hlen, Nat.div_self hpos]
  have hcounted : counted bufferDepth dataWidthBytes req = 0 := by
    apply BitVec.eq_of_toNat_eq
    rw [counted, beatShift, BitVec.toNat_setWidth, BitVec.toNat_ushiftRight, Nat.shiftRight_eq_div_pow, hlen,
      Nat.div_eq_of_lt (lt_two_pow_tlog hpow)]
    exact Nat.zero_mod _
  have hreq : (memWriterBuff dataWidthBytes bufferDepth).step .reset (putReq req none) =
      some ({ reset with reqOutstanding := ⟨[req], by simp⟩ }, []) := by
    have hburst : 1 ≤ bufferDepth := hdepth
    simp [memWriterBuff, step, committed, putReq, reset, FIFOFLevel.cycle, FIFOFLevel.reset, Fifo.cycle,
      Fifo.pipelined, Fifo.dropIf, Fifo.enq, Fifo.empty, mkCounterReact, configCounterReact, hbeats, hburst]
  have hzero : satPlus 0#(tlog bufferDepth + 1) 0#(tlog bufferDepth + 1) = 0#(tlog bufferDepth + 1) := by
    apply BitVec.eq_of_toNat_eq
    rw [toNat_satPlus]
    simp
  have hfire : (memWriterBuff dataWidthBytes bufferDepth).step
      { reset with reqOutstanding := ⟨[req], by simp⟩ } fire =
      some ({ reset with reqCommitted := ⟨[req], by simp⟩, owed := 1 }, []) := by
    simp [memWriterBuff, step, committed, fire, reset, FIFOFLevel.cycle, FIFOFLevel.reset, FIFOFLevel.highWater,
      Fifo.cycle, Fifo.pipelined, Fifo.dropIf, Fifo.deq, Fifo.enq, Fifo.empty, Fifo.first, mkCounterReact,
      configCounterReact, sreq, hcounted, hbeats, hzero]
  refine ⟨_, _, (RuleSystem.Reaches.single _ hreq).step _ hfire, fun hfed => ?_⟩
  exact absurd hfed.owed_le (Nat.not_succ_le_zero 0)

/-- Two requests for one beat each, where the buffer holds one. -/
lemma not_fed_one (hw : MemReaderBuff.CountsBeats dataWidthBytes) (hpos : 0 < dataWidthBytes)
    (hle : dataWidthBytes ≤ 255) :
    ∃ tr s, (memWriterBuff dataWidthBytes 1).Reaches .reset tr s ∧ ¬Fed s := by
  set req : ObjectRequest := ⟨0, 0, BitVec.ofNat 8 dataWidthBytes, 0⟩
  have hbeats : beats dataWidthBytes req.burstLen = 1 := by
    rw [beats, BitVec.toNat_ofNat, Nat.mod_eq_of_lt (by omega), Nat.div_self hpos]
  have hcounted : counted 1 dataWidthBytes req = 1 := by
    apply BitVec.eq_of_toNat_eq
    rw [toNat_counted hw (by rw [hbeats]), hbeats]
    rfl
  set full : FIFOFLevel 1 (ObjectData (dataWidthBytes * 8)) := ⟨⟨[beat], by simp⟩, 1⟩
  have hdata :
      (FIFOFLevel.reset : FIFOFLevel 1 (ObjectData (dataWidthBytes * 8))).cycle false (some beat) = some full := rfl
  have hfull : full.cycle false none = some full := rfl
  have hfirst : full.highWater (satPlus 1#(tlog 1 + 1) 0#(tlog 1 + 1)) = true := rfl
  have hsecond : full.highWater (satPlus 1#(tlog 1 + 1) 1#(tlog 1 + 1)) = true := rfl
  have hreq : (memWriterBuff dataWidthBytes 1).step .reset (putReq req (some beat)) =
      some ({ (reset : MemWriterBuff dataWidthBytes 1) with
        writeBuffer := full, reqOutstanding := ⟨[req], by simp⟩ }, []) := by
    simp [memWriterBuff, step, committed, putReq, reset, Fifo.cycle, Fifo.pipelined, Fifo.dropIf, Fifo.enq, Fifo.empty,
      configCounterReact, hbeats, hdata]
  have hcommit : (memWriterBuff dataWidthBytes 1).step
      { (reset : MemWriterBuff dataWidthBytes 1) with writeBuffer := full, reqOutstanding := ⟨[req], by simp⟩ }
      { fire with writeReq := some req } =
      some ({ (reset : MemWriterBuff dataWidthBytes 1) with
        writeBuffer := full, reqOutstanding := ⟨[req], by simp⟩, reqCommitted := ⟨[req], by simp⟩,
        unfulfilled := 1, owed := 1 }, []) := by
    simp [memWriterBuff, step, committed, fire, reset, Fifo.cycle, Fifo.pipelined, Fifo.dropIf, Fifo.deq, Fifo.enq,
      Fifo.empty, Fifo.first, configCounterReact, sreq, hcounted, hbeats, hfirst, hfull]
  have hagain : (memWriterBuff dataWidthBytes 1).step
      { (reset : MemWriterBuff dataWidthBytes 1) with
        writeBuffer := full, reqOutstanding := ⟨[req], by simp⟩, reqCommitted := ⟨[req], by simp⟩,
        unfulfilled := 1, owed := 1 } fire =
      some ({ (reset : MemWriterBuff dataWidthBytes 1) with
        writeBuffer := full, reqCommitted := ⟨[req, req], by simp⟩, unfulfilled := 1 + 1, owed := 2 }, []) := by
    simp [memWriterBuff, step, committed, fire, reset, Fifo.cycle, Fifo.pipelined, Fifo.dropIf, Fifo.deq, Fifo.enq,
      Fifo.empty, Fifo.first, configCounterReact, sreq, hcounted, hbeats, hsecond, hfull]
  refine ⟨_, _, ((RuleSystem.Reaches.single _ hreq).step _ hcommit).step _ hagain, fun hfed => ?_⟩
  exact absurd hfed.owed_le (Nat.not_succ_le_self 1)

/-- **The buffer has all beats that are owed, and the counters are exact**, in all runs in which no request has more
beats than the depth, if and only if the width of the data is a power of two, in bytes, and the depth is more than one.
(With more than 255 bytes to a beat no request has one.) That the depth takes at most 7 bits, as the provisos of the
source say, is not needed.

**Proof sketch.** A sum of `commitReq` that saturates is the greatest value of the level, which the level does not reach
unless the depth is one (`depth_lt_top`). Then the second of two requests for one beat is passed on with the data of the
first. For other widths the shift does not find a single beat. -/
theorem fed_iff (dataWidthBytes bufferDepth : ℕ) (hwidth : 0 < dataWidthBytes) (hdepth : 0 < bufferDepth) :
    (∀ tr s, (memWriterBuff dataWidthBytes bufferDepth).Reaches .reset tr s → s.Fed) ↔
      ((∃ j, dataWidthBytes = 2 ^ j) ∧ bufferDepth ≠ 1) ∨ 255 < dataWidthBytes := by
  constructor
  · intro hall
    by_contra hnot
    obtain ⟨hsmall, hwide⟩ := not_or.mp hnot
    by_cases hpow : ∃ j, dataWidthBytes = 2 ^ j
    · have hone : bufferDepth = 1 := by
        by_contra hne
        exact hsmall ⟨hpow, hne⟩
      subst hone
      obtain ⟨tr, s, hreaches, hfed⟩ :=
        not_fed_one ((MemReaderBuff.countsBeats_iff hwidth).mpr (.inl hpow)) hwidth (by omega)
      exact hfed (hall tr s hreaches)
    · obtain ⟨tr, s, hreaches, hfed⟩ := not_fed_uncounted hpow hwidth (by omega) hdepth
      exact hfed (hall tr s hreaches)
  · intro hcond tr s h
    have hw : MemReaderBuff.CountsBeats dataWidthBytes :=
      (MemReaderBuff.countsBeats_iff hwidth).mpr (hcond.imp And.left id)
    have hd : bufferDepth ≠ 1 ∨ ∀ req : ObjectRequest, beats dataWidthBytes req.burstLen = 0 := by
      refine hcond.imp And.right fun hwide req => ?_
      have hlt := req.burstLen.isLt
      exact Nat.div_eq_of_lt (by omega)
    have htracks : Tracks s := h.invariant (I := fun _ s => Tracks s) tracks_reset fun hs hstep => hs.step hw hd hstep
    exact htracks.toFed

/-- The depth with which the products of two matrices are written. -/
theorem fed_iff_matrix :
    tlog 128 + 1 ≤ 8 ∧ ∀ tr s, (memWriterBuff 8 128).Reaches .reset tr s → s.Fed :=
  ⟨by decide, (fed_iff 8 128 (by decide) (by decide)).mpr (.inl ⟨⟨3, rfl⟩, by decide⟩)⟩

/-- Two requests for four bytes, with the data of one, where the buffer holds one beat. -/
def twoRequests :=
  (memWriterBuff 4 1).run .reset
    [putReq ⟨1, 0, 4, 0⟩ (some ⟨7, 0, true⟩), { fire with writeReq := some ⟨1, 4, 4, 1⟩ }, fire]

/-- Both are passed on: two beats are owed, one is in the buffer, and `unfulfilled` is 0. -/
theorem not_fed_twoRequests :
    (memWriterBuff 4 1).Reaches .reset twoRequests.2 twoRequests.1 ∧ twoRequests.1.owed = 2 ∧
      twoRequests.1.writeBuffer.fif.items.length = 1 ∧ twoRequests.1.unfulfilled = 0 ∧ ¬twoRequests.1.Fed := by
  have howed : twoRequests.1.owed = 2 := by decide +kernel
  have hlength : twoRequests.1.writeBuffer.fif.items.length = 1 := by decide +kernel
  refine ⟨RuleSystem.reaches_run _ _, howed, hlength, by decide +kernel, fun hfed => ?_⟩
  have hle := hfed.owed_le
  omega

end MemWriterBuff

end Xbsv
