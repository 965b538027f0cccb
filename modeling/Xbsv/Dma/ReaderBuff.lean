import Xbsv.Dma.Burst
import Xbsv.Rules.Fifo
import Xbsv.Rules.System

set_option relaxedAutoImplicit false
set_option autoImplicit false

/-!
# The reader with a buffer

`mkMemReaderBuff` of `MemUtils.bsv` passes a read request on to the memory when its buffer has room for the data. Rule
`commitReq` adds the beats of the request to the beats that are owed for the requests before it (`unfulfilled`), and
asks the buffer, a `mkBRAMFIFOFLevel`, for that much room. The sum has 16 bits and is truncated to the bits of the
level, of which there are `TLog#(bufferDepth) + 1`. They have a value for every sum but one: the depth and again the
depth, where the depth is a power of two. The beats of a request are found by a shift, as everywhere.

## Main definitions

* `Xbsv.FIFOFLevel` — `mkBRAMFIFOFLevel`, a queue that counts its elements.
* `Xbsv.MemReaderBuff`, `Xbsv.memReaderBuff` — the reader with its clients and its memory, and its runs.
* `Xbsv.MemReaderBuff.HasRoom` — the buffer has room for all that is owed.
* `Xbsv.MemReaderBuff.Fits` — the sum of rule `commitReq` is a value of the level.

## Main results

* `Xbsv.MemReaderBuff.commitReq_hasRoom_iff` — which requests may be passed on.
* `Xbsv.MemReaderBuff.hasRoom_of_fits` — the runs whose sums all fit.
* `Xbsv.MemReaderBuff.hasRoom_iff` — the depths and widths for which the buffer has room in all runs.
-/

namespace Xbsv

open Rules

/-! ## The queue that counts its elements -/

/-- `mkBRAMFIFOFLevel`: a queue, and the number of its elements in `mark_width` bits. -/
structure FIFOFLevel (fifoDepth : ℕ) (α : Type) where
  fif : Fifo fifoDepth α
  cnt : BitVec (tlog fifoDepth + 1)

namespace FIFOFLevel

variable {fifoDepth : ℕ} {α : Type}

def reset : FIFOFLevel fifoDepth α := ⟨.empty, 0⟩

/-- Method `lowWater`: there is room for `mark` elements. -/
def lowWater (f : FIFOFLevel fifoDepth α) (mark : BitVec (tlog fifoDepth + 1)) : Bool :=
  mark ≤ BitVec.ofNat _ fifoDepth - f.cnt

def enq (f : FIFOFLevel fifoDepth α) (x : α) : Option (FIFOFLevel fifoDepth α) := do
  let fif ← f.fif.enq x
  return ⟨fif, f.cnt + 1⟩

def deq (f : FIFOFLevel fifoDepth α) : Option (α × FIFOFLevel fifoDepth α) := do
  let (x, fif) ← f.fif.deq
  return (x, ⟨fif, f.cnt - 1⟩)

/-- `cnt` is the number of elements. -/
def Counted (f : FIFOFLevel fifoDepth α) : Prop := f.cnt.toNat = f.fif.items.length

/-- The level has more values than the queue has elements. -/
lemma depth_lt (fifoDepth : ℕ) : fifoDepth < 2 ^ (tlog fifoDepth + 1) := by
  have hle := le_two_pow_tlog fifoDepth
  have hpos := Nat.two_pow_pos (tlog fifoDepth)
  rw [pow_succ]
  omega

lemma counted_reset : (reset : FIFOFLevel fifoDepth α).Counted := rfl

lemma Counted.enq {f f' : FIFOFLevel fifoDepth α} {x : α} (hf : f.Counted) (h : f.enq x = some f') :
    f'.Counted ∧ f'.fif.items.length = f.fif.items.length + 1 := by
  simp only [FIFOFLevel.enq, Option.bind_eq_bind, Option.bind_eq_some_iff, Fifo.enq_eq_some, Option.pure_def,
    Option.some.injEq] at h
  obtain ⟨fif, ⟨hroom, hitems⟩, rfl⟩ := h
  have hlength : fif.items.length = f.fif.items.length + 1 := by
    rw [hitems, List.length_append, List.length_singleton]
  refine ⟨?_, hlength⟩
  have hdepth := depth_lt fifoDepth
  have hone : (1 : BitVec (tlog fifoDepth + 1)).toNat = 1 := BitVec.toNat_one (by omega)
  show (f.cnt + 1).toNat = fif.items.length
  rw [BitVec.toNat_add, hf, hone, hlength, Nat.mod_eq_of_lt (by omega)]

lemma Counted.deq {f f' : FIFOFLevel fifoDepth α} {x : α} (hf : f.Counted) (h : f.deq = some (x, f')) :
    f'.Counted ∧ f.fif.items.length = f'.fif.items.length + 1 := by
  simp only [FIFOFLevel.deq, Option.bind_eq_bind, Option.bind_eq_some_iff, Option.pure_def, Option.some.injEq,
    Prod.exists, Prod.mk.injEq] at h
  obtain ⟨y, fif, hdeq, rfl, rfl⟩ := h
  have hlength : f.fif.items.length = fif.items.length + 1 := by
    rw [Fifo.deq_eq_some.mp hdeq, List.length_cons]
  refine ⟨?_, hlength⟩
  have hone : (1 : BitVec (tlog fifoDepth + 1)).toNat = 1 := BitVec.toNat_one (by omega)
  have hle : (1 : BitVec (tlog fifoDepth + 1)) ≤ f.cnt := by
    rw [BitVec.le_def, hf, hone, hlength]
    omega
  show (f.cnt - 1).toNat = fif.items.length
  rw [BitVec.toNat_sub_of_le hle, hf, hone, hlength]
  rfl

/-- `lowWater` compares with the room that there is. -/
lemma Counted.lowWater_iff {f : FIFOFLevel fifoDepth α} (hf : f.Counted) (mark : BitVec (tlog fifoDepth + 1)) :
    f.lowWater mark = true ↔ f.fif.items.length + mark.toNat ≤ fifoDepth := by
  have hdepth : (BitVec.ofNat (tlog fifoDepth + 1) fifoDepth).toNat = fifoDepth := by
    rw [BitVec.toNat_ofNat, Nat.mod_eq_of_lt (depth_lt fifoDepth)]
  have hlength := f.fif.length_le
  have hle : f.cnt ≤ BitVec.ofNat (tlog fifoDepth + 1) fifoDepth := by
    rw [BitVec.le_def, hf, hdepth]
    exact hlength
  rw [lowWater, decide_eq_true_eq, BitVec.le_def, BitVec.toNat_sub_of_le hle, hf, hdepth]
  omega

end FIFOFLevel

/-! ## The source -/

/-- `satPlus(Sat_Bound, x, y)` of unsigned numbers: the sum, or the greatest number. -/
def satPlus {w : ℕ} (x y : BitVec w) : BitVec w :=
  if x.toNat + y.toNat < 2 ^ w then x + y else BitVec.allOnes w

/-- The state of `mkMemReaderBuff`, and the beats that the memory has been asked for and has not put. -/
structure MemReaderBuff (dataWidthBytes bufferDepth : ℕ) where
  readBuffer : FIFOFLevel bufferDepth (ObjectData (dataWidthBytes * 8))
  reqOutstanding : Fifo 2 ObjectRequest
  reqCommitted : Fifo 2 ObjectRequest
  unfulfilled : BitVec 16
  memory : ℕ

namespace MemReaderBuff

variable {dataWidthBytes bufferDepth : ℕ}

def reset : MemReaderBuff dataWidthBytes bufferDepth := ⟨.reset, .empty, .empty, 0, 0⟩

/-- The rule and the methods: `readServer.readReq.put`, `commitReq`, `readClient.readReq.get`, `readClient.readData.put`
and `readServer.readData.get`. -/
inductive Action (dataWidthBytes : ℕ)
  | readReq (req : ObjectRequest)
  | commitReq
  | clientReq
  | clientData (x : ObjectData (dataWidthBytes * 8))
  | readData

/-- A client asks for at most as many beats as the buffer has elements. -/
def readReq (s : MemReaderBuff dataWidthBytes bufferDepth) (req : ObjectRequest) :
    Option (MemReaderBuff dataWidthBytes bufferDepth) :=
  if beats dataWidthBytes req.burstLen ≤ bufferDepth then do
    let reqOutstanding ← s.reqOutstanding.enq req
    return { s with reqOutstanding }
  else none

/-- `extend(burstLen>>beat_shift)`. -/
def counted (dataWidthBytes : ℕ) (req : ObjectRequest) : BitVec 16 :=
  (req.burstLen >>> beatShift dataWidthBytes).setWidth 16

/-- `sreq`, for the request at the head of `reqOutstanding`. -/
def sreq (s : MemReaderBuff dataWidthBytes bufferDepth) (req : ObjectRequest) : BitVec 16 :=
  satPlus (counted dataWidthBytes req) s.unfulfilled

/-- Rule `commitReq`. -/
def commitReq (s : MemReaderBuff dataWidthBytes bufferDepth) : Option (MemReaderBuff dataWidthBytes bufferDepth) := do
  let (req, reqOutstanding) ← s.reqOutstanding.deq
  if s.readBuffer.lowWater ((s.sreq req).setWidth _) then
    let reqCommitted ← s.reqCommitted.enq req
    return { s with reqOutstanding, reqCommitted, unfulfilled := s.unfulfilled + counted dataWidthBytes req }
  else none

/-- The memory takes a request. -/
def clientReq (s : MemReaderBuff dataWidthBytes bufferDepth) : Option (MemReaderBuff dataWidthBytes bufferDepth) := do
  let (req, reqCommitted) ← s.reqCommitted.deq
  return { s with reqCommitted, memory := s.memory + beats dataWidthBytes req.burstLen }

/-- The memory puts a beat that it has been asked for. -/
def clientData (s : MemReaderBuff dataWidthBytes bufferDepth) (x : ObjectData (dataWidthBytes * 8)) :
    Option (MemReaderBuff dataWidthBytes bufferDepth) :=
  match s.memory with
  | 0 => none
  | memory + 1 => do
    let readBuffer ← s.readBuffer.enq x
    return { s with readBuffer, unfulfilled := s.unfulfilled - 1, memory }

/-- A client gets a beat. -/
def readData (s : MemReaderBuff dataWidthBytes bufferDepth) : Option (MemReaderBuff dataWidthBytes bufferDepth) := do
  let (_, readBuffer) ← s.readBuffer.deq
  return { s with readBuffer }

def step (s : MemReaderBuff dataWidthBytes bufferDepth) :
    Action dataWidthBytes → Option (MemReaderBuff dataWidthBytes bufferDepth)
  | .readReq req => s.readReq req
  | .commitReq => s.commitReq
  | .clientReq => s.clientReq
  | .clientData x => s.clientData x
  | .readData => s.readData

end MemReaderBuff

/-- The reader, its clients and its memory. -/
def memReaderBuff (dataWidthBytes bufferDepth : ℕ) :
    RuleSystem (MemReaderBuff dataWidthBytes bufferDepth) (MemReaderBuff.Action dataWidthBytes) Empty where
  step s a := (s.step a).map fun s' => (s', [])

namespace MemReaderBuff

variable {dataWidthBytes bufferDepth : ℕ}

/-! ## Room -/

/-- The beats owed for the requests that were passed on. -/
def owed (s : MemReaderBuff dataWidthBytes bufferDepth) : ℕ :=
  s.memory + (s.reqCommitted.items.map fun req => beats dataWidthBytes req.burstLen).sum

/-- The buffer has room for all beats that are owed. -/
def HasRoom (s : MemReaderBuff dataWidthBytes bufferDepth) : Prop :=
  s.readBuffer.fif.items.length + s.owed ≤ bufferDepth

instance (s : MemReaderBuff dataWidthBytes bufferDepth) : Decidable s.HasRoom :=
  inferInstanceAs (Decidable (_ ≤ _))

/-- The sum of rule `commitReq` is a value of the level. -/
def Fits (s : MemReaderBuff dataWidthBytes bufferDepth) : Prop :=
  ∀ req ∈ s.reqOutstanding.first,
    beats dataWidthBytes req.burstLen + s.unfulfilled.toNat < 2 ^ (tlog bufferDepth + 1)

instance (s : MemReaderBuff dataWidthBytes bufferDepth) : Decidable s.Fits :=
  match h : s.reqOutstanding.first with
  | none => isTrue fun req hreq => by rw [h] at hreq; cases hreq
  | some req =>
    decidable_of_iff (beats dataWidthBytes req.burstLen + s.unfulfilled.toNat < 2 ^ (tlog bufferDepth + 1))
      ⟨fun hlt r hr => by rw [h] at hr; cases hr; exact hlt, fun hfits => hfits req h⟩

/-- The shift finds the beats of all requests. -/
def CountsBeats (dataWidthBytes : ℕ) : Prop :=
  ∀ req, (counted dataWidthBytes req).toNat = beats dataWidthBytes req.burstLen

/-- **The invariant**: the counters are exact, and there is room. -/
structure Tracks (s : MemReaderBuff dataWidthBytes bufferDepth) : Prop where
  counted : s.readBuffer.Counted
  unfulfilled : s.unfulfilled.toNat = s.owed
  hasRoom : s.HasRoom
  bursts : ∀ req ∈ s.reqOutstanding.items, beats dataWidthBytes req.burstLen ≤ bufferDepth

/-! ## The steps -/

/-- What rule `commitReq` needs and does. -/
lemma commitReq_eq_some {s s' : MemReaderBuff dataWidthBytes bufferDepth} (h : s.commitReq = some s') :
    ∃ req reqOutstanding reqCommitted, s.reqOutstanding.items = req :: reqOutstanding.items ∧
      s.readBuffer.lowWater ((s.sreq req).setWidth _) = true ∧ s.reqCommitted.enq req = some reqCommitted ∧
      s' = { s with reqOutstanding, reqCommitted, unfulfilled := s.unfulfilled + counted dataWidthBytes req } := by
  simp only [commitReq, Option.bind_eq_bind, Option.bind_eq_some_iff, Prod.exists, Fifo.deq_eq_some] at h
  obtain ⟨req, reqOutstanding, hitems, h⟩ := h
  split at h
  case isFalse => cases h
  case isTrue hlow =>
    obtain ⟨reqCommitted, henq, heq⟩ := Option.bind_eq_some_iff.mp h
    cases heq
    exact ⟨req, reqOutstanding, reqCommitted, hitems, hlow, henq, rfl⟩

variable {s s' : MemReaderBuff dataWidthBytes bufferDepth}

lemma beats_le (dataWidthBytes : ℕ) (req : ObjectRequest) : beats dataWidthBytes req.burstLen ≤ 255 := by
  have hlt := req.burstLen.isLt
  have hle := Nat.div_le_self req.burstLen.toNat dataWidthBytes
  rw [beats]
  omega

/-- What the shift finds. -/
lemma toNat_counted (dataWidthBytes : ℕ) (req : ObjectRequest) :
    (counted dataWidthBytes req).toNat = req.burstLen.toNat / 2 ^ tlog dataWidthBytes := by
  have hlt := req.burstLen.isLt
  have hle := Nat.div_le_self req.burstLen.toNat (2 ^ tlog dataWidthBytes)
  rw [counted, beatShift, BitVec.toNat_setWidth, BitVec.toNat_ushiftRight, Nat.shiftRight_eq_div_pow,
    Nat.mod_eq_of_lt (by omega)]

/-- **The widths for which the shift finds the beats**: powers of two, and such that no request has a beat. -/
lemma countsBeats_iff (hpos : 0 < dataWidthBytes) :
    CountsBeats dataWidthBytes ↔ (∃ j, dataWidthBytes = 2 ^ j) ∨ 255 < dataWidthBytes := by
  constructor
  · intro h
    by_contra hnot
    obtain ⟨hpow, hwide⟩ := not_or.mp hnot
    -- One beat is found to be none.
    have hone := h ⟨0, 0, BitVec.ofNat 8 dataWidthBytes, 0⟩
    rw [toNat_counted, beats, BitVec.toNat_ofNat, Nat.mod_eq_of_lt (by omega), Nat.div_self hpos,
      Nat.div_eq_of_lt (lt_two_pow_tlog hpow)] at hone
    cases hone
  · rintro (⟨j, rfl⟩ | hwide) req
    · rw [toNat_counted, tlog_two_pow, beats]
    · have hlt := req.burstLen.isLt
      have hle := le_two_pow_tlog dataWidthBytes
      rw [toNat_counted, beats, Nat.div_eq_of_lt (by omega), Nat.div_eq_of_lt (by omega)]

/-- The sum does not overflow in 16 bits. -/
lemma Tracks.add_lt (hs : Tracks s) (hd : tlog bufferDepth ≤ 15) (req : ObjectRequest) :
    beats dataWidthBytes req.burstLen + s.owed < 2 ^ 16 := by
  have hle := beats_le dataWidthBytes req
  have hroom := hs.hasRoom
  have hdepth := le_two_pow_tlog bufferDepth
  have hpow : 2 ^ tlog bufferDepth ≤ 2 ^ 15 := Nat.pow_le_pow_right (by omega) hd
  rw [HasRoom] at hroom
  omega

lemma Tracks.toNat_sreq (hs : Tracks s) (hw : CountsBeats dataWidthBytes) (hd : tlog bufferDepth ≤ 15)
    (req : ObjectRequest) : (s.sreq req).toNat = beats dataWidthBytes req.burstLen + s.owed := by
  have hlt := hs.add_lt hd req
  have hcounted := hw req
  have hunfulfilled := hs.unfulfilled
  rw [sreq, satPlus, if_pos (by omega), BitVec.toNat_add, Nat.mod_eq_of_lt (by omega), hcounted, hunfulfilled]

/-- When the buffer seems to have room for the request. -/
lemma Tracks.lowWater_iff (hs : Tracks s) (hw : CountsBeats dataWidthBytes) (hd : tlog bufferDepth ≤ 15)
    (req : ObjectRequest) :
    s.readBuffer.lowWater ((s.sreq req).setWidth _) = true ↔
      s.readBuffer.fif.items.length + (beats dataWidthBytes req.burstLen + s.owed) % 2 ^ (tlog bufferDepth + 1) ≤
        bufferDepth := by
  rw [hs.counted.lowWater_iff, BitVec.toNat_setWidth, hs.toNat_sreq hw hd]

/-- The requests that are passed on are owed. -/
lemma owed_commitReq {req : ObjectRequest} {reqCommitted : Fifo 2 ObjectRequest}
    (henq : s.reqCommitted.enq req = some reqCommitted) (reqOutstanding : Fifo 2 ObjectRequest)
    (unfulfilled : BitVec 16) :
    ({ s with reqOutstanding, reqCommitted, unfulfilled } : MemReaderBuff dataWidthBytes bufferDepth).owed =
      s.owed + beats dataWidthBytes req.burstLen := by
  rw [owed, owed, (Fifo.enq_eq_some.mp henq).2, List.map_append, List.sum_append]
  simp only [List.map_cons, List.map_nil, List.sum_cons, List.sum_nil]
  omega

/-- **Which requests may be passed on**: those with a sum that is a value of the level. -/
theorem commitReq_hasRoom_iff (hs : Tracks s) (hw : CountsBeats dataWidthBytes) (hd : tlog bufferDepth ≤ 15)
    (h : s.commitReq = some s') : s'.HasRoom ↔ s.Fits := by
  obtain ⟨req, reqOutstanding, reqCommitted, hitems, hlow, henq, rfl⟩ := commitReq_eq_some h
  rw [hs.lowWater_iff hw hd] at hlow
  have hfits : s.Fits ↔ beats dataWidthBytes req.burstLen + s.owed < 2 ^ (tlog bufferDepth + 1) := by
    rw [Fits, ← hs.unfulfilled]
    simp [Fifo.first, hitems]
  rw [hfits, HasRoom, owed_commitReq henq]
  constructor
  · intro hroom
    have hdepth := FIFOFLevel.depth_lt bufferDepth
    dsimp only at hroom
    omega
  · intro hlt
    rw [Nat.mod_eq_of_lt hlt] at hlow
    dsimp only
    omega

lemma Tracks.readReq {req : ObjectRequest} (hs : Tracks s) (h : s.readReq req = some s') : Tracks s' := by
  rw [MemReaderBuff.readReq] at h
  split at h
  case isFalse => cases h
  case isTrue hburst =>
    obtain ⟨reqOutstanding, henq, heq⟩ := Option.bind_eq_some_iff.mp h
    cases heq
    refine ⟨hs.counted, hs.unfulfilled, hs.hasRoom, fun r hr => ?_⟩
    rw [(Fifo.enq_eq_some.mp henq).2, List.mem_append, List.mem_singleton] at hr
    rcases hr with hr | rfl
    · exact hs.bursts r hr
    · exact hburst

lemma Tracks.commitReq (hs : Tracks s) (hw : CountsBeats dataWidthBytes) (hd : tlog bufferDepth ≤ 15) (hfits : s.Fits)
    (h : s.commitReq = some s') : Tracks s' := by
  have hroom := (commitReq_hasRoom_iff hs hw hd h).mpr hfits
  obtain ⟨req, reqOutstanding, reqCommitted, hitems, -, henq, rfl⟩ := commitReq_eq_some h
  refine ⟨hs.counted, ?_, hroom, fun r hr => hs.bursts r (hitems ▸ List.mem_cons_of_mem _ hr)⟩
  have hlt := hs.add_lt hd req
  rw [owed_commitReq henq]
  show (s.unfulfilled + _).toNat = _
  rw [BitVec.toNat_add, hs.unfulfilled, hw req, Nat.mod_eq_of_lt (by omega)]

/-- What the memory takes has been owed before. -/
lemma Tracks.clientReq (hs : Tracks s) (h : s.clientReq = some s') : Tracks s' := by
  simp only [MemReaderBuff.clientReq, Option.bind_eq_bind, Option.bind_eq_some_iff, Prod.exists, Fifo.deq_eq_some,
    Option.pure_def, Option.some.injEq] at h
  obtain ⟨req, reqCommitted, hitems, rfl⟩ := h
  have howed : ({ s with reqCommitted, memory := s.memory + beats dataWidthBytes req.burstLen } :
      MemReaderBuff dataWidthBytes bufferDepth).owed = s.owed := by
    rw [owed, owed, hitems, List.map_cons, List.sum_cons, Nat.add_assoc]
  have hroom := hs.hasRoom
  exact ⟨hs.counted, by rw [howed]; exact hs.unfulfilled, by rw [HasRoom, howed]; exact hroom, hs.bursts⟩

/-- A beat that was owed is in the buffer. -/
lemma Tracks.clientData {x : ObjectData (dataWidthBytes * 8)} (hs : Tracks s) (h : s.clientData x = some s') :
    Tracks s' := by
  rw [MemReaderBuff.clientData] at h
  split at h
  · cases h
  · rename_i memory hmemory
    obtain ⟨readBuffer, henq, heq⟩ := Option.bind_eq_some_iff.mp h
    cases heq
    obtain ⟨hcounted, hlength⟩ := hs.counted.enq henq
    have howed : s.owed = ({ s with readBuffer, unfulfilled := s.unfulfilled - 1, memory } :
        MemReaderBuff dataWidthBytes bufferDepth).owed + 1 := by
      rw [owed, owed, hmemory]
      dsimp only
      omega
    have hunfulfilled := hs.unfulfilled
    have hroom := hs.hasRoom
    refine ⟨hcounted, ?_, ?_, hs.bursts⟩
    · have hle : (1 : BitVec 16) ≤ s.unfulfilled := by
        rw [BitVec.le_def, hunfulfilled, howed]
        exact Nat.le_add_left ..
      show (s.unfulfilled - 1).toNat = _
      rw [BitVec.toNat_sub_of_le hle, hunfulfilled, howed]
      rfl
    · rw [HasRoom] at hroom ⊢
      dsimp only
      omega

lemma Tracks.readData (hs : Tracks s) (h : s.readData = some s') : Tracks s' := by
  simp only [MemReaderBuff.readData, Option.bind_eq_bind, Option.bind_eq_some_iff, Prod.exists, Option.pure_def,
    Option.some.injEq] at h
  obtain ⟨x, readBuffer, hdeq, rfl⟩ := h
  obtain ⟨hcounted, hlength⟩ := hs.counted.deq hdeq
  have hroom := hs.hasRoom
  rw [HasRoom, hlength] at hroom
  refine ⟨hcounted, hs.unfulfilled, ?_, hs.bursts⟩
  show readBuffer.fif.items.length + s.owed ≤ bufferDepth
  omega

/-- The counters stay exact, and there is room as long as the sums fit. -/
theorem Tracks.step (hs : Tracks s) (hw : CountsBeats dataWidthBytes) (hd : tlog bufferDepth ≤ 15)
    {a : Action dataWidthBytes} {es : List Empty} (hfits : a = .commitReq → s.Fits)
    (h : (memReaderBuff dataWidthBytes bufferDepth).step s a = some (s', es)) : Tracks s' := by
  obtain ⟨s₁, hstep, heq⟩ := Option.map_eq_some_iff.mp h
  cases heq
  cases a with
  | readReq req => exact hs.readReq hstep
  | commitReq => exact hs.commitReq hw hd (hfits rfl) hstep
  | clientReq => exact hs.clientReq hstep
  | clientData x => exact hs.clientData hstep
  | readData => exact hs.readData hstep

/-! ## The runs -/

/-- The steps whose sums fit. -/
def Good (s : MemReaderBuff dataWidthBytes bufferDepth) (a : Action dataWidthBytes) : Prop :=
  match a with
  | .commitReq => s.Fits
  | _ => True

instance (s : MemReaderBuff dataWidthBytes bufferDepth) : ∀ a, Decidable (Good s a)
  | .commitReq => inferInstanceAs (Decidable s.Fits)
  | .readReq _ => inferInstanceAs (Decidable True)
  | .clientReq => inferInstanceAs (Decidable True)
  | .clientData _ => inferInstanceAs (Decidable True)
  | .readData => inferInstanceAs (Decidable True)

lemma tracks_reset : Tracks (reset : MemReaderBuff dataWidthBytes bufferDepth) :=
  ⟨FIFOFLevel.counted_reset, rfl, Nat.zero_le _, fun _ h => absurd h List.not_mem_nil⟩

/-- **The runs whose sums all fit**: there is room in all states, and none after a step whose sum does not fit. -/
theorem hasRoom_of_fits (hw : CountsBeats dataWidthBytes) (hd : tlog bufferDepth ≤ 15) {tr : List Empty}
    (h : ((memReaderBuff dataWidthBytes bufferDepth).guard Good).Reaches .reset tr s) :
    s.HasRoom ∧ ∀ s', s.commitReq = some s' → (s'.HasRoom ↔ s.Fits) := by
  have htracks : Tracks s := by
    refine h.invariant (I := fun _ s => Tracks s) tracks_reset ?_
    intro tr s a s' es hs hstep
    obtain ⟨hgood, hstep⟩ := RuleSystem.guard_step.mp hstep
    refine hs.step hw hd (fun ha => ?_) hstep
    subst ha
    exact hgood
  exact ⟨htracks.hasRoom, fun s' => commitReq_hasRoom_iff htracks hw hd⟩

/-- All sums fit, unless the depth is a power of two and a request can have that many beats. -/
lemma Tracks.fits (hs : Tracks s)
    (hdepth : ¬((∃ k, bufferDepth = 2 ^ k) ∧ bufferDepth * dataWidthBytes ≤ 255)) : s.Fits := by
  intro req hreq
  have hburst : beats dataWidthBytes req.burstLen ≤ bufferDepth := by
    obtain ⟨rest, hitems⟩ := Fifo.first_eq_some.mp hreq
    exact hs.bursts req (hitems ▸ List.mem_cons_self)
  have hroom := hs.hasRoom
  have hle := le_two_pow_tlog bufferDepth
  rw [HasRoom] at hroom
  rw [hs.unfulfilled]
  by_contra hnot
  rw [pow_succ] at hnot
  -- Both summands are the depth.
  have hall : beats dataWidthBytes req.burstLen = bufferDepth := by omega
  refine hdepth ⟨⟨tlog bufferDepth, by omega⟩, ?_⟩
  have hlt := req.burstLen.isLt
  have hmul := Nat.div_mul_le_self req.burstLen.toNat dataWidthBytes
  rw [beats] at hall
  rw [hall] at hmul
  omega

/-- The memory has been asked for `n` beats and has not put any. -/
def asked (n : ℕ) (unfulfilled : BitVec 16) : MemReaderBuff dataWidthBytes bufferDepth :=
  { reset with unfulfilled, memory := n }

/-- A request for which the buffer seems to have room gets to the memory. -/
lemma reaches_asked (n : ℕ) (unfulfilled : BitVec 16) {m : ℕ} {req : ObjectRequest}
    (hbeats : beats dataWidthBytes req.burstLen = m) (hburst : m ≤ bufferDepth)
    (hlow : ((counted dataWidthBytes req).toNat + unfulfilled.toNat) % 2 ^ (tlog bufferDepth + 1) ≤
      bufferDepth) (hlt : (counted dataWidthBytes req).toNat + unfulfilled.toNat < 2 ^ 16) :
    (memReaderBuff dataWidthBytes bufferDepth).Reaches (asked n unfulfilled) []
      (asked (n + m) (unfulfilled + counted dataWidthBytes req)) := by
  have hroom : (FIFOFLevel.reset : FIFOFLevel bufferDepth (ObjectData (dataWidthBytes * 8))).lowWater
      ((satPlus (counted dataWidthBytes req) unfulfilled).setWidth _) = true := by
    rw [FIFOFLevel.counted_reset.lowWater_iff, BitVec.toNat_setWidth, satPlus, if_pos hlt, BitVec.toNat_add,
      Nat.mod_eq_of_lt hlt]
    exact (Nat.zero_add _).trans_le hlow
  have hreq : (memReaderBuff dataWidthBytes bufferDepth).step (asked n unfulfilled) (.readReq req) =
      some ({ asked n unfulfilled with reqOutstanding := ⟨[req], by simp⟩ }, []) := by
    simp [memReaderBuff, step, readReq, hbeats, hburst, asked, reset, Fifo.enq, Fifo.empty]
  have hcommit : (memReaderBuff dataWidthBytes bufferDepth).step
      { asked n unfulfilled with reqOutstanding := ⟨[req], by simp⟩ } .commitReq =
      some ({ asked n (unfulfilled + counted dataWidthBytes req) with
        reqCommitted := ⟨[req], by simp⟩ }, []) := by
    simp [memReaderBuff, step, commitReq, sreq, hroom, asked, reset, Fifo.enq, Fifo.deq, Fifo.empty]
  have hclient : (memReaderBuff dataWidthBytes bufferDepth).step
      { asked n (unfulfilled + counted dataWidthBytes req) with reqCommitted := ⟨[req], by simp⟩ }
      .clientReq = some (asked (n + m) (unfulfilled + counted dataWidthBytes req), []) := by
    simp [memReaderBuff, step, clientReq, hbeats, asked, reset, Fifo.deq, Fifo.empty]
  exact ((RuleSystem.Reaches.single _ hreq).step _ hcommit).step _ hclient

/-- Two requests for as many beats as the depth, which is a power of two. -/
lemma reaches_asked_twice (hw : CountsBeats dataWidthBytes) (hpos : 0 < dataWidthBytes) {k : ℕ}
    (hdepth : bufferDepth = 2 ^ k) (hle : bufferDepth * dataWidthBytes ≤ 255) :
    ∃ unfulfilled, (memReaderBuff dataWidthBytes bufferDepth).Reaches .reset []
      (asked (bufferDepth + bufferDepth) unfulfilled) := by
  set req : ObjectRequest := ⟨0, 0, BitVec.ofNat 8 (bufferDepth * dataWidthBytes), 0⟩
  have hbeats : beats dataWidthBytes req.burstLen = bufferDepth := by
    rw [beats, BitVec.toNat_ofNat, Nat.mod_eq_of_lt (by omega), Nat.mul_div_cancel _ hpos]
  have hcounted : (counted dataWidthBytes req).toNat = bufferDepth := (hw req).trans hbeats
  have hsmall : bufferDepth ≤ 255 := (Nat.le_mul_of_pos_right _ hpos).trans hle
  have hlevel := FIFOFLevel.depth_lt bufferDepth
  have hzero : (0 : BitVec 16).toNat = 0 := rfl
  have hfirst : (memReaderBuff dataWidthBytes bufferDepth).Reaches (asked 0 0) []
      (asked (0 + bufferDepth) (0 + counted dataWidthBytes req)) := by
    apply reaches_asked 0 0 hbeats (Nat.le_refl _)
    · rw [hcounted, hzero, Nat.add_zero, Nat.mod_eq_of_lt hlevel]
    · rw [hcounted, hzero]
      omega
  have hsecond : (memReaderBuff dataWidthBytes bufferDepth).Reaches
      (asked bufferDepth (counted dataWidthBytes req)) []
      (asked (bufferDepth + bufferDepth) (counted dataWidthBytes req + counted dataWidthBytes req)) := by
    apply reaches_asked bufferDepth _ hbeats (Nat.le_refl _)
    · -- Twice the depth is not a value of the level.
      rw [hcounted, hdepth, tlog_two_pow, ← Nat.two_mul, pow_succ, Nat.mul_comm, Nat.mod_self]
      exact Nat.zero_le _
    · rw [hcounted]
      omega
  rw [Nat.zero_add, zero_add] at hfirst
  exact ⟨_, hfirst.trans hsecond⟩

/-- Any number of requests for a beat that the shift does not find. -/
lemma reaches_asked_uncounted (hpow : ¬∃ j, dataWidthBytes = 2 ^ j) (hpos : 0 < dataWidthBytes)
    (hle : dataWidthBytes ≤ 255) (hdepth : 0 < bufferDepth) (n : ℕ) :
    (memReaderBuff dataWidthBytes bufferDepth).Reaches .reset [] (asked n 0) := by
  set req : ObjectRequest := ⟨0, 0, BitVec.ofNat 8 dataWidthBytes, 0⟩
  have hlen : req.burstLen.toNat = dataWidthBytes := by
    rw [BitVec.toNat_ofNat, Nat.mod_eq_of_lt (by omega)]
  have hbeats : beats dataWidthBytes req.burstLen = 1 := by
    rw [beats, hlen, Nat.div_self hpos]
  have hcounted : counted dataWidthBytes req = 0 := by
    apply BitVec.eq_of_toNat_eq
    rw [toNat_counted, hlen, Nat.div_eq_of_lt (lt_two_pow_tlog hpow)]
    rfl
  induction n with
  | zero => exact .refl
  | succ n ih =>
    have hnext : (memReaderBuff dataWidthBytes bufferDepth).Reaches (asked n 0) []
        (asked (n + 1) (0 + counted dataWidthBytes req)) := by
      apply reaches_asked n 0 hbeats hdepth
      · rw [hcounted]
        exact (Nat.zero_mod _).trans_le (Nat.zero_le _)
      · rw [hcounted]
        decide
    rw [hcounted, zero_add] at hnext
    exact ih.trans hnext

/-- **The buffer has room for all beats that are owed** in all runs in which no request has more beats than the depth,
if and only if the width of the data is a power of two, in bytes, and the depth is not a power of two or no request can
have that many beats. (With more than 255 bytes to a beat no request has one.) The provisos of the source say that the
depth takes at most 15 bits.

**Proof sketch.** A sum of `commitReq` is at most twice the depth, and the level has a value for it unless it is just
that and the depth is a power of two (`Tracks.fits`). Then it is truncated to zero, and the second of two such requests
is passed on as well. For other widths the shift does not find a single beat. -/
theorem hasRoom_iff (dataWidthBytes bufferDepth : ℕ) (hwidth : 0 < dataWidthBytes) (hdepth : 0 < bufferDepth)
    (hd : tlog bufferDepth ≤ 15) :
    (∀ tr s, (memReaderBuff dataWidthBytes bufferDepth).Reaches .reset tr s → s.HasRoom) ↔
      ((∃ j, dataWidthBytes = 2 ^ j) ∨ 255 < dataWidthBytes) ∧
        ¬((∃ k, bufferDepth = 2 ^ k) ∧ bufferDepth * dataWidthBytes ≤ 255) := by
  have hasked : ∀ {n unfulfilled}, (asked n unfulfilled : MemReaderBuff dataWidthBytes bufferDepth).HasRoom →
      n ≤ bufferDepth := fun h => (Nat.zero_add _).symm.trans_le h
  rw [← countsBeats_iff hwidth]
  constructor
  · intro hall
    have hw : CountsBeats dataWidthBytes := by
      rw [countsBeats_iff hwidth]
      by_contra hnot
      obtain ⟨hpow, hwide⟩ := not_or.mp hnot
      have hle := hasked (hall _ _ (reaches_asked_uncounted hpow hwidth (by omega) hdepth (bufferDepth + 1)))
      omega
    refine ⟨hw, ?_⟩
    rintro ⟨⟨k, hk⟩, hle⟩
    obtain ⟨unfulfilled, hreaches⟩ := reaches_asked_twice hw hwidth hk hle
    have htwice := hasked (hall _ _ hreaches)
    omega
  · rintro ⟨hw, hlarge⟩ tr s h
    have htracks : Tracks s := by
      refine h.invariant (I := fun _ s => Tracks s) tracks_reset ?_
      intro tr s a s' es hs hstep
      exact hs.step hw hd (fun _ => hs.fits hlarge) hstep
    exact htracks.hasRoom

/-- The depth with which the rows and columns of a matrix are read. -/
theorem hasRoom_iff_matrix :
    tlog 256 ≤ 15 ∧ ∀ tr s, (memReaderBuff 8 256).Reaches .reset tr s → s.HasRoom := by
  refine ⟨by decide, (hasRoom_iff 8 256 (by decide) (by decide) (by decide)).mpr ⟨.inl ⟨3, rfl⟩, ?_⟩⟩
  rintro ⟨-, hle⟩
  omega

/-- Two requests for four beats of eight bytes, where the buffer has room for four. -/
def twoBursts :=
  (memReaderBuff 8 4).run .reset [.readReq ⟨1, 0, 32, 0⟩, .commitReq, .readReq ⟨1, 32, 32, 1⟩, .commitReq]

/-- Both are passed on, and eight beats are owed. -/
theorem not_hasRoom_twoBursts :
    (memReaderBuff 8 4).Reaches .reset twoBursts.2 twoBursts.1 ∧ twoBursts.1.owed = 8 ∧ ¬twoBursts.1.HasRoom :=
  ⟨RuleSystem.reaches_run _ _, by decide +kernel⟩

end MemReaderBuff

end Xbsv
