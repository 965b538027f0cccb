import Xbsv.Dma.Burst
import Xbsv.Rules.Fifo
import Xbsv.Rules.System

set_option relaxedAutoImplicit false
set_option autoImplicit false

/-!
# The AXI master

`mkAxiDmaMaster` of `AxiDma.bsv` speaks AXI3 for a memory master. The length of a burst is sent as its number of beats
less one, in the 4 bits of the field `len`: a burst of AXI3 has at most 16 beats, and a request can have as many as its
8 bits of `burstLen` tell. The data channel finds the numbers of beats in a queue of its own, in 8 bits, and counts them
down in `burstReg`; there 0 is the idle state. Both find the beats by a shift.

## Main definitions

* `Xbsv.AxiDmaMaster`, `Xbsv.axiDmaMaster` — the master, and its runs.
* `Xbsv.AxiDmaMaster.Encodes` — what the channels should say of the requests.

## Main results

* `Xbsv.AxiDmaMaster.axiLen_iff` — the bursts that the field `len` can tell.
* `Xbsv.AxiDmaMaster.cut_of_widths` — the data channel is right for all bursts, where the shift finds their beats.
* `Xbsv.AxiDmaMaster.encodes_iff` — the runs that the two channels encode.
-/

namespace Xbsv

open Rules

/-! ## The channels -/

/-- A request on an address channel (`Axi3ReadRequest` and `Axi3WriteRequest`, which have the same fields). -/
@[ext]
structure Axi3Request (addrWidth idWidth : ℕ) where
  address : BitVec addrWidth
  len : BitVec 4
  size : BitVec 3
  burst : BitVec 2
  prot : BitVec 3
  cache : BitVec 4
  id : BitVec idWidth
  lock : BitVec 2
  qos : BitVec 4
  deriving DecidableEq, Repr

/-- A beat on the write data channel. -/
@[ext]
structure Axi3WriteData (busBytes idWidth : ℕ) where
  data : BitVec (busBytes * 8)
  byteEnable : BitVec busBytes
  last : BitVec 1
  id : BitVec idWidth
  deriving DecidableEq, Repr

/-- A beat on the read data channel. -/
@[ext]
structure Axi3ReadResponse (busBytes idWidth : ℕ) where
  data : BitVec (busBytes * 8)
  resp : BitVec 2
  last : BitVec 1
  id : BitVec idWidth
  deriving DecidableEq, Repr

/-- The end of a write. -/
@[ext]
structure Axi3WriteResponse (idWidth : ℕ) where
  resp : BitVec 2
  id : BitVec idWidth
  deriving DecidableEq, Repr

/-- `axiBusSize`, of the width in bits. -/
def axiBusSize (busWidth : ℕ) : BitVec 3 :=
  if busWidth = 32 then 0b010
  else if busWidth = 64 then 0b011
  else if busWidth = 128 then 0b100
  else 0b011

/-! ## The source -/

/-- The state of `mkAxiDmaMaster`. -/
structure AxiDmaMaster where
  burstReg : BitVec 8
  reqs : Fifo 32 (BitVec 8)

namespace AxiDmaMaster

def reset : AxiDmaMaster := ⟨0, .empty⟩

/-- The methods of the AXI side, each with what the memory master supplies for it or what comes in on its channel. -/
inductive Action (addrWidth dataWidthBytes : ℕ)
  | reqAw (req : MemRequest addrWidth)
  | respWrite (tagdata : ObjectData (dataWidthBytes * 8))
  | respB (resp : Axi3WriteResponse 6)
  | reqAr (req : MemRequest addrWidth)
  | respRead (response : Axi3ReadResponse dataWidthBytes 6)

/-- The transfers on the five channels. -/
inductive Event (addrWidth dataWidthBytes : ℕ)
  | aw (req : MemRequest addrWidth) (out : Axi3Request addrWidth 6)
  | w (tagdata : ObjectData (dataWidthBytes * 8)) (out : Axi3WriteData dataWidthBytes 6)
  | b (writeDone : BitVec 6)
  | ar (req : MemRequest addrWidth) (out : Axi3Request addrWidth 6)
  | r (readData : ObjectData (dataWidthBytes * 8))
  deriving DecidableEq

variable {addrWidth dataWidthBytes : ℕ}

/-- `burstLen>>beat_shift`. -/
def shifted (dataWidthBytes : ℕ) (burstLen : BitVec 8) : BitVec 8 := burstLen >>> beatShift dataWidthBytes

/-- `truncate((req.burstLen>>beat_shift)-1)`. -/
def axiLen (dataWidthBytes : ℕ) (burstLen : BitVec 8) : BitVec 4 := (shifted dataWidthBytes burstLen - 1).setWidth 4

/-- The request on the address channel; both channels make it in the same way. -/
def axiRequest (dataWidthBytes : ℕ) (req : MemRequest addrWidth) : Axi3Request addrWidth 6 where
  address := req.addr
  len := axiLen dataWidthBytes req.burstLen
  size := axiBusSize (dataWidthBytes * 8)
  burst := 1
  prot := 0
  cache := 3
  id := req.tag
  lock := 0
  qos := 0

/-- Method `req_aw.get`. The memory master asks for whole beats. -/
def reqAw (s : AxiDmaMaster) (req : MemRequest addrWidth) :
    Option (AxiDmaMaster × List (Event addrWidth dataWidthBytes)) :=
  if WholeBurst dataWidthBytes req.burstLen then do
    let reqs ← s.reqs.enq req.burstLen
    return ({ s with reqs }, [.aw req (axiRequest dataWidthBytes req)])
  else none

/-- The beat that `resp_write.get` makes when `burstLen` beats of the burst are left. -/
def writeData (burstLen : BitVec 8) (tagdata : ObjectData (dataWidthBytes * 8)) : Axi3WriteData dataWidthBytes 6 where
  data := tagdata.data
  byteEnable := BitVec.allOnes _
  last := if burstLen = 1 then 1 else 0
  id := tagdata.tag

/-- Method `resp_write.get`. -/
def respWrite (s : AxiDmaMaster) (tagdata : ObjectData (dataWidthBytes * 8)) :
    Option (AxiDmaMaster × List (Event addrWidth dataWidthBytes)) :=
  if s.burstReg = 0 then do
    let (first, reqs) ← s.reqs.deq
    let burstLen := shifted dataWidthBytes first
    return (⟨burstLen - 1, reqs⟩, [.w tagdata (writeData burstLen tagdata)])
  else some ({ s with burstReg := s.burstReg - 1 }, [.w tagdata (writeData s.burstReg tagdata)])

def step (s : AxiDmaMaster) :
    Action addrWidth dataWidthBytes → Option (AxiDmaMaster × List (Event addrWidth dataWidthBytes))
  | .reqAw req => s.reqAw req
  | .respWrite tagdata => s.respWrite tagdata
  | .respB resp => some (s, [.b resp.id])
  | .reqAr req =>
    if WholeBurst dataWidthBytes req.burstLen then some (s, [.ar req (axiRequest dataWidthBytes req)]) else none
  | .respRead response => some (s, [.r ⟨response.data, response.id, response.last == 1⟩])

end AxiDmaMaster

/-- The AXI master, between any memory master that asks for whole beats and any bus. -/
def axiDmaMaster (addrWidth dataWidthBytes : ℕ) :
    RuleSystem AxiDmaMaster (AxiDmaMaster.Action addrWidth dataWidthBytes)
      (AxiDmaMaster.Event addrWidth dataWidthBytes) where
  step s a := s.step a

namespace AxiDmaMaster

variable {addrWidth dataWidthBytes : ℕ}

/-! ## What the channels say -/

/-- The lengths of all requests. -/
def burstLens (tr : List (Event addrWidth dataWidthBytes)) : List (BitVec 8) :=
  tr.filterMap fun
    | .aw req _ => some req.burstLen
    | .ar req _ => some req.burstLen
    | _ => none

/-- The fields `len` on the address channels, each with the length of its request. -/
def lens (tr : List (Event addrWidth dataWidthBytes)) : List (BitVec 8 × BitVec 4) :=
  tr.filterMap fun
    | .aw req out => some (req.burstLen, out.len)
    | .ar req out => some (req.burstLen, out.len)
    | _ => none

/-- The lengths of the write requests. -/
def writeBursts (tr : List (Event addrWidth dataWidthBytes)) : List (BitVec 8) :=
  tr.filterMap fun
    | .aw req _ => some req.burstLen
    | _ => none

/-- The fields `last` on the write data channel. -/
def lasts (tr : List (Event addrWidth dataWidthBytes)) : List (BitVec 1) :=
  tr.filterMap fun
    | .w _ out => some out.last
    | _ => none

/-- The fields `last` of a burst of `n` beats. -/
def burst (n : ℕ) : List (BitVec 1) := List.replicate (n - 1) 0 ++ [1]

/-- **What the channels should say**: each `len` is the number of beats less one, and the beats of the data channel make
up the bursts of the write requests, in order and with `last` at the ends. -/
structure Encodes (tr : List (Event addrWidth dataWidthBytes)) : Prop where
  len : ∀ q ∈ lens tr, q.2.toNat + 1 = beats dataWidthBytes q.1
  cut : lasts tr <+: (writeBursts tr).flatMap fun b => burst (beats dataWidthBytes b)

section Traces

variable (tr es : List (Event addrWidth dataWidthBytes))

@[simp] lemma burstLens_append : burstLens (tr ++ es) = burstLens tr ++ burstLens es := List.filterMap_append

@[simp] lemma lens_append : lens (tr ++ es) = lens tr ++ lens es := List.filterMap_append

@[simp] lemma writeBursts_append : writeBursts (tr ++ es) = writeBursts tr ++ writeBursts es :=
  List.filterMap_append

@[simp] lemma lasts_append : lasts (tr ++ es) = lasts tr ++ lasts es := List.filterMap_append

/-- The lengths that stand with the fields `len` are those of the requests. -/
lemma map_fst_lens : (lens tr).map Prod.fst = burstLens tr := by
  rw [lens, burstLens, List.map_filterMap]
  congr 1
  funext e
  cases e <;> rfl

lemma writeBursts_subset : writeBursts tr ⊆ burstLens tr := by
  intro b hb
  obtain ⟨e, he, heq⟩ := List.mem_filterMap.mp hb
  refine List.mem_filterMap.mpr ⟨e, he, ?_⟩
  cases e <;> first | exact heq | cases heq

end Traces

/-! ## The address channels -/

lemma toNat_shifted (dataWidthBytes : ℕ) (burstLen : BitVec 8) :
    (shifted dataWidthBytes burstLen).toNat = burstLen.toNat / 2 ^ tlog dataWidthBytes := by
  rw [shifted, beatShift, BitVec.toNat_ushiftRight, Nat.shiftRight_eq_div_pow]

lemma toNat_shifted_of_pow {burstLen : BitVec 8} (hw : ∃ j, dataWidthBytes = 2 ^ j) :
    (shifted dataWidthBytes burstLen).toNat = beats dataWidthBytes burstLen := by
  obtain ⟨j, hj⟩ := hw
  exact WholeBurst.shift_toNat hj

/-- The field is the number that the shift finds, less one, in 4 bits. -/
lemma toNat_axiLen (dataWidthBytes : ℕ) (burstLen : BitVec 8) :
    (axiLen dataWidthBytes burstLen).toNat = ((shifted dataWidthBytes burstLen).toNat + 15) % 16 := by
  have hlt := (shifted dataWidthBytes burstLen).isLt
  rw [axiLen, BitVec.toNat_setWidth, BitVec.toNat_sub, show (1 : BitVec 8).toNat = 1 from rfl]
  omega

/-- For other widths than powers of two the shift finds some of the beats of a burst of 16, and never all of them. -/
lemma shifted_lt {burstLen : BitVec 8} (h : WholeBurst dataWidthBytes burstLen)
    (hw : ¬∃ j, dataWidthBytes = 2 ^ j) :
    (shifted dataWidthBytes burstLen).toNat < beats dataWidthBytes burstLen ∧
      (beats dataWidthBytes burstLen = 16 → 0 < (shifted dataWidthBytes burstLen).toNat) := by
  have hlt := lt_two_pow_tlog hw
  have hone : 1 < dataWidthBytes := by
    rcases Nat.lt_trichotomy dataWidthBytes 1 with h0 | h1 | h2
    · have hmul := h.mul_beats
      have hpos := h.pos
      rw [show dataWidthBytes = 0 by omega, Nat.zero_mul] at hmul
      omega
    · exact absurd ⟨0, h1⟩ hw
    · exact h2
  rw [toNat_shifted, ← h.mul_beats]
  refine ⟨?_, fun h16 => ?_⟩
  · rw [Nat.div_lt_iff_lt_mul (Nat.two_pow_pos _), Nat.mul_comm]
    exact Nat.mul_lt_mul_of_pos_left hlt h.beats_pos
  · have htop := two_pow_tlog_lt hone
    rw [h16]
    exact Nat.div_pos (by omega) (Nat.two_pow_pos _)

/-- **The bursts that the field `len` can tell**: at most 16 beats, of a width that is a power of two. -/
theorem axiLen_iff {burstLen : BitVec 8} (h : WholeBurst dataWidthBytes burstLen) :
    (axiLen dataWidthBytes burstLen).toNat + 1 = beats dataWidthBytes burstLen ↔
      (∃ j, dataWidthBytes = 2 ^ j) ∧ beats dataWidthBytes burstLen ≤ 16 := by
  have hpos := h.beats_pos
  rw [toNat_axiLen]
  by_cases hw : ∃ j, dataWidthBytes = 2 ^ j
  · rw [toNat_shifted_of_pow hw]
    refine ⟨fun heq => ⟨hw, by omega⟩, fun hle => ?_⟩
    have hle := hle.2
    omega
  · obtain ⟨hlt, h16⟩ := shifted_lt h hw
    refine ⟨fun heq => absurd heq ?_, fun hle => absurd hle.1 hw⟩
    omega

/-! ## The data channel -/

/-- The fields `last` of the beats that are left of a burst, of which there can be none. -/
def lastsLeft : ℕ → List (BitVec 1)
  | 0 => []
  | n + 1 => (if n = 0 then 1 else 0) :: lastsLeft n

lemma lastsLeft_eq {n : ℕ} (h : 0 < n) : lastsLeft n = burst n := by
  induction n with
  | zero => omega
  | succ n ih =>
    rw [lastsLeft]
    cases n with
    | zero => rfl
    | succ n =>
      rw [ih (Nat.succ_pos n)]
      rfl

/-- One more beat of a burst. -/
lemma lastsLeft_sub_one {b : BitVec 8} (h : 0 < b.toNat) :
    lastsLeft b.toNat = (if b = 1 then 1 else 0) :: lastsLeft (b - 1).toNat := by
  have hle : (1 : BitVec 8) ≤ b := h
  have hsub : (b - 1).toNat = b.toNat - 1 := BitVec.toNat_sub_of_le hle
  have hone : b = 1 ↔ b.toNat - 1 = 0 := by
    rw [BitVec.toNat_eq]
    show b.toNat = 1 ↔ _
    omega
  rw [hsub, ← Nat.succ_pred_eq_of_pos h, lastsLeft]
  simp only [hone, Nat.pred_eq_sub_one, Nat.succ_eq_add_one, Nat.add_sub_cancel]

/-- The fields `last` of the bursts as long as the shift finds them. -/
def shiftedLasts (dataWidthBytes : ℕ) (bs : List (BitVec 8)) : List (BitVec 1) :=
  bs.flatMap fun b => lastsLeft (shifted dataWidthBytes b).toNat

lemma shiftedLasts_append (dataWidthBytes : ℕ) (bs cs : List (BitVec 8)) :
    shiftedLasts dataWidthBytes (bs ++ cs) = shiftedLasts dataWidthBytes bs ++ shiftedLasts dataWidthBytes cs :=
  List.flatMap_append

/-- **The invariant**: what was sent, what is left of the burst that is sent, and the bursts in the queue are the bursts
of the requests, as long as the shift finds them. -/
structure Sends (tr : List (Event addrWidth dataWidthBytes)) (s : AxiDmaMaster) : Prop where
  whole : ∀ b ∈ burstLens tr, WholeBurst dataWidthBytes b
  len : ∀ q ∈ lens tr, q.2 = axiLen dataWidthBytes q.1
  queued : ∀ b ∈ s.reqs.items, b ∈ writeBursts tr
  cut : (∀ b ∈ writeBursts tr, 0 < (shifted dataWidthBytes b).toNat) →
    lasts tr ++ (lastsLeft s.burstReg.toNat ++ shiftedLasts dataWidthBytes s.reqs.items) =
      shiftedLasts dataWidthBytes (writeBursts tr)

variable {s s' : AxiDmaMaster} {tr es : List (Event addrWidth dataWidthBytes)}

lemma sends_reset : Sends ([] : List (Event addrWidth dataWidthBytes)) reset where
  whole := fun _ hb => absurd hb List.not_mem_nil
  len := fun _ hq => absurd hq List.not_mem_nil
  queued := fun _ hb => absurd hb List.not_mem_nil
  cut := fun _ => rfl

/-- A request for whole beats, on either address channel. -/
lemma whole_append {burstLen : BitVec 8} (h : ∀ b ∈ burstLens tr, WholeBurst dataWidthBytes b)
    (hwhole : WholeBurst dataWidthBytes burstLen) : ∀ b ∈ burstLens tr ++ [burstLen], WholeBurst dataWidthBytes b := by
  intro b hb
  rcases List.mem_append.mp hb with hb | hb
  · exact h b hb
  · rw [List.mem_singleton.mp hb]
    exact hwhole

lemma len_append {burstLen : BitVec 8} (h : ∀ q ∈ lens tr, q.2 = axiLen dataWidthBytes q.1) :
    ∀ q ∈ lens tr ++ [(burstLen, axiLen dataWidthBytes burstLen)], q.2 = axiLen dataWidthBytes q.1 := by
  intro q hq
  rcases List.mem_append.mp hq with hq | hq
  · exact h q hq
  · rw [List.mem_singleton.mp hq]

/-- The responses say nothing on these channels. -/
lemma Sends.append_silent (h : Sends tr s)
    (hes : burstLens es = [] ∧ lens es = [] ∧ writeBursts es = [] ∧ lasts es = []) : Sends (tr ++ es) s := by
  obtain ⟨hbursts, hlens, hwrites, hlasts⟩ := hes
  refine ⟨?_, ?_, ?_, ?_⟩
  · rw [burstLens_append, hbursts, List.append_nil]
    exact h.whole
  · rw [lens_append, hlens, List.append_nil]
    exact h.len
  · rw [writeBursts_append, hwrites, List.append_nil]
    exact h.queued
  · rw [writeBursts_append, lasts_append, hwrites, hlasts, List.append_nil, List.append_nil]
    exact h.cut

lemma Sends.reqAw (h : Sends tr s) {req : MemRequest addrWidth} (hstep : s.reqAw req = some (s', es)) :
    Sends (tr ++ es) s' := by
  rw [AxiDmaMaster.reqAw] at hstep
  split at hstep
  case isFalse => cases hstep
  case isTrue hwhole =>
    obtain ⟨reqs, henq, heq⟩ := Option.bind_eq_some_iff.mp hstep
    cases heq
    obtain ⟨-, hitems⟩ := Fifo.enq_eq_some.mp henq
    refine ⟨?_, ?_, ?_, ?_⟩
    · rw [burstLens_append]
      exact whole_append h.whole hwhole
    · rw [lens_append]
      exact len_append h.len
    · rw [writeBursts_append, hitems]
      intro b hb
      rcases List.mem_append.mp hb with hb | hb
      · exact List.mem_append_left _ (h.queued b hb)
      · exact List.mem_append_right _ hb
    · rw [writeBursts_append, lasts_append]
      intro hpos
      have hcut := h.cut fun b hb => hpos b (List.mem_append_left _ hb)
      dsimp only
      rw [hitems, shiftedLasts_append, shiftedLasts_append, ← hcut]
      simp [lasts, writeBursts]

/-- A beat of a burst of which `burstLen` beats were left. -/
lemma lasts_writeData {burstLen : BitVec 8} (hpos : 0 < burstLen.toNat)
    (tagdata : ObjectData (dataWidthBytes * 8)) :
    lasts [(.w tagdata (writeData burstLen tagdata) : Event addrWidth dataWidthBytes)] ++
      lastsLeft (burstLen - 1).toNat = lastsLeft burstLen.toNat := by
  rw [lastsLeft_sub_one hpos]
  rfl

lemma Sends.respWrite (h : Sends tr s) {tagdata : ObjectData (dataWidthBytes * 8)}
    (hstep : s.respWrite tagdata = some (s', es)) : Sends (tr ++ es) s' := by
  rw [AxiDmaMaster.respWrite] at hstep
  split at hstep
  case isTrue hidle =>
    simp only [Option.bind_eq_bind, Option.bind_eq_some_iff, Prod.exists, Fifo.deq_eq_some, Option.pure_def,
      Option.some.injEq, Prod.mk.injEq] at hstep
    obtain ⟨first, reqs, hitems, rfl, rfl⟩ := hstep
    have hmem : first ∈ writeBursts tr := h.queued first (hitems ▸ List.mem_cons_self)
    refine ⟨?_, ?_, ?_, ?_⟩
    · simpa [burstLens] using h.whole
    · simpa [lens] using h.len
    · rw [writeBursts_append]
      exact fun b hb => List.mem_append_left _ (h.queued b (hitems ▸ List.mem_cons_of_mem _ hb))
    · rw [writeBursts_append, lasts_append]
      intro hpos
      have hcut := h.cut fun b hb => hpos b (List.mem_append_left _ hb)
      have hfirst := @lasts_writeData addrWidth _ _ (hpos first (List.mem_append_left _ hmem)) tagdata
      rw [hidle, hitems, shiftedLasts, List.flatMap_cons, ← hfirst] at hcut
      simpa [shiftedLasts, lastsLeft, writeBursts] using hcut
  case isFalse hbusy =>
    cases hstep
    have hpos : 0 < s.burstReg.toNat := by
      rw [Nat.pos_iff_ne_zero]
      exact fun h0 => hbusy (BitVec.eq_of_toNat_eq h0)
    refine ⟨?_, ?_, ?_, ?_⟩
    · simpa [burstLens] using h.whole
    · simpa [lens] using h.len
    · rw [writeBursts_append]
      exact fun b hb => List.mem_append_left _ (h.queued b hb)
    · rw [writeBursts_append, lasts_append]
      intro hall
      have hcut := h.cut fun b hb => hall b (List.mem_append_left _ hb)
      rw [← @lasts_writeData addrWidth _ _ hpos tagdata] at hcut
      simpa [writeBursts] using hcut

/-- The invariant survives all transfers. -/
theorem Sends.step (h : Sends tr s) {a : Action addrWidth dataWidthBytes}
    (hstep : (axiDmaMaster addrWidth dataWidthBytes).step s a = some (s', es)) : Sends (tr ++ es) s' := by
  cases a with
  | reqAw req => exact h.reqAw hstep
  | respWrite tagdata => exact h.respWrite hstep
  | respB resp =>
    cases hstep
    exact h.append_silent ⟨rfl, rfl, rfl, rfl⟩
  | reqAr req =>
    simp only [axiDmaMaster, AxiDmaMaster.step] at hstep
    split at hstep
    case isFalse => cases hstep
    case isTrue hwhole =>
      cases hstep
      refine ⟨?_, ?_, ?_, ?_⟩
      · rw [burstLens_append]
        exact whole_append h.whole hwhole
      · rw [lens_append]
        exact len_append h.len
      · simpa [writeBursts] using h.queued
      · simpa [writeBursts, lasts] using h.cut
  | respRead response =>
    cases hstep
    exact h.append_silent ⟨rfl, rfl, rfl, rfl⟩

lemma sends_of_reaches (h : (axiDmaMaster addrWidth dataWidthBytes).Reaches .reset tr s) : Sends tr s :=
  h.invariant sends_reset fun hs hstep => hs.step hstep

/-! ## The runs -/

/-- **The data channel is cut into the bursts of the write requests** where the shift finds their beats. Its counter has
the 8 bits of `burstLen`. -/
theorem cut_of_widths (h : (axiDmaMaster addrWidth dataWidthBytes).Reaches .reset tr s)
    (hw : ∀ b ∈ writeBursts tr, ∃ j, dataWidthBytes = 2 ^ j) :
    lasts tr <+: (writeBursts tr).flatMap fun b => burst (beats dataWidthBytes b) := by
  have hsends := sends_of_reaches h
  have hbeats : ∀ b ∈ writeBursts tr, (shifted dataWidthBytes b).toNat = beats dataWidthBytes b ∧
      0 < beats dataWidthBytes b := fun b hb =>
    ⟨toNat_shifted_of_pow (hw b hb), (hsends.whole b (writeBursts_subset tr hb)).beats_pos⟩
  have hcut := hsends.cut fun b hb => (hbeats b hb).1 ▸ (hbeats b hb).2
  refine ⟨_, hcut.trans ?_⟩
  apply List.flatMap_congr
  intro b hb
  rw [(hbeats b hb).1, lastsLeft_eq (hbeats b hb).2]

/-- **The runs that the two channels encode** are those whose requests have at most 16 beats each, of a width that is a
power of two. -/
theorem encodes_iff {addrWidth dataWidthBytes : ℕ} {tr : List (Event addrWidth dataWidthBytes)} {s : AxiDmaMaster}
    (h : (axiDmaMaster addrWidth dataWidthBytes).Reaches .reset tr s) :
    Encodes tr ↔ ∀ b ∈ burstLens tr, (∃ j, dataWidthBytes = 2 ^ j) ∧ beats dataWidthBytes b ≤ 16 := by
  have hsends := sends_of_reaches h
  constructor
  · intro hencodes b hb
    rw [← map_fst_lens] at hb
    obtain ⟨q, hq, rfl⟩ := List.mem_map.mp hb
    have hlen := hencodes.len q hq
    rw [hsends.len q hq] at hlen
    refine (axiLen_iff (hsends.whole q.1 ?_)).mp hlen
    rw [← map_fst_lens]
    exact List.mem_map_of_mem hq
  · intro hall
    refine ⟨fun q hq => ?_, cut_of_widths h fun b hb => (hall b (writeBursts_subset tr hb)).1⟩
    have hb : q.1 ∈ burstLens tr := by
      rw [← map_fst_lens]
      exact List.mem_map_of_mem hq
    rw [hsends.len q hq]
    exact (axiLen_iff (hsends.whole q.1 hb)).mpr (hall q.1 hb)

/-- Bursts of two beats and of one, of eight bytes each, and the three beats of their data. -/
def threeBeats :=
  (axiDmaMaster 32 8).run .reset
    [.reqAw ⟨0x100, 16, 1⟩, .reqAw ⟨0x200, 8, 2⟩, .reqAr ⟨0x300, 128, 3⟩, .respWrite ⟨5, 1, false⟩,
      .respWrite ⟨6, 1, true⟩, .respWrite ⟨7, 2, true⟩]

/-- They have at most 16 beats, and are encoded. -/
theorem encodes_threeBeats : lasts threeBeats.2 = [0, 1, 1] ∧ Encodes threeBeats.2 := by
  have hreaches : (axiDmaMaster 32 8).Reaches .reset threeBeats.2 threeBeats.1 := RuleSystem.reaches_run _ _
  refine ⟨by decide +kernel, (encodes_iff hreaches).mpr ?_⟩
  have hlens : burstLens threeBeats.2 = [16, 8, 128] := by decide +kernel
  rw [hlens]
  simp only [List.forall_mem_cons, List.not_mem_nil, false_implies, implies_true, and_true]
  exact ⟨⟨⟨3, rfl⟩, by decide⟩, ⟨⟨3, rfl⟩, by decide⟩, ⟨3, rfl⟩, by decide⟩

/-- A request for 128 bytes on a bus of four. -/
def longBurst := (axiDmaMaster 32 4).run .reset [.reqAr ⟨0x100, 128, 1⟩]

/-- It has 32 beats, and `len` says 16. -/
theorem not_encodes_longBurst :
    (axiDmaMaster 32 4).Reaches .reset longBurst.2 longBurst.1 ∧ lens longBurst.2 = [(128, 15)] ∧
      beats 4 128 = 32 ∧ ¬Encodes longBurst.2 := by
  refine ⟨RuleSystem.reaches_run _ _, by decide +kernel, by decide, fun h => ?_⟩
  have hlen := h.len (128, 15) (by decide +kernel)
  exact absurd hlen (by decide)

end AxiDmaMaster

end Xbsv
