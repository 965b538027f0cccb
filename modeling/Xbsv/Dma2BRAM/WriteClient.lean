import Xbsv.Bits.Words
import Xbsv.Dma2BRAM.ReadClient
import Xbsv.Engine.SingleBeats

set_option relaxedAutoImplicit false
set_option autoImplicit false

/-!
# `mkBRAMWriteClient`, one transfer after another

The client of `Dma2BRAM.bsv` that stores a part of a block RAM. Four rules read the elements, pack them, ask the write
engine for a word at a time, and take its responses; a fifth passes the packed words to the engine. The engine takes one
command at a time, so that the response to which the end of a transfer is signalled is the one for its last word.

## Main definitions

* `Xbsv.Dma2BRAM.packElements` — the elements of a word.
* `Xbsv.Dma2BRAM.WriteClient` — the client, its methods and its rules.
* `Xbsv.Dma2BRAM.bramStores` — the client with the block RAM and a memory, and its runs.
* `Xbsv.Dma2BRAM.BramStores.Fills` — the invariant of a transfer.

## Main results

* `Xbsv.Dma2BRAM.unpackElements_packElements` — what the other client makes of a word.
* `Xbsv.Dma2BRAM.BramStores.Holds.step` — one step.
* `Xbsv.Dma2BRAM.BramStores.Holds.inOrder` — what the memory has taken.
* `Xbsv.Dma2BRAM.BramStores.Holds.complete_of_finish` — the end of a transfer.
-/

namespace Xbsv

open Bits Rules MemwriteEngine

namespace Dma2BRAM

/-! ## Words -/

/-- `pack` of a vector of elements; element 0 is in the lowest bits. -/
def packElements {dsz : ℕ} (w : ℕ) (v : List (BitVec dsz)) : BitVec w := BitVec.ofNat w (ofWords v.reverse)

/-- Where the bits of a word come from. -/
lemma getLsbD_packElements {dsz w : ℕ} (v : List (BitVec dsz)) {q : ℕ} (hq : q < w) :
    (packElements w v).getLsbD q = (v[q / dsz]?.getD 0).getLsbD (q % dsz) := by
  rw [packElements, BitVec.getLsbD_ofNat, decide_eq_true hq, Bool.true_and, testBit_ofWords, List.reverse_reverse]

/-- **The elements of a word** are those that were packed. -/
theorem unpackElements_packElements {dsz nd w : ℕ} (hw : dsz * nd = w) {v : List (BitVec dsz)} (hv : v.length = nd) :
    unpackElements dsz nd (packElements w v) = v := by
  refine List.ext_getElem ?_ fun p hp hpv => BitVec.eq_of_getLsbD_eq fun q hq => ?_
  · rw [unpackElements, List.length_map, List.length_range, hv]
  · have hp' : p < nd := hv ▸ hpv
    have hlt : dsz * p + q < w := by
      calc dsz * p + q < dsz * p + dsz := Nat.add_lt_add_left hq _
        _ = dsz * (p + 1) := (Nat.mul_succ _ _).symm
        _ ≤ dsz * nd := Nat.mul_le_mul_left _ hp'
        _ = w := hw
    have hpos : 0 < dsz := Nat.zero_lt_of_lt hq
    have hdiv : (dsz * p + q) / dsz = p := by
      rw [Nat.mul_add_div hpos, Nat.div_eq_of_lt hq, Nat.add_zero]
    have hmod : (dsz * p + q) % dsz = q := by
      rw [Nat.mul_add_mod, Nat.mod_eq_of_lt hq]
    simp only [unpackElements, List.getElem_map, List.getElem_range]
    rw [BitVec.getLsbD_extractLsb', decide_eq_true hq, Bool.true_and, getLsbD_packElements _ hlt, hdiv, hmod,
      List.getElem?_eq_getElem hpv, Option.getD_some]

/-! ## The client -/

/-- The state of `mkBRAMWriteClient`: elements of `dsz` bits, and words of `nd` elements and `nb` bytes. -/
structure WriteClient (idxWidth dsz nd nb : ℕ) where
  f : Fifo 1 Unit
  i : BitVec (1 + idxWidth)
  j : BitVec (1 + idxWidth)
  n : BitVec (1 + idxWidth)
  ptr : BitVec 32
  off : BitVec 40
  gb : Fifo (2 * nd) (BitVec dsz)
  we : MemwriteEngine (8 * nb) 1 1 (256 / nb)

namespace WriteClient

variable {idxWidth dsz nd nb : ℕ}

/-- After reset, with the given contents of the block RAMs of the engine. -/
def reset (buff : BitVec (buffAddrSz 1 1) → MemengineCmd)
    (complBuff : BitVec (buffAddrSz 4 16) → BitVec (8 * nb) × Bool) : WriteClient idxWidth dsz nd nb :=
  ⟨.empty, BitVec.allOnes _, BitVec.allOnes _, 0, 0, 0, .empty, MemwriteEngine.reset _ _ _ _ buff complBuff⟩

variable (s : WriteClient idxWidth dsz nd nb)

/-- A rule or method of `mkMemwriteEngine`. -/
def engine (a : MemwriteEngine.Action (8 * nb) 1) :
    Option (WriteClient idxWidth dsz nd nb × List (MemwriteEngine.Event (8 * nb) 1)) := do
  let (we, es) ← (memwriteEngine (8 * nb) nb 1 1 (256 / nb)).step s.we a
  return ({ s with we }, es)

/-- `start`. -/
def start (h : BitVec 32) (b : BitVec 40) (start_idx finish_idx : BitVec idxWidth) : WriteClient idxWidth dsz nd nb :=
  { s with i := start_idx.setWidth _, j := start_idx.setWidth _, n := finish_idx.setWidth _, ptr := h, off := b }

/-- `finish`. -/
def finish : Option (WriteClient idxWidth dsz nd nb) := do
  let (_, f) ← s.f.deq
  return { s with f }

/-- Rule `drain_geatbox`. -/
def drainGeatbox : Option (WriteClient idxWidth dsz nd nb × List (MemwriteEngine.Event (8 * nb) 1)) := do
  let gb ← s.gb.deqN nd
  ({ s with gb } : WriteClient idxWidth dsz nd nb).engine (.pipe 0 (packElements _ (s.gb.items.take nd)))

/-- Rule `bramReq`, with the address that it asks for. -/
def bramReq : Option (WriteClient idxWidth dsz nd nb × BitVec idxWidth) :=
  if s.j ≤ s.n then some ({ s with j := s.j + 1 }, s.j.setWidth _) else none

/-- Rule `bramResp`. -/
def bramResp (rv : BitVec dsz) : Option (WriteClient idxWidth dsz nd nb) := do
  let gb ← s.gb.enq rv
  return { s with gb }

/-- Rule `loadReq`. -/
def loadReq : Option (WriteClient idxWidth dsz nd nb × List (MemwriteEngine.Event (8 * nb) 1)) :=
  if s.i ≤ s.n then
    ({ s with off := s.off + BitVec.ofNat 40 nb, i := s.i + BitVec.ofNat _ nd } : WriteClient idxWidth dsz nd nb).engine
      (.put 0 ⟨s.ptr, s.off, (BitVec.ofNat 40 nb).setWidth 8, (BitVec.ofNat 40 nb).setWidth 32⟩)
  else none

/-- Rule `loadResp`. -/
def loadResp : Option (WriteClient idxWidth dsz nd nb × List (MemwriteEngine.Event (8 * nb) 1)) := do
  let f ← s.f.enqIf (s.n < s.i) ()
  ({ s with f } : WriteClient idxWidth dsz nd nb).engine (.get 0)

end WriteClient

/-! ## Transfers -/

/-- A transfer, with what the block RAM holds during it. -/
structure Store (idxWidth dsz : ℕ) where
  transfer : Transfer idxWidth
  bram : BitVec idxWidth → BitVec dsz

namespace Store

variable {idxWidth dsz : ℕ} (st : Store idxWidth dsz) (nd nb : ℕ)

/-- The number of elements. -/
def length : ℕ := st.transfer.finish_idx.toNat + 1 - st.transfer.start_idx.toNat

/-- The elements. -/
def element (k : ℕ) : BitVec dsz := st.bram (BitVec.ofNat _ (st.transfer.start_idx.toNat + k))

/-- The place of a word in the object. The offsets wrap around. -/
def place (m : ℕ) : BitVec 32 × BitVec 40 := (st.transfer.h, st.transfer.base + BitVec.ofNat 40 (m * nb))

/-- A word. -/
def word (m : ℕ) : BitVec (8 * nb) := packElements (8 * nb) ((List.range' (m * nd) nd).map st.element)

/-- **The words of a transfer**, with their places. -/
def words : List ((BitVec 32 × BitVec 40) × BitVec (8 * nb)) :=
  (List.range (st.length / nd)).map fun m => (st.place nb m, st.word nd nb m)

/-- The requests of a transfer: one for each word. -/
def requests : List ObjectRequest :=
  (List.range (st.length / nd)).map fun m => ⟨(st.place nb m).1, (st.place nb m).2, BitVec.ofNat 8 nb, 0⟩

/-- `start` is called for some whole words. -/
def Whole : Prop := st.transfer.start_idx ≤ st.transfer.finish_idx ∧ nd ∣ st.length

instance : Decidable (st.Whole nd) := inferInstanceAs (Decidable (_ ∧ _))

/-- The command for a word. -/
def cmd (m : ℕ) : MemengineCmd :=
  ⟨(st.place nb m).1, (st.place nb m).2, (BitVec.ofNat 40 nb).setWidth 8, (BitVec.ofNat 40 nb).setWidth 32⟩

/-- The commands of a transfer. -/
def cmds : List MemengineCmd := (List.range (st.length / nd)).map (st.cmd nb)

/-- The words without their places. -/
def data : List (BitVec (8 * nb)) := (List.range (st.length / nd)).map (st.word nd nb)

section Commands

variable {st nd nb} {k : ℕ}

/-- A command is for one beat, if a beat has a power of two of bytes, and not more than 128. -/
lemma single_of_width (hw : nb = 2 ^ k) (hk : k ≤ 7) (pointer : BitVec 32) (base : BitVec 40) :
    MemengineCmd.Single nb ⟨pointer, base, (BitVec.ofNat 40 nb).setWidth 8, (BitVec.ofNat 40 nb).setWidth 32⟩ := by
  have hle : 2 ^ k ≤ 2 ^ 7 := Nat.pow_le_pow_right Nat.two_pos hk
  constructor
  · rw [BitVec.toNat_setWidth, BitVec.toNat_ofNat, Nat.mod_eq_of_lt (by omega : nb < 2 ^ 40),
      Nat.mod_eq_of_lt (by omega)]
  · rw [BitVec.toNat_setWidth, BitVec.toNat_ofNat, Nat.mod_eq_of_lt (by omega : nb < 2 ^ 40),
      Nat.mod_eq_of_lt (by omega)]

/-- The requests are those of the commands. -/
lemma map_request_cmds (hw : nb = 2 ^ k) (hk : k ≤ 7) :
    (st.cmds nd nb).map MemengineCmd.request = st.requests nd nb := by
  rw [cmds, List.map_map, requests]
  exact List.map_congr_left fun m _ => (single_of_width hw hk _ _).request

/-- The words and their places, for several transfers. -/
lemma zip_cmds_data (sts : List (Store idxWidth dsz)) :
    ((sts.flatMap fun st => st.cmds nd nb).map fun c => (c.pointer, c.base)).zip
      (sts.flatMap fun st => st.data nd nb) = sts.flatMap fun st => st.words nd nb := by
  induction sts with
  | nil => rfl
  | cons st sts ih =>
    have hlen : ((st.cmds nd nb).map fun c => (c.pointer, c.base)).length = (st.data nd nb).length := by
      rw [cmds, data, List.length_map, List.length_map, List.length_map]
    rw [List.flatMap_cons, List.flatMap_cons, List.flatMap_cons, List.map_append, List.zip_append hlen, ih]
    congr 1
    rw [cmds, data, List.map_map, List.zip_map', words]
    rfl

lemma length_cmds_eq (nd nb : ℕ) (sts : List (Store idxWidth dsz)) :
    (sts.flatMap fun st => st.cmds nd nb).length = (sts.flatMap fun st => st.data nd nb).length := by
  rw [List.length_flatMap, List.length_flatMap]
  simp only [cmds, data, List.length_map]

lemma length_words_eq (nd nb : ℕ) (sts : List (Store idxWidth dsz)) :
    (sts.flatMap fun st => st.words nd nb).length = (sts.flatMap fun st => st.data nd nb).length := by
  rw [List.length_flatMap, List.length_flatMap]
  simp only [words, data, List.length_map]

end Commands

end Store

/-- The client with the block RAM, its responses that have not been taken, and whether a transfer is going on. -/
structure BramStores (idxWidth dsz nd nb bramDepth : ℕ) where
  client : WriteClient idxWidth dsz nd nb
  bram : BitVec idxWidth → BitVec dsz
  responses : Fifo bramDepth (BitVec dsz)
  busy : Bool

namespace BramStores

variable {idxWidth dsz nd nb bramDepth : ℕ}

def reset (bram : BitVec idxWidth → BitVec dsz) (buff : BitVec (buffAddrSz 1 1) → MemengineCmd)
    (complBuff : BitVec (buffAddrSz 4 16) → BitVec (8 * nb) × Bool) : BramStores idxWidth dsz nd nb bramDepth :=
  ⟨.reset buff complBuff, bram, .empty, false⟩

/-- The calls, the rules, the rules of the engine and the steps of the memory. What the block RAM holds changes between
transfers. -/
inductive Action (idxWidth dsz nb : ℕ)
  | start (st : Store idxWidth dsz)
  | finish | drainGeatbox | bramReq | bramResp | loadReq | loadResp
  | engine (a : MemwriteEngine.Action (8 * nb) 1)

/-- What can be seen of a run. -/
inductive Event (idxWidth dsz nb : ℕ)
  | engine (e : MemwriteEngine.Event (8 * nb) 1)
  | started (st : Store idxWidth dsz)
  | finished

/-- A step. `start` is called for some whole words, and after `finish`. -/
def step (s : BramStores idxWidth dsz nd nb bramDepth) :
    Action idxWidth dsz nb → Option (BramStores idxWidth dsz nd nb bramDepth × List (Event idxWidth dsz nb))
  | .start st =>
    if s.busy = false ∧ st.Whole nd then
      some ({ s with
        client := s.client.start st.transfer.h st.transfer.base st.transfer.start_idx st.transfer.finish_idx
        bram := st.bram
        busy := true }, [.started st])
    else none
  | .finish => s.client.finish.map fun client => ({ s with client, busy := false }, [.finished])
  | .drainGeatbox => s.client.drainGeatbox.map fun r => ({ s with client := r.1 }, r.2.map .engine)
  | .bramReq => do
    let (client, address) ← s.client.bramReq
    let responses ← s.responses.enq (s.bram address)
    return ({ s with client, responses }, [])
  | .bramResp => do
    let (rv, responses) ← s.responses.deq
    let client ← s.client.bramResp rv
    return ({ s with client, responses }, [])
  | .loadReq => s.client.loadReq.map fun r => ({ s with client := r.1 }, r.2.map .engine)
  | .loadResp => s.client.loadResp.map fun r => ({ s with client := r.1 }, r.2.map .engine)
  | .engine a =>
    if a.byClient then none
    else (s.client.engine a).map fun r => ({ s with client := r.1 }, r.2.map .engine)

end BramStores

/-- One transfer after another, with any interleaving of the rules, the block RAM and the memory. -/
def bramStores (idxWidth dsz nd nb bramDepth : ℕ) : RuleSystem (BramStores idxWidth dsz nd nb bramDepth)
    (BramStores.Action idxWidth dsz nb) (BramStores.Event idxWidth dsz nb) where
  step := BramStores.step

namespace BramStores

/-! ## What can be seen -/

section Traces

variable {idxWidth dsz nb : ℕ} (tr es : List (Event idxWidth dsz nb))

/-- The events of the engine. -/
def engineEvents : List (MemwriteEngine.Event (8 * nb) 1) :=
  tr.filterMap fun
    | .engine e => some e
    | _ => none

/-- What can be seen of the engine. -/
def record : Record (8 * nb) 1 := recordOf (engineEvents tr)

/-- The transfers that were started. -/
def starts : List (Store idxWidth dsz) :=
  tr.filterMap fun
    | .started st => some st
    | _ => none

/-- How many transfers were finished. -/
def finishes : ℕ := tr.countP fun
  | .finished => true
  | _ => false

@[simp] lemma starts_append : starts (tr ++ es) = starts tr ++ starts es := List.filterMap_append

@[simp] lemma finishes_append : finishes (tr ++ es) = finishes tr + finishes es := List.countP_append

lemma record_append : record (tr ++ es) = (engineEvents es).foldl Record.add (record tr) := by
  rw [record, engineEvents, List.filterMap_append]
  exact recordOf_append _ _

@[simp] lemma engineEvents_engine (ds : List (MemwriteEngine.Event (8 * nb) 1)) :
    engineEvents (ds.map .engine : List (Event idxWidth dsz nb)) = ds := by
  rw [engineEvents, List.filterMap_map]
  exact List.filterMap_some

@[simp] lemma starts_engine (ds : List (MemwriteEngine.Event (8 * nb) 1)) :
    starts (ds.map .engine : List (Event idxWidth dsz nb)) = [] := by
  rw [starts, List.filterMap_map]
  exact List.filterMap_eq_nil_iff.mpr fun _ _ => rfl

@[simp] lemma finishes_engine (ds : List (MemwriteEngine.Event (8 * nb) 1)) :
    finishes (ds.map .engine : List (Event idxWidth dsz nb)) = 0 := by
  rw [finishes, List.countP_map]
  exact List.countP_eq_zero.mpr fun _ _ => Bool.false_ne_true

/-- What the memory takes is right: the requests and the words are those of the transfers in turn, and no word comes
without a request for it. -/
structure InOrder (nd : ℕ) (tr : List (Event idxWidth dsz nb)) : Prop where
  requests : (record tr).requestsOf 0 <+: (starts tr).flatMap fun st => st.requests nd nb
  words : (record tr).storedTo nb 0 <+: (starts tr).flatMap fun st => st.words nd nb
  requested : (record tr).written.length ≤ (record tr).requests.length
  finishes_le : finishes tr ≤ (starts tr).length
  starts_le : (starts tr).length ≤ finishes tr + 1

/-- The memory has taken all words of the transfers and has answered all of them. -/
structure Complete (nd : ℕ) (tr : List (Event idxWidth dsz nb)) : Prop where
  words : (record tr).storedTo nb 0 = (starts tr).flatMap fun st => st.words nd nb
  dones : (record tr).dones = ((starts tr).flatMap fun st => st.words nd nb).length

end Traces

/-! ## The invariant -/

section Invariant

variable {idxWidth dsz nd nb bramDepth k : ℕ} {past : List (Store idxWidth dsz)} {st : Store idxWidth dsz}
  {a p : ℕ} {R : Record (8 * nb) 1} {s s' : BramStores idxWidth dsz nd nb bramDepth}
  {client : WriteClient idxWidth dsz nd nb}

/-- No transfer is going on: all those of the `past` have been finished. -/
structure Idle (past : List (Store idxWidth dsz)) (R : Record (8 * nb) 1)
    (s : BramStores idxWidth dsz nd nb bramDepth) : Prop where
  i : s.client.n < s.client.i
  j : s.client.n < s.client.j
  f : s.client.f.items = []
  gb : s.client.gb.items = []
  responses : s.responses.items = []
  accepted : R.accepted 0 = past.flatMap fun st => st.cmds nd nb
  piped : R.piped 0 = past.flatMap fun st => st.data nd nb
  answered : R.responses 0 = (R.accepted 0).length

/-- The elements that have been read and not been packed. -/
def underWay (s : BramStores idxWidth dsz nd nb bramDepth) : List (BitVec dsz) :=
  s.client.gb.items ++ s.responses.items

/-- **The invariant of a transfer**, of which `a` words have been asked for and `p` words have been packed. -/
structure Fills (past : List (Store idxWidth dsz)) (st : Store idxWidth dsz) (a p : ℕ) (R : Record (8 * nb) 1)
    (s : BramStores idxWidth dsz nd nb bramDepth) : Prop where
  bram : s.bram = st.bram
  whole : st.Whole nd
  n : s.client.n = st.transfer.finish_idx.setWidth _
  ptr : s.client.ptr = st.transfer.h
  off : s.client.off = st.transfer.base + BitVec.ofNat 40 (a * nb)
  i : s.client.i.toNat = st.transfer.start_idx.toNat + a * nd
  a_le : a * nd ≤ st.length
  j : s.client.j.toNat = st.transfer.start_idx.toNat + (p * nd + s.underWay.length)
  j_le : p * nd + s.underWay.length ≤ st.length
  underWay : s.underWay = (List.range' (p * nd) s.underWay.length).map st.element
  accepted : R.accepted 0 = (past.flatMap fun st => st.cmds nd nb) ++ (List.range a).map (st.cmd nb)
  piped : R.piped 0 = (past.flatMap fun st => st.data nd nb) ++ (List.range p).map (st.word nd nb)
  f : s.client.f.items = if a * nd = st.length ∧ R.responses 0 = (R.accepted 0).length then [()] else []

namespace Fills

lemma start_add_length (h : Fills past st a p R s) :
    st.transfer.start_idx.toNat + st.length = st.transfer.finish_idx.toNat + 1 := by
  have hle := BitVec.le_def.mp h.whole.1
  rw [Store.length]
  omega

lemma n_toNat (h : Fills past st a p R s) : s.client.n.toNat = st.transfer.finish_idx.toNat := by
  rw [h.n]
  exact BitVec.toNat_setWidth_of_le (by omega)

/-- The test of rule `loadReq`. -/
lemma i_le_iff (h : Fills past st a p R s) : s.client.i ≤ s.client.n ↔ a * nd < st.length := by
  have hsum := h.start_add_length
  rw [BitVec.le_def, h.n_toNat, h.i]
  omega

/-- The test of rule `loadResp`. -/
lemma n_lt_iff (h : Fills past st a p R s) : s.client.n < s.client.i ↔ a * nd = st.length := by
  have hsum := h.start_add_length
  have hle := h.a_le
  rw [BitVec.lt_def, h.n_toNat, h.i]
  omega

/-- The test of rule `bramReq`. -/
lemma j_le_iff (h : Fills past st a p R s) : s.client.j ≤ s.client.n ↔ p * nd + s.underWay.length < st.length := by
  have hsum := h.start_add_length
  rw [BitVec.le_def, h.n_toNat, h.j]
  omega

/-- A word is missing to the end, if anything is. -/
lemma succ_mul_le {m : ℕ} (h : Fills past st a p R s) (hlt : m * nd < st.length) : (m + 1) * nd ≤ st.length := by
  obtain ⟨q, hq⟩ := h.whole.2
  rw [hq, Nat.mul_comm nd q] at hlt ⊢
  exact Nat.mul_le_mul_right nd (Nat.lt_of_mul_lt_mul_right hlt)

/-- The engine does something that does not concern the client. -/
lemma inner (h : Fills past st a p R s) {we : MemwriteEngine (8 * nb) 1 1 (256 / nb)} {R' : Record (8 * nb) 1}
    (haccepted : R'.accepted = R.accepted) (hpiped : R'.piped = R.piped) (hresponses : R'.responses = R.responses) :
    Fills past st a p R' { s with client := { s.client with we } } := by
  refine { h with accepted := ?_, piped := ?_, f := ?_ }
  · rw [haccepted]
    exact h.accepted
  · rw [hpiped]
    exact h.piped
  · rw [haccepted, hresponses]
    exact h.f

/-- The next element is read. -/
lemma bramReq (h : Fills past st a p R s) {address : BitVec idxWidth} {responses : Fifo bramDepth (BitVec dsz)}
    (hs : s.client.bramReq = some (client, address)) (henq : s.responses.enq (s.bram address) = some responses) :
    Fills past st a p R { s with client, responses } := by
  simp only [WriteClient.bramReq, Option.ite_none_right_eq_some, Option.some.injEq, Prod.mk.injEq] at hs
  obtain ⟨hj, rfl, rfl⟩ := hs
  obtain ⟨-, hitems⟩ := Fifo.enq_eq_some.mp henq
  have hlt := h.j_le_iff.mp hj
  have hsum := h.start_add_length
  have hfinish := st.transfer.finish_idx.isLt
  have hread : s.bram (s.client.j.setWidth idxWidth) = st.element (p * nd + s.underWay.length) := by
    rw [Store.element, h.bram, ← h.j]
    exact congrArg st.bram (BitVec.ofNat_toNat idxWidth _).symm
  have hway : ({ s with client := { s.client with j := s.client.j + 1 }, responses } :
      BramStores idxWidth dsz nd nb bramDepth).underWay = s.underWay ++ [st.element (p * nd + s.underWay.length)] := by
    rw [BramStores.underWay, hitems, hread, ← List.append_assoc]
    rfl
  have hval := h.j
  have hj' : (s.client.j + 1).toNat = s.client.j.toNat + 1 := toNat_index_succ (by omega)
  refine { h with j := ?_, j_le := ?_, underWay := ?_ }
  · show (s.client.j + 1).toNat = _
    rw [hj', h.j, hway, List.length_append, List.length_singleton]
    omega
  · rw [hway, List.length_append, List.length_singleton]
    omega
  · rw [hway, List.length_append, List.length_singleton, List.range'_concat, List.map_append, ← h.underWay, Nat.one_mul]
    rfl

/-- A response of the block RAM goes into the gearbox. -/
lemma bramResp (h : Fills past st a p R s) {rv : BitVec dsz} {responses : Fifo bramDepth (BitVec dsz)}
    (hdeq : s.responses.deq = some (rv, responses)) (hs : s.client.bramResp rv = some client) :
    Fills past st a p R { s with client, responses } := by
  simp only [WriteClient.bramResp, bind, pure, Option.bind_eq_some_iff, Fifo.enq_eq_some, Option.some.injEq] at hs
  obtain ⟨gb, ⟨-, hgb⟩, rfl⟩ := hs
  have hitems := Fifo.deq_eq_some.mp hdeq
  have hway : ({ s with client := { s.client with gb }, responses } :
      BramStores idxWidth dsz nd nb bramDepth).underWay = s.underWay := by
    rw [BramStores.underWay, BramStores.underWay, hgb, hitems, List.append_assoc]
    rfl
  refine { h with j := ?_, j_le := ?_, underWay := ?_ }
  · rw [hway]
    exact h.j
  · rw [hway]
    exact h.j_le
  · rw [hway]
    exact h.underWay

/-- A word is packed. -/
lemma drainGeatbox (h : Fills past st a p R s) {es : List (MemwriteEngine.Event (8 * nb) 1)}
    (hs : s.client.drainGeatbox = some (client, es)) :
    es = [.piped 0 (st.word nd nb p)] ∧
      Fills past st a (p + 1) (R.add (.piped 0 (st.word nd nb p))) { s with client } := by
  simp only [WriteClient.drainGeatbox, WriteClient.engine, memwriteEngine, bind, pure, Option.bind_eq_some_iff,
    Prod.exists, Fifo.deqN_eq_some, Option.some.injEq, Prod.mk.injEq] at hs
  obtain ⟨gb, ⟨hle, hgb⟩, we, ds, ⟨we', hpipe, rfl, rfl⟩, rfl, rfl⟩ := hs
  have hlen : s.underWay.length = nd + (s.underWay.length - nd) := by
    rw [BramStores.underWay, List.length_append]
    omega
  have hway := h.underWay
  rw [hlen, ← List.range'_append_1, List.map_append] at hway
  have htake : s.client.gb.items.take nd = (List.range' (p * nd) nd).map st.element := by
    have heq := congrArg (List.take nd) hway
    rwa [BramStores.underWay, List.take_append_of_le_length hle, List.take_left' (by simp)] at heq
  have hdrop : gb.items ++ s.responses.items =
      (List.range' (p * nd + nd) (s.underWay.length - nd)).map st.element := by
    have heq := congrArg (List.drop nd) hway
    rwa [BramStores.underWay, List.drop_append_of_le_length hle, List.drop_left' (by simp), ← hgb] at heq
  have hlen' : (gb.items ++ s.responses.items).length = s.underWay.length - nd := by
    rw [hdrop, List.length_map, List.length_range']
  have hword : packElements (8 * nb) (s.client.gb.items.take nd) = st.word nd nb p := by rw [htake, Store.word]
  rw [hword]
  have hsucc : (p + 1) * nd = p * nd + nd := Nat.succ_mul p nd
  have hj := h.j
  have hj_le := h.j_le
  refine ⟨rfl, { h with j := ?_, j_le := ?_, underWay := ?_, piped := ?_ }⟩
  · show s.client.j.toNat = _ + (_ + (gb.items ++ s.responses.items).length)
    omega
  · show _ + (gb.items ++ s.responses.items).length ≤ _
    omega
  · show gb.items ++ s.responses.items = (List.range' _ (gb.items ++ s.responses.items).length).map _
    rw [hlen', hsucc]
    exact hdrop
  · rw [List.range_succ, List.map_append, ← List.append_assoc, ← h.piped]
    simp only [Record.add, Function.update_self]
    rfl

/-- The next word is asked for. -/
lemma loadReq (h : Fills past st a p R s) {es : List (MemwriteEngine.Event (8 * nb) 1)}
    (hle : R.responses 0 ≤ (R.accepted 0).length) (hs : s.client.loadReq = some (client, es)) :
    es = [.accepted 0 (st.cmd nb a)] ∧
      Fills past st (a + 1) p (R.add (.accepted 0 (st.cmd nb a))) { s with client } := by
  simp only [WriteClient.loadReq, Option.ite_none_right_eq_some, WriteClient.engine, memwriteEngine, bind, pure,
    Option.bind_eq_some_iff, Prod.exists, Option.some.injEq, Prod.mk.injEq] at hs
  obtain ⟨hi, we, ds, ⟨we', hput, rfl, rfl⟩, rfl, rfl⟩ := hs
  have hlt := h.i_le_iff.mp hi
  have hnext := h.succ_mul_le hlt
  have hsum := h.start_add_length
  have hfinish := st.transfer.finish_idx.isLt
  have hsucc : (a + 1) * nd = a * nd + nd := Nat.succ_mul a nd
  have hcmd : (⟨s.client.ptr, s.client.off, (BitVec.ofNat 40 nb).setWidth 8, (BitVec.ofNat 40 nb).setWidth 32⟩ :
      MemengineCmd) = st.cmd nb a := by
    rw [h.ptr, h.off]
    rfl
  have haccepted : (R.add (.accepted 0 (st.cmd nb a))).accepted 0 = R.accepted 0 ++ [st.cmd nb a] := by
    simp only [Record.add, Function.update_self]
  rw [hcmd]
  refine ⟨rfl, { h with off := ?_, i := ?_, a_le := hnext, accepted := ?_, f := ?_ }⟩
  · show s.client.off + BitVec.ofNat 40 nb = _
    rw [h.off, BitVec.add_assoc, ← BitVec.ofNat_add, Nat.succ_mul]
  · show (s.client.i + BitVec.ofNat _ nd).toNat = _
    have hval := h.i
    rw [toNat_index_add (by omega) (by omega)]
    omega
  · rw [haccepted, List.range_succ, List.map_append, ← List.append_assoc, ← h.accepted]
    rfl
  · -- a response is still to come
    have hbefore : ¬(a * nd = st.length ∧ R.responses 0 = (R.accepted 0).length) := fun hend => hlt.ne hend.1
    have hafter : R.responses 0 ≠ (R.accepted 0 ++ [st.cmd nb a]).length := by
      rw [List.length_append, List.length_singleton]
      omega
    rw [haccepted, if_neg fun hend => hafter hend.2]
    exact h.f.trans (if_neg hbefore)

/-- A response is taken, to the only command that has none. -/
lemma loadResp (h : Fills past st a p R s) {es : List (MemwriteEngine.Event (8 * nb) 1)}
    (hlt : R.responses 0 + 1 = (R.accepted 0).length) (hs : s.client.loadResp = some (client, es)) :
    es = [.response 0] ∧ Fills past st a p (R.add (.response 0)) { s with client } := by
  simp only [WriteClient.loadResp, WriteClient.engine, memwriteEngine, bind, pure, Option.bind_eq_some_iff,
    Prod.exists, Fifo.enqIf_eq_some, Option.some.injEq, Prod.mk.injEq] at hs
  obtain ⟨f, ⟨-, hf⟩, we, ds, ⟨l, hget, rfl, rfl⟩, rfl, rfl⟩ := hs
  have hempty : s.client.f.items = [] := by
    rw [h.f, if_neg]
    rintro ⟨-, heq⟩
    omega
  have hresponses : (R.add (.response 0)).responses 0 = R.responses 0 + 1 := by
    simp only [Record.add, Function.update_self]
  refine ⟨rfl, { h with f := ?_ }⟩
  show f.items = if a * nd = st.length ∧ _ = (R.accepted 0).length then [()] else []
  rw [hf, hempty, List.nil_append, hresponses, hlt]
  simp [h.n_lt_iff]

/-- At the end of a transfer all has been packed. -/
lemma packed (h : Fills past st a p R s) (hend : a * nd = st.length)
    (hle : (R.accepted 0).length ≤ (R.piped 0).length) : p * nd = st.length ∧ s.underWay = [] := by
  have hlen := Store.length_cmds_eq nd nb past
  rw [h.accepted, h.piped, List.length_append, List.length_append, List.length_map, List.length_map, List.length_range,
    List.length_range, hlen] at hle
  have hmul : a * nd ≤ p * nd := Nat.mul_le_mul_right nd (by omega)
  have hj_le := h.j_le
  exact ⟨by omega, List.eq_nil_of_length_eq_zero (by omega)⟩

/-- When `finish` can be called, all words have been asked for, and there has been a response to each command. -/
lemma answered_of_finish (h : Fills past st a p R s) (hs : s.client.finish = some client) :
    R.responses 0 = (R.accepted 0).length := by
  simp only [WriteClient.finish, bind, pure, Option.bind_eq_some_iff, Prod.exists, Fifo.deq_eq_some] at hs
  obtain ⟨u, f, hf, -⟩ := hs
  rw [h.f] at hf
  split at hf
  case isTrue hend => exact hend.2
  case isFalse => cases hf

/-- **The end of a transfer.** -/
lemma finish (hnd : 0 < nd) (h : Fills past st a p R s) (hle : (R.accepted 0).length ≤ (R.piped 0).length)
    (hs : s.client.finish = some client) : Idle (past ++ [st]) R { s with client, busy := false } := by
  simp only [WriteClient.finish, bind, pure, Option.bind_eq_some_iff, Prod.exists, Fifo.deq_eq_some,
    Option.some.injEq] at hs
  obtain ⟨u, f, hf, rfl⟩ := hs
  have hfull := h.f
  rw [hf] at hfull
  split at hfull
  case isFalse => cases hfull
  rename_i hend
  obtain ⟨hp, hway⟩ := h.packed hend.1 hle
  obtain ⟨hgb, hresponses⟩ := List.append_eq_nil_iff.mp hway
  have hsum := h.start_add_length
  have hcount : ∀ m, m * nd = st.length → st.length / nd = m := fun m hm => by
    rw [← hm, Nat.mul_div_cancel m hnd]
  constructor
  · exact h.n_lt_iff.mpr hend.1
  · show s.client.n < s.client.j
    rw [BitVec.lt_def, h.n_toNat, h.j, hway, List.length_nil]
    omega
  · exact (List.cons.inj hfull).2
  · exact hgb
  · exact hresponses
  · rw [h.accepted, List.flatMap_append, List.flatMap_singleton, Store.cmds, hcount a hend.1]
  · rw [h.piped, List.flatMap_append, List.flatMap_singleton, Store.data, hcount p hp]
  · exact hend.2

end Fills

namespace Idle

/-- After reset. -/
lemma reset (bram : BitVec idxWidth → BitVec dsz) (buff : BitVec (buffAddrSz 1 1) → MemengineCmd)
    (complBuff : BitVec (buffAddrSz 4 16) → BitVec (8 * nb) × Bool) :
    Idle [] .empty (BramStores.reset bram buff complBuff : BramStores idxWidth dsz nd nb bramDepth) := by
  have hlt : (0 : BitVec (1 + idxWidth)) < BitVec.allOnes _ := by
    have hzero : (0 : BitVec (1 + idxWidth)).toNat = 0 := BitVec.toNat_zero
    rw [BitVec.lt_def, BitVec.toNat_allOnes, hzero, Nat.sub_pos_iff_lt]
    exact Nat.one_lt_two_pow (by omega)
  exact ⟨hlt, hlt, rfl, rfl, rfl, rfl, rfl, rfl⟩

/-- The engine does something that does not concern the client. -/
lemma inner (h : Idle past R s) {we : MemwriteEngine (8 * nb) 1 1 (256 / nb)} {R' : Record (8 * nb) 1}
    (haccepted : R'.accepted = R.accepted) (hpiped : R'.piped = R.piped) (hresponses : R'.responses = R.responses) :
    Idle past R' { s with client := { s.client with we } } := by
  refine { h with accepted := ?_, piped := ?_, answered := ?_ }
  · rw [haccepted]
    exact h.accepted
  · rw [hpiped]
    exact h.piped
  · rw [haccepted, hresponses]
    exact h.answered

/-- The start of a transfer. -/
lemma start (h : Idle past R s) (hst : st.Whole nd) : Fills past st 0 0 R ({ s with
    client := s.client.start st.transfer.h st.transfer.base st.transfer.start_idx st.transfer.finish_idx
    bram := st.bram
    busy := true } : BramStores idxWidth dsz nd nb bramDepth) := by
  have hle := BitVec.le_def.mp hst.1
  have hpos : 0 < st.length := by
    rw [Store.length]
    omega
  have hway : ({ s with
      client := s.client.start st.transfer.h st.transfer.base st.transfer.start_idx st.transfer.finish_idx
      bram := st.bram
      busy := true } : BramStores idxWidth dsz nd nb bramDepth).underWay = [] := by
    show s.client.gb.items ++ s.responses.items = []
    rw [h.gb, h.responses]
    rfl
  have hstart : (st.transfer.start_idx.setWidth (1 + idxWidth)).toNat = st.transfer.start_idx.toNat :=
    BitVec.toNat_setWidth_of_le (by omega)
  constructor
  · rfl
  · exact hst
  · rfl
  · rfl
  · rw [Nat.zero_mul, BitVec.add_zero]
    rfl
  · rw [Nat.zero_mul, Nat.add_zero]
    exact hstart
  · rw [Nat.zero_mul]
    exact Nat.zero_le _
  · rw [hway, Nat.zero_mul, List.length_nil, Nat.add_zero]
    exact hstart
  · rw [hway, Nat.zero_mul, List.length_nil, Nat.add_zero]
    exact Nat.zero_le _
  · rw [hway]
    rfl
  · rw [h.accepted, List.range_zero, List.map_nil, List.append_nil]
  · rw [h.piped, List.range_zero, List.map_nil, List.append_nil]
  · rw [Nat.zero_mul, if_neg fun hend => hpos.ne hend.1]
    exact h.f

end Idle

end Invariant

/-! ## Runs -/

section Runs

variable {idxWidth dsz nd nb bramDepth k : ℕ} {tr : List (Event idxWidth dsz nb)}
  {es : List (Event idxWidth dsz nb)} {s s' : BramStores idxWidth dsz nd nb bramDepth}

/-- Whether a transfer is going on, which is then the last that was started. -/
inductive Turn (tr : List (Event idxWidth dsz nb)) (s : BramStores idxWidth dsz nd nb bramDepth) : Prop
  | idle : s.busy = false → finishes tr = (starts tr).length → Idle (starts tr) (record tr) s → Turn tr s
  | busy {past : List (Store idxWidth dsz)} {st : Store idxWidth dsz} {a p : ℕ} :
      s.busy = true → starts tr = past ++ [st] → finishes tr = past.length → Fills past st a p (record tr) s → Turn tr s

/-- **The invariant**: the state of the engine agrees with its past, and the client with the transfers. -/
structure Holds (tr : List (Event idxWidth dsz nb)) (s : BramStores idxWidth dsz nd nb bramDepth) : Prop where
  engine : ∃ H, Singles nb (record tr) s.client.we H
  turn : Turn tr s

lemma record_engine (tr : List (Event idxWidth dsz nb)) (ds : List (MemwriteEngine.Event (8 * nb) 1)) :
    record (tr ++ ds.map .engine) = ds.foldl Record.add (record tr) := by
  rw [record_append, engineEvents_engine]

/-- The engine, when the client calls a method of it or it makes a step of its own. -/
lemma singles_engine (hw : nb = 2 ^ k) {c client : WriteClient idxWidth dsz nd nb}
    {a : MemwriteEngine.Action (8 * nb) 1} {ds : List (MemwriteEngine.Event (8 * nb) 1)}
    (hs : c.engine a = some (client, ds)) (h : ∃ H, Singles nb (record tr) c.we H)
    (ha : Puts (fun _ => MemengineCmd.Single nb) c.we a) :
    ∃ H, Singles nb (record (tr ++ ds.map .engine : List (Event idxWidth dsz nb))) client.we H := by
  obtain ⟨H, h⟩ := h
  simp only [WriteClient.engine, bind, pure, Option.bind_eq_some_iff, Prod.exists, Option.some.injEq,
    Prod.mk.injEq] at hs
  obtain ⟨we, ds, hstep, rfl, rfl⟩ := hs
  rw [record_engine]
  exact h.step_single hw ha hstep

/-- A rule with a method of the engine, while a transfer is going on. -/
lemma Turn.of_fills {past : List (Store idxWidth dsz)} {st : Store idxWidth dsz} {a p : ℕ}
    {ds : List (MemwriteEngine.Event (8 * nb) 1)} (hbusy : s'.busy = true) (hstarts : starts tr = past ++ [st])
    (hfinishes : finishes tr = past.length) (h : Fills past st a p (ds.foldl Record.add (record tr)) s') :
    Turn (tr ++ ds.map .engine) s' := by
  refine .busy hbusy ?_ ?_ (record_engine tr ds ▸ h)
  · rw [starts_append, starts_engine, List.append_nil, hstarts]
  · rw [finishes_append, finishes_engine, hfinishes, Nat.add_zero]

/-- A word is packed only while a transfer is going on. -/
lemma Holds.drainGeatbox (hw : nb = 2 ^ k) (hnd : 0 < nd) (h : Holds tr s) {client : WriteClient idxWidth dsz nd nb}
    {ds : List (MemwriteEngine.Event (8 * nb) 1)} (hs : s.client.drainGeatbox = some (client, ds)) :
    Holds (tr ++ ds.map .engine) { s with client } := by
  have hs' := hs
  simp only [WriteClient.drainGeatbox, bind, Option.bind_eq_some_iff, Fifo.deqN_eq_some] at hs'
  obtain ⟨gb, ⟨hle, -⟩, hengine⟩ := hs'
  refine ⟨singles_engine hw hengine h.engine trivial, ?_⟩
  cases h.turn with
  | idle hbusy hfinishes hidle =>
    rw [hidle.gb, List.length_nil] at hle
    exact absurd hnd hle.not_gt
  | busy hbusy hstarts hfinishes hfills =>
    obtain ⟨rfl, hfills⟩ := hfills.drainGeatbox hs
    exact .of_fills hbusy hstarts hfinishes hfills

/-- A word is asked for only while a transfer is going on. -/
lemma Holds.loadReq (hw : nb = 2 ^ k) (hk : k ≤ 7) (h : Holds tr s) {client : WriteClient idxWidth dsz nd nb}
    {ds : List (MemwriteEngine.Event (8 * nb) 1)} (hs : s.client.loadReq = some (client, ds)) :
    Holds (tr ++ ds.map .engine) { s with client } := by
  have hs' := hs
  simp only [WriteClient.loadReq, Option.ite_none_right_eq_some] at hs'
  obtain ⟨hi, hengine⟩ := hs'
  obtain ⟨H, hsingles⟩ := h.engine
  refine ⟨singles_engine hw hengine h.engine ?_, ?_⟩
  · exact Store.single_of_width hw hk _ _
  · cases h.turn with
    | idle hbusy hfinishes hidle => exact absurd hidle.i (BitVec.not_lt.mpr hi)
    | busy hbusy hstarts hfinishes hfills =>
      have houts := (hsingles.tally hw).outs0
      obtain ⟨rfl, hfills⟩ := hfills.loadReq (by omega) hs
      exact .of_fills hbusy hstarts hfinishes hfills

/-- A response is taken only while a transfer is going on. -/
lemma Holds.loadResp (hw : nb = 2 ^ k) (h : Holds tr s) {client : WriteClient idxWidth dsz nd nb}
    {ds : List (MemwriteEngine.Event (8 * nb) 1)} (hs : s.client.loadResp = some (client, ds)) :
    Holds (tr ++ ds.map .engine) { s with client } := by
  have hs' := hs
  simp only [WriteClient.loadResp, bind, Option.bind_eq_some_iff] at hs'
  obtain ⟨f, -, hengine⟩ := hs'
  refine ⟨singles_engine hw hengine h.engine trivial, ?_⟩
  -- there is a response, and it is to the only command without one
  simp only [WriteClient.engine, memwriteEngine, Loader.get, bind, pure, Option.bind_eq_some_iff, Prod.exists,
    Fifo.deq_eq_some] at hengine
  obtain ⟨-, -, ⟨-, ⟨u, outf, hout, -⟩, -⟩, -⟩ := hengine
  obtain ⟨H, hsingles⟩ := h.engine
  obtain ⟨haccepted, hloads, hrequests, -, -, hresponses, houts0, houts0_le, -, -, -, -⟩ := hsingles.tally hw
  rw [hout, List.length_cons] at hresponses
  have hone : (record tr).responses 0 + 1 = ((record tr).accepted 0).length := by omega
  cases h.turn with
  | idle hbusy hfinishes hidle =>
    have hanswered := hidle.answered
    omega
  | busy hbusy hstarts hfinishes hfills =>
    obtain ⟨rfl, hfills⟩ := hfills.loadResp hone hs
    exact .of_fills hbusy hstarts hfinishes hfills

/-- The engine does something by itself. -/
lemma Holds.inner (hw : nb = 2 ^ k) (h : Holds tr s) {a : MemwriteEngine.Action (8 * nb) 1} (ha : a.byClient = false)
    {client : WriteClient idxWidth dsz nd nb} {ds : List (MemwriteEngine.Event (8 * nb) 1)}
    (hs : s.client.engine a = some (client, ds)) : Holds (tr ++ ds.map .engine) { s with client } := by
  have hputs : Puts (fun _ => MemengineCmd.Single nb) s.client.we a := by
    cases a with
    | put i c => cases ha
    | _ => trivial
  refine ⟨singles_engine hw hs h.engine hputs, ?_⟩
  simp only [WriteClient.engine, bind, pure, Option.bind_eq_some_iff, Prod.exists, Option.some.injEq,
    Prod.mk.injEq] at hs
  obtain ⟨we, ds, hstep, rfl, rfl⟩ := hs
  obtain ⟨haccepted, hpiped, hresponses⟩ := fields_of_inner (R := record tr) ha hstep
  cases h.turn with
  | idle hbusy hfinishes hidle =>
    refine .idle hbusy ?_ ?_
    · rw [finishes_append, finishes_engine, starts_append, starts_engine, List.append_nil, hfinishes, Nat.add_zero]
    · rw [record_engine, starts_append, starts_engine, List.append_nil]
      exact hidle.inner haccepted hpiped hresponses
  | busy hbusy hstarts hfinishes hfills =>
    exact .of_fills hbusy hstarts hfinishes (hfills.inner haccepted hpiped hresponses)

/-- At the end of a transfer there are enough words. -/
lemma Holds.accepted_le (hw : nb = 2 ^ k) (h : Holds tr s)
    (hall : (record tr).responses 0 = ((record tr).accepted 0).length) :
    ((record tr).accepted 0).length ≤ ((record tr).piped 0).length := by
  obtain ⟨H, hsingles⟩ := h.engine
  obtain ⟨-, hloads, hrequests, -, -, hresponses, -, -, -, hcredit, -, -⟩ := hsingles.tally hw
  omega

/-- **A step keeps the invariant.** -/
theorem Holds.step (hw : nb = 2 ^ k) (hk : k ≤ 7) (hnd : 0 < nd) (h : Holds tr s) {a : Action idxWidth dsz nb}
    (hstep : (bramStores idxWidth dsz nd nb bramDepth).step s a = some (s', es)) : Holds (tr ++ es) s' := by
  cases a with
  | start st =>
    simp only [bramStores, BramStores.step, Option.ite_none_right_eq_some, Option.some.injEq, Prod.mk.injEq] at hstep
    obtain ⟨⟨hbusy, hst⟩, rfl, rfl⟩ := hstep
    have hrecord : record (tr ++ [Event.started st]) = record tr := record_append _ _
    refine ⟨hrecord ▸ h.engine, ?_⟩
    cases h.turn with
    | idle _ hfinishes hidle =>
      refine .busy rfl (starts_append _ _) ?_ (hrecord ▸ hidle.start hst)
      rw [finishes_append, hfinishes]
      rfl
    | busy hbusy' =>
      rw [hbusy] at hbusy'
      cases hbusy'
  | finish =>
    obtain ⟨client, hs, heq⟩ := Option.map_eq_some_iff.mp hstep
    cases heq
    have hrecord : record (tr ++ [Event.finished]) = record tr := record_append _ _
    have hwe : client.we = s.client.we := by
      simp only [WriteClient.finish, bind, pure, Option.bind_eq_some_iff, Prod.exists, Option.some.injEq] at hs
      obtain ⟨u, f, -, rfl⟩ := hs
      rfl
    refine ⟨by rw [hrecord, hwe]; exact h.engine, ?_⟩
    cases h.turn with
    | idle hbusy hfinishes hidle =>
      simp only [WriteClient.finish, bind, pure, Option.bind_eq_some_iff, Prod.exists, Fifo.deq_eq_some] at hs
      obtain ⟨u, f, hf, -⟩ := hs
      rw [hidle.f] at hf
      cases hf
    | busy hbusy hstarts hfinishes hfills =>
      have hstarts' : starts (tr ++ [Event.finished]) = starts tr := (starts_append _ _).trans (List.append_nil _)
      refine .idle rfl ?_ ?_
      · rw [finishes_append, hfinishes, hstarts', hstarts, List.length_append]
        rfl
      · rw [hrecord, hstarts', hstarts]
        exact hfills.finish hnd (h.accepted_le hw (hfills.answered_of_finish hs)) hs
  | drainGeatbox =>
    obtain ⟨r, hs, heq⟩ := Option.map_eq_some_iff.mp hstep
    cases heq
    exact h.drainGeatbox hw hnd hs
  | bramReq =>
    simp only [bramStores, BramStores.step, bind, pure, Option.bind_eq_some_iff, Prod.exists, Option.some.injEq,
      Prod.mk.injEq] at hstep
    obtain ⟨client, address, hs, responses, henq, rfl, rfl⟩ := hstep
    rw [List.append_nil]
    have hs' := hs
    simp only [WriteClient.bramReq, Option.ite_none_right_eq_some, Option.some.injEq, Prod.mk.injEq] at hs'
    obtain ⟨hj, rfl, rfl⟩ := hs'
    refine ⟨h.engine, ?_⟩
    cases h.turn with
    | idle hbusy hfinishes hidle => exact absurd hidle.j (BitVec.not_lt.mpr hj)
    | busy hbusy hstarts hfinishes hfills => exact .busy hbusy hstarts hfinishes (hfills.bramReq hs henq)
  | bramResp =>
    simp only [bramStores, BramStores.step, bind, pure, Option.bind_eq_some_iff, Prod.exists, Option.some.injEq,
      Prod.mk.injEq] at hstep
    obtain ⟨rv, responses, hdeq, client, hs, rfl, rfl⟩ := hstep
    rw [List.append_nil]
    have hwe : client.we = s.client.we := by
      simp only [WriteClient.bramResp, bind, pure, Option.bind_eq_some_iff, Option.some.injEq] at hs
      obtain ⟨gb, -, rfl⟩ := hs
      rfl
    refine ⟨by rw [hwe]; exact h.engine, ?_⟩
    cases h.turn with
    | idle hbusy hfinishes hidle =>
      rw [Fifo.deq_eq_some, hidle.responses] at hdeq
      cases hdeq
    | busy hbusy hstarts hfinishes hfills => exact .busy hbusy hstarts hfinishes (hfills.bramResp hdeq hs)
  | loadReq =>
    obtain ⟨r, hs, heq⟩ := Option.map_eq_some_iff.mp hstep
    cases heq
    exact h.loadReq hw hk hs
  | loadResp =>
    obtain ⟨r, hs, heq⟩ := Option.map_eq_some_iff.mp hstep
    cases heq
    exact h.loadResp hw hs
  | engine a =>
    simp only [bramStores, BramStores.step] at hstep
    split at hstep
    · cases hstep
    rename_i ha
    obtain ⟨r, hs, heq⟩ := Option.map_eq_some_iff.mp hstep
    cases heq
    exact h.inner hw (Bool.not_eq_true _ ▸ ha) hs

/-- A whole run. -/
lemma Holds.of_reaches (hw : nb = 2 ^ k) (hk : k ≤ 7) (hnd : 0 < nd) {bram : BitVec idxWidth → BitVec dsz}
    {buff : BitVec (buffAddrSz 1 1) → MemengineCmd} {complBuff : BitVec (buffAddrSz 4 16) → BitVec (8 * nb) × Bool}
    (h : (bramStores idxWidth dsz nd nb bramDepth).Reaches (reset bram buff complBuff) tr s) : Holds tr s :=
  h.invariant (I := fun tr s => Holds tr s)
    ⟨⟨_, writes_reset Nat.zero_lt_one buff complBuff⟩, .idle rfl rfl (Idle.reset bram buff complBuff)⟩
    fun ih hs => ih.step hw hk hnd hs

/-! ## What holds of a run -/

/-- The first numbers. -/
lemma range_isPrefix {a b : ℕ} (h : a ≤ b) : List.range a <+: List.range b := by
  obtain ⟨d, rfl⟩ := Nat.exists_eq_add_of_le h
  rw [List.range_add]
  exact List.prefix_append _ _

/-- What has been asked for and packed are the first commands and words of the transfers. -/
lemma Turn.prefixes (hnd : 0 < nd) (h : Turn tr s) :
    (record tr).accepted 0 <+: ((starts tr).flatMap fun st => st.cmds nd nb) ∧
      (record tr).piped 0 <+: (starts tr).flatMap fun st => st.data nd nb := by
  cases h with
  | idle hbusy hfinishes hidle =>
    rw [hidle.accepted, hidle.piped]
    exact ⟨List.prefix_refl _, List.prefix_refl _⟩
  | @busy past st a p hbusy hstarts hfinishes hfills =>
    have hj_le := hfills.j_le
    have ha : a ≤ st.length / nd := (Nat.le_div_iff_mul_le hnd).mpr hfills.a_le
    have hp : p ≤ st.length / nd := (Nat.le_div_iff_mul_le hnd).mpr (by omega)
    rw [hfills.accepted, hfills.piped, hstarts, List.flatMap_append, List.flatMap_append, List.flatMap_singleton,
      List.flatMap_singleton]
    exact ⟨(List.prefix_append_right_inj _).mpr ((range_isPrefix ha).map _),
      (List.prefix_append_right_inj _).mpr ((range_isPrefix hp).map _)⟩

/-- **What the memory takes is right** at every moment. -/
theorem Holds.inOrder (hw : nb = 2 ^ k) (hk : k ≤ 7) (hnd : 0 < nd) (h : Holds tr s) : InOrder nd tr := by
  obtain ⟨H, hsingles⟩ := h.engine
  obtain ⟨haccepted, hpiped⟩ := h.turn.prefixes hnd
  have hb : 256 / nb < 2 ^ 16 := (Nat.div_le_self _ _).trans_lt (by decide)
  have hserved := (hsingles.mono (fixed_of_single hw)).served hw hb 0
  obtain ⟨-, -, hrequests, hwritten, -, -, -, -, -, -, -, -⟩ := hsingles.tally hw
  have hplaces : (((record tr).accepted 0).flatMap fun c => (c.beatsOf nb).map fun b => (b.pointer, b.offset)) =
      ((record tr).accepted 0).map fun c => (c.pointer, c.base) := by
    rw [List.flatMap_congr fun c hc => (hsingles.puts 0 c hc).places hw]
    exact List.flatMap_pure_eq_map _ _
  have hbursts : (((record tr).accepted 0).flatMap fun c => c.bursts.map MemengineCmd.request) =
      ((record tr).accepted 0).map MemengineCmd.request := by
    rw [← List.map_flatMap, flatMap_bursts (hsingles.puts 0)]
  have hall : ((starts tr).flatMap fun st => st.cmds nd nb).map MemengineCmd.request =
      (starts tr).flatMap fun st => st.requests nd nb := by
    rw [List.map_flatMap]
    exact List.flatMap_congr fun st _ => Store.map_request_cmds hw hk
  refine ⟨?_, ?_, ?_, ?_, ?_⟩
  · rw [← hall]
    exact (hbursts ▸ hserved.requests).trans (haccepted.map _)
  · rw [← Store.zip_cmds_data]
    exact (hplaces ▸ hserved.stores).trans (zip_prefix_zip (haccepted.map _) hpiped)
  · omega
  · cases h.turn with
    | idle _ hfinishes _ => exact hfinishes.le
    | busy _ hstarts hfinishes _ =>
      rw [hstarts, List.length_append]
      omega
  · cases h.turn with
    | idle _ hfinishes _ => omega
    | busy _ hstarts hfinishes _ =>
      rw [hstarts, List.length_append, List.length_singleton, hfinishes]

/-- When all words have been asked for and all commands answered, the memory has all words. -/
lemma Holds.complete (hw : nb = 2 ^ k) (hk : k ≤ 7) (hnd : 0 < nd) (h : Holds tr s)
    (haccepted : (record tr).accepted 0 = (starts tr).flatMap fun st => st.cmds nd nb)
    (hanswered : (record tr).responses 0 = ((record tr).accepted 0).length) : Complete nd tr := by
  obtain ⟨H, hsingles⟩ := h.engine
  obtain ⟨htotal, hloads, hrequests, hwritten, hdones, hresponses, -, -, -, -, -, -⟩ := hsingles.tally hw
  have hlen : ((record tr).accepted 0).length = ((starts tr).flatMap fun st => st.words nd nb).length := by
    rw [haccepted, Store.length_cmds_eq, Store.length_words_eq]
  refine ⟨(h.inOrder hw hk hnd).words.eq_of_length ?_, by omega⟩
  rw [hsingles.length_storedTo hw]
  omega

/-- **The end of a transfer**: when `finish` can be called, the memory has taken all words of the transfer that is going
on, and of those before it, and has answered them. -/
theorem Holds.complete_of_finish (hw : nb = 2 ^ k) (hk : k ≤ 7) (hnd : 0 < nd) (h : Holds tr s)
    {client : WriteClient idxWidth dsz nd nb} (hs : s.client.finish = some client) :
    Complete nd tr ∧ finishes tr + 1 = (starts tr).length := by
  have hf : s.client.f.items ≠ [] := by
    simp only [WriteClient.finish, bind, pure, Option.bind_eq_some_iff, Prod.exists, Fifo.deq_eq_some] at hs
    obtain ⟨u, f, hf, -⟩ := hs
    rw [hf]
    exact List.cons_ne_nil _ _
  cases h.turn with
  | idle _ _ hidle => exact absurd hidle.f hf
  | @busy past st a p hbusy hstarts hfinishes hfills =>
    have hend : a * nd = st.length := by
      by_contra hne
      exact hf (hfills.f.trans (if_neg fun hend => hne hend.1))
    refine ⟨h.complete hw hk hnd ?_ (hfills.answered_of_finish hs), ?_⟩
    · rw [hfills.accepted, hstarts, List.flatMap_append, List.flatMap_singleton, Store.cmds, ← hend,
        Nat.mul_div_cancel a hnd]
    · rw [hstarts, hfinishes, List.length_append, List.length_singleton]

end Runs

end BramStores

end Dma2BRAM

end Xbsv
