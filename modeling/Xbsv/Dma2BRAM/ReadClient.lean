import Mathlib.Logic.Function.Basic
import Xbsv.Rules.Lanes
import Xbsv.Rules.System
import Xbsv.Search.Dma2BRAM

set_option relaxedAutoImplicit false
set_option autoImplicit false

/-!
# `mkBRAMReadClient`, one transfer after another

The client of `Dma2BRAM.bsv` for elements of any number of bits. It asks for whole beats, so a transfer may leave
elements behind, which the rule `discard` throws away in its own time. What it has not thrown away when the next
transfer starts is taken for the first elements of that one.

## Main definitions

* `Xbsv.Dma2BRAM.element` — the elements of an object.
* `Xbsv.Dma2BRAM.ReadClient` — the client, its methods and its rules.
* `Xbsv.Dma2BRAM.bramLoads` — the client with the block RAM that it writes to and a memory, and its runs.
* `Xbsv.Dma2BRAM.BramLoads.Right` — the invariant of a transfer.

## Main results

* `Xbsv.Dma2BRAM.unpackElements_answer` — the elements of a beat.
* `Xbsv.BRAMReadClient.toBits` — the client with elements of some bytes is a case of this one.
* `Xbsv.Dma2BRAM.BramLoads.loaded_of_nothingLeft` — the runs in which the transfers are right.
-/

namespace Xbsv

open Bits Rules

namespace Dma2BRAM

/-! ## The elements -/

/-- The bytes of the objects. The offsets wrap around. -/
abbrev ObjectBytes := BitVec 32 → BitVec 40 → BitVec 8

/-- The bytes for any offset. -/
def memory (bytes : ObjectBytes) : ObjectMemory := fun pointer offset => bytes pointer (BitVec.ofNat 40 offset)

/-- `unpack` of a beat as a vector of `nd` elements of `dsz` bits; element 0 is in the lowest bits. -/
def unpackElements (dsz nd : ℕ) {w : ℕ} (data : BitVec w) : List (BitVec dsz) :=
  (List.range nd).map fun q => data.extractLsb' (dsz * q) dsz

/-- The element `k` of `dsz` bits of an object, from a byte offset on. -/
def element (bytes : ObjectBytes) (h : BitVec 32) (base : BitVec 40) (dsz k : ℕ) : BitVec dsz :=
  ((memory bytes).bytes h ((dsz * (k + 1) + 7) / 8) base.toNat).extractLsb' (dsz * k) dsz

section Elements

variable (bytes : ObjectBytes) (h : BitVec 32) (base : BitVec 40) {dsz nd nb : ℕ}

/-- Where its bits are. -/
lemma getLsbD_element {k q : ℕ} (hq : q < dsz) :
    (element bytes h base dsz k).getLsbD q =
      (bytes h (base + BitVec.ofNat 40 ((dsz * k + q) / 8))).getLsbD ((dsz * k + q) % 8) := by
  have hlt : dsz * k + q < 8 * ((dsz * (k + 1) + 7) / 8) := by
    rw [Nat.mul_succ]
    omega
  rw [element, BitVec.getLsbD_extractLsb', decide_eq_true hq, Bool.true_and, getLsbD_bytes _ _ _ _ hlt, memory,
    BitVec.ofNat_add, BitVec.ofNat_toNat, BitVec.setWidth_eq]

/-- **The elements of the beats**: beat `r` from a byte offset on has the elements from number `r * nd` on. -/
theorem unpackElements_answer (hw : dsz * nd = 8 * nb) (r : ℕ) (req : ObjectRequest) (hpointer : req.pointer = h)
    (hoffset : req.offset = base + BitVec.ofNat 40 (r * nb)) :
    unpackElements dsz nd ((memory bytes).answer nb req).data =
      (List.range' (r * nd) nd).map (element bytes h base dsz) := by
  rw [List.range'_eq_map_range, List.map_map]
  refine List.map_congr_left fun p hp => BitVec.eq_of_getLsbD_eq fun q hq => ?_
  have hp' : p + 1 ≤ nd := List.mem_range.mp hp
  have hle : dsz * (p + 1) ≤ 8 * nb := hw ▸ Nat.mul_le_mul_left dsz hp'
  rw [Nat.mul_succ] at hle
  have hlt : dsz * p + q < 8 * nb := by omega
  have hsum : dsz * (r * nd + p) + q = 8 * (r * nb) + (dsz * p + q) := by
    rw [Nat.mul_add, ← Nat.mul_assoc, Nat.mul_comm dsz r, Nat.mul_assoc, hw]
    ring
  have hdiv : (8 * (r * nb) + (dsz * p + q)) / 8 = r * nb + (dsz * p + q) / 8 := by omega
  have hmod : (8 * (r * nb) + (dsz * p + q)) % 8 = (dsz * p + q) % 8 := by omega
  rw [Function.comp_apply, getLsbD_element bytes h base hq, hsum, hdiv, hmod, BitVec.getLsbD_extractLsb',
    decide_eq_true hq, Bool.true_and, ObjectMemory.answer, getLsbD_bytes _ _ _ _ hlt, memory, hpointer,
    BitVec.ofNat_add, BitVec.ofNat_toNat, BitVec.setWidth_eq, hoffset, BitVec.add_assoc, BitVec.ofNat_add]

end Elements

/-! ## The client -/

/-- The state of `mkBRAMReadClient`: elements of `dsz` bits, and beats of `nd` elements and `nb` bytes. -/
structure ReadClient (idxWidth dsz nd nb : ℕ) where
  f : Fifo 1 Unit
  i : BitVec (1 + idxWidth)
  j : BitVec (1 + idxWidth)
  n : BitVec (1 + idxWidth)
  ptr : BitVec 32
  off : BitVec 40
  gb : Fifo (2 * nd) (BitVec dsz)
  re : MemReader nb

namespace ReadClient

variable {idxWidth dsz nd nb : ℕ}

/-- After reset. -/
def reset : ReadClient idxWidth dsz nd nb := ⟨.empty, BitVec.allOnes _, BitVec.allOnes _, 0, 0, 0, .empty, .reset⟩

variable (s : ReadClient idxWidth dsz nd nb)

/-- `start`. -/
def start (h : BitVec 32) (b : BitVec 40) (start_idx finish_idx : BitVec idxWidth) : ReadClient idxWidth dsz nd nb :=
  { s with i := start_idx.setWidth _, j := start_idx.setWidth _, n := finish_idx.setWidth _, ptr := h, off := b }

/-- `finish`. -/
def finish : Option (ReadClient idxWidth dsz nd nb) := do
  let (_, f) ← s.f.deq
  return { s with f }

/-- Rule `feed_gearbox`. -/
def feedGearbox : Option (ReadClient idxWidth dsz nd nb) := do
  let (v, re) ← s.re.readData
  let gb ← s.gb.enqN (unpackElements dsz nd v.data)
  return { s with re, gb }

/-- Rule `loadReq`. -/
def loadReq : Option (ReadClient idxWidth dsz nd nb) :=
  if s.i ≤ s.n then do
    let re ← s.re.readReq ⟨s.ptr, s.off, BitVec.ofNat 8 nb, 0⟩
    return { s with re, off := s.off + BitVec.ofNat 40 nb, i := s.i + BitVec.ofNat _ nd }
  else none

/-- Rule `load`, with the write that it makes to the block RAM. -/
def load : Option (ReadClient idxWidth dsz nd nb × BitVec idxWidth × BitVec dsz) :=
  if s.j ≤ s.n then do
    let (datain, gb) ← s.gb.deq
    let f ← s.f.enqIf (s.j = s.n) ()
    return ({ s with gb, f, j := s.j + 1 }, s.j.setWidth _, datain)
  else none

/-- Rule `discard`. -/
def discard : Option (ReadClient idxWidth dsz nd nb) :=
  if s.n < s.j then do
    let (_, gb) ← s.gb.deq
    return { s with gb }
  else none

/-- The elements that have been asked for and not been taken out of the gearbox. -/
def underWay (mem : ObjectMemory) : List (BitVec dsz) :=
  s.gb.items ++ (s.re.beats mem).flatMap fun v => unpackElements dsz nd v.data

/-- Nothing is under way. -/
def Drained : Prop := s.gb.items = [] ∧ s.re.readBuffer.items = [] ∧ s.re.taken = [] ∧ s.re.reqBuffer.items = []

instance : Decidable s.Drained := inferInstanceAs (Decidable (_ ∧ _))

end ReadClient

end Dma2BRAM

/-! ## Elements of bytes -/

namespace BRAMReadClient

open Dma2BRAM

variable {idxWidth size nb : ℕ} (s : BRAMReadClient idxWidth size nb)

/-- The client for elements of `size` bytes, as a client for elements of `8 * size` bits. -/
def toBits : ReadClient idxWidth (8 * size) (nb / size) nb := ⟨s.f, s.i, s.j, s.n, s.ptr, s.off, s.gb, s.re⟩

lemma toBits_start (h : BitVec 32) (b : BitVec 40) (start_idx finish_idx : BitVec idxWidth) :
    s.toBits.start h b start_idx finish_idx = (s.start h b start_idx finish_idx).toBits := rfl

lemma toBits_finish : s.toBits.finish = s.finish.map toBits := by
  simp only [ReadClient.finish, BRAMReadClient.finish, toBits]
  cases s.f.deq <;> rfl

lemma toBits_feedGearbox : s.toBits.feedGearbox = s.feedGearbox.map toBits := by
  simp only [ReadClient.feedGearbox, BRAMReadClient.feedGearbox, toBits]
  cases s.re.readData with
  | none => rfl
  | some r =>
    have hsame : unpackElements (8 * size) (nb / size) r.1.data = unpackVector size (nb / size) r.1.data := rfl
    simp only [Option.bind_eq_bind, Option.bind_some, hsame]
    cases s.gb.enqN (unpackVector size (nb / size) r.1.data) <;> rfl

lemma toBits_loadReq : s.toBits.loadReq = s.loadReq.map toBits := by
  by_cases hi : s.i ≤ s.n
  · have hi' : s.toBits.i ≤ s.toBits.n := hi
    rw [ReadClient.loadReq, BRAMReadClient.loadReq, if_pos hi, if_pos hi']
    simp only [toBits]
    cases s.re.readReq ⟨s.ptr, s.off, BitVec.ofNat 8 nb, 0⟩ <;> rfl
  · have hi' : ¬s.toBits.i ≤ s.toBits.n := hi
    rw [ReadClient.loadReq, BRAMReadClient.loadReq, if_neg hi, if_neg hi']
    rfl

lemma toBits_load : s.toBits.load = s.load.map fun r => (r.1.toBits, r.2) := by
  by_cases hj : s.j ≤ s.n
  · have hj' : s.toBits.j ≤ s.toBits.n := hj
    have hf : s.toBits.f.enqIf (s.toBits.j = s.toBits.n) () = s.f.enqIf (s.j = s.n) () := rfl
    rw [ReadClient.load, BRAMReadClient.load, if_pos hj, if_pos hj', hf]
    simp only [toBits]
    cases s.gb.deq with
    | none => rfl
    | some r =>
      simp only [Option.bind_eq_bind, Option.bind_some]
      cases s.f.enqIf (decide (s.j = s.n)) () <;> rfl
  · have hj' : ¬s.toBits.j ≤ s.toBits.n := hj
    rw [ReadClient.load, BRAMReadClient.load, if_neg hj, if_neg hj']
    rfl

lemma toBits_discard : s.toBits.discard = s.discard.map toBits := by
  by_cases hj : s.n < s.j
  · have hj' : s.toBits.n < s.toBits.j := hj
    rw [ReadClient.discard, BRAMReadClient.discard, if_pos hj, if_pos hj']
    simp only [toBits]
    cases s.gb.deq <;> rfl
  · have hj' : ¬s.toBits.n < s.toBits.j := hj
    rw [ReadClient.discard, BRAMReadClient.discard, if_neg hj, if_neg hj']
    rfl

end BRAMReadClient

namespace Dma2BRAM

/-! ## Transfers -/

/-- What `start` is called with. -/
structure Transfer (idxWidth : ℕ) where
  h : BitVec 32
  base : BitVec 40
  start_idx : BitVec idxWidth
  finish_idx : BitVec idxWidth

/-- A transfer that was started, with what the memory held, what the block RAM held `before`, and the number of beats
that have been asked for since. -/
structure Load (idxWidth dsz : ℕ) where
  transfer : Transfer idxWidth
  mem : ObjectBytes
  before : BitVec idxWidth → BitVec dsz
  asked : ℕ

namespace Load

variable {idxWidth dsz : ℕ} (l : Load idxWidth dsz)

/-- The elements of the transfer. -/
def element (k : ℕ) : BitVec dsz := Dma2BRAM.element l.mem l.transfer.h l.transfer.base dsz k

/-- The number of elements. -/
def length : ℕ := l.transfer.finish_idx.toNat + 1 - l.transfer.start_idx.toNat

/-- The block RAM with the first `count` elements. -/
def image (count : ℕ) (address : BitVec idxWidth) : BitVec dsz :=
  if l.transfer.start_idx.toNat ≤ address.toNat ∧ address.toNat < l.transfer.start_idx.toNat + count then
    l.element (address.toNat - l.transfer.start_idx.toNat)
  else l.before address

end Load

/-- The client with the block RAM and the memory, and the transfer that was started last, which may be `busy`. -/
structure BramLoads (idxWidth dsz nd nb : ℕ) where
  client : ReadClient idxWidth dsz nd nb
  bram : BitVec idxWidth → BitVec dsz
  mem : ObjectBytes
  current : Option (Load idxWidth dsz)
  busy : Bool

namespace BramLoads

variable {idxWidth dsz nd nb : ℕ}

def reset (bram : BitVec idxWidth → BitVec dsz) (mem : ObjectBytes) : BramLoads idxWidth dsz nd nb :=
  ⟨.reset, bram, mem, none, false⟩

/-- The calls, the rules, and the steps of the memory. What the memory holds changes between transfers. -/
inductive Action (idxWidth : ℕ)
  | start (t : Transfer idxWidth) (mem : ObjectBytes)
  | finish | feedGearbox | loadReq | load | discard | clientReq | clientData

/-- An element was written to the block RAM during a transfer, and a transfer was finished with what the block RAM
held. -/
inductive Event (idxWidth dsz : ℕ)
  | stored (l : Load idxWidth dsz) (address : BitVec idxWidth) (datain : BitVec dsz)
  | finished (l : Load idxWidth dsz) (bram : BitVec idxWidth → BitVec dsz)

/-- A step. `start` is called for at least one element, and after `finish`. -/
def step (s : BramLoads idxWidth dsz nd nb) :
    Action idxWidth → Option (BramLoads idxWidth dsz nd nb × List (Event idxWidth dsz))
  | .start t mem =>
    if s.busy = false ∧ t.start_idx ≤ t.finish_idx then
      some ({ s with
        client := s.client.start t.h t.base t.start_idx t.finish_idx
        mem := mem
        current := some ⟨t, mem, s.bram, 0⟩
        busy := true }, [])
    else none
  | .finish => s.client.finish.map fun client =>
    ({ s with client, busy := false }, s.current.toList.map fun l => .finished l s.bram)
  | .feedGearbox => s.client.feedGearbox.map fun client => ({ s with client }, [])
  | .loadReq => s.client.loadReq.map fun client =>
    ({ s with client, current := s.current.map fun l => { l with asked := l.asked + 1 } }, [])
  | .load => s.client.load.map fun r =>
    ({ s with client := r.1, bram := Function.update s.bram r.2.1 r.2.2 },
      s.current.toList.map fun l => .stored l r.2.1 r.2.2)
  | .discard => s.client.discard.map fun client => ({ s with client }, [])
  | .clientReq => s.client.re.clientReq.map fun re => ({ s with client := { s.client with re } }, [])
  | .clientData => (s.client.re.clientData (memory s.mem)).map fun re => ({ s with client := { s.client with re } }, [])

end BramLoads

/-- One transfer after another, with any interleaving of the rules and the memory. -/
def bramLoads (idxWidth dsz nd nb : ℕ) :
    RuleSystem (BramLoads idxWidth dsz nd nb) (BramLoads.Action idxWidth) (BramLoads.Event idxWidth dsz) where
  step := BramLoads.step

namespace BramLoads

variable {idxWidth dsz nd nb : ℕ} {s s' : BramLoads idxWidth dsz nd nb} {l : Load idxWidth dsz}
  {tr es : List (Event idxWidth dsz)} {client : ReadClient idxWidth dsz nd nb}

/-- **The transfer is complete**: its elements are in the block RAM, and the rest is as it was. -/
def Loaded (l : Load idxWidth dsz) (bram : BitVec idxWidth → BitVec dsz) : Prop :=
  (∀ k < l.length, bram (l.transfer.start_idx + BitVec.ofNat _ k) = l.element k) ∧
    ∀ address, (address < l.transfer.start_idx ∨ l.transfer.finish_idx < address) → bram address = l.before address

/-- What is written belongs to the transfer. -/
def Own (l : Load idxWidth dsz) (address : BitVec idxWidth) (datain : BitVec dsz) : Prop :=
  ∃ k < l.length, address = l.transfer.start_idx + BitVec.ofNat _ k ∧ datain = l.element k

/-- What should be so when an event happens. -/
def Event.Fine : Event idxWidth dsz → Prop
  | .stored l address datain => Own l address datain
  | .finished l bram => Loaded l bram

/-- A transfer starts when nothing of the one before is under way. -/
def NothingLeft (s : BramLoads idxWidth dsz nd nb) : Action idxWidth → Prop
  | .start _ _ => s.client.Drained
  | _ => True

instance (a : Action idxWidth) : Decidable (s.NothingLeft a) :=
  match a with
  | .start _ _ => inferInstanceAs (Decidable s.client.Drained)
  | .finish | .feedGearbox | .loadReq | .load | .discard | .clientReq | .clientData => isTrue trivial

/-- **The invariant of a transfer**: what has been asked for and not been written are the next elements, and the block
RAM has those before them. -/
structure Loads (s : BramLoads idxWidth dsz nd nb) (l : Load idxWidth dsz) : Prop where
  mem : s.mem = l.mem
  n : s.client.n = l.transfer.finish_idx.setWidth _
  ptr : s.client.ptr = l.transfer.h
  off : s.client.off = l.transfer.base + BitVec.ofNat 40 (l.asked * nb)
  nonempty : l.transfer.start_idx.toNat ≤ l.transfer.finish_idx.toNat
  j_ge : l.transfer.start_idx.toNat ≤ s.client.j.toNat
  j_le : s.client.j.toNat ≤ l.transfer.finish_idx.toNat + 1
  asked : s.client.j.toNat - l.transfer.start_idx.toNat ≤ l.asked * nd
  underWay : s.client.j.toNat ≤ l.transfer.finish_idx.toNat → s.client.underWay (memory s.mem) =
    (List.range' (s.client.j.toNat - l.transfer.start_idx.toNat)
      (l.asked * nd - (s.client.j.toNat - l.transfer.start_idx.toNat))).map l.element
  bram : s.bram = l.image (s.client.j.toNat - l.transfer.start_idx.toNat)
  f : s.client.f.items = if s.busy = true ∧ s.client.j.toNat = l.transfer.finish_idx.toNat + 1 then [()] else []
  complete : s.busy = false → s.client.j.toNat = l.transfer.finish_idx.toNat + 1

/-- The invariant of the runs. -/
def Right (s : BramLoads idxWidth dsz nd nb) : Prop :=
  match s.current with
  | none => s.client = .reset ∧ s.busy = false
  | some l => s.Loads l

/-! ## The block RAM -/

section Image

lemma image_zero : l.image 0 = l.before := by
  funext address
  rw [Load.image, if_neg (by omega)]

/-- One more element. -/
lemma image_succ {count : ℕ} (hlt : l.transfer.start_idx.toNat + count < 2 ^ idxWidth) :
    Function.update (l.image count) (BitVec.ofNat _ (l.transfer.start_idx.toNat + count)) (l.element count) =
      l.image (count + 1) := by
  funext address
  have haddress : (BitVec.ofNat idxWidth (l.transfer.start_idx.toNat + count)).toNat =
      l.transfer.start_idx.toNat + count := by
    rw [BitVec.toNat_ofNat, Nat.mod_eq_of_lt hlt]
  by_cases heq : address = BitVec.ofNat _ (l.transfer.start_idx.toNat + count)
  · have hnat : address.toNat = l.transfer.start_idx.toNat + count := heq ▸ haddress
    rw [heq, Function.update_self, ← heq, Load.image, if_pos (by omega), hnat, Nat.add_sub_cancel_left]
  · have hne : address.toNat ≠ l.transfer.start_idx.toNat + count := fun hnat =>
      heq (BitVec.eq_of_toNat_eq (hnat.trans haddress.symm))
    have hiff : (l.transfer.start_idx.toNat ≤ address.toNat ∧
          address.toNat < l.transfer.start_idx.toNat + count) ↔
        (l.transfer.start_idx.toNat ≤ address.toNat ∧
          address.toNat < l.transfer.start_idx.toNat + (count + 1)) := by omega
    rw [Function.update_of_ne heq, Load.image, Load.image]
    exact if_congr hiff rfl rfl

/-- The address of an element. -/
lemma ofNat_add_toNat (k : ℕ) :
    BitVec.ofNat idxWidth (l.transfer.start_idx.toNat + k) = l.transfer.start_idx + BitVec.ofNat _ k := by
  rw [BitVec.ofNat_add, BitVec.ofNat_toNat, BitVec.setWidth_eq]

lemma loaded_image (hle : l.transfer.start_idx.toNat ≤ l.transfer.finish_idx.toNat) : Loaded l (l.image l.length) := by
  have hfinish := l.transfer.finish_idx.isLt
  constructor
  · intro k hk
    rw [Load.length] at hk
    have hnat : (l.transfer.start_idx + BitVec.ofNat _ k).toNat = l.transfer.start_idx.toNat + k := by
      rw [← ofNat_add_toNat, BitVec.toNat_ofNat, Nat.mod_eq_of_lt (by omega)]
    rw [Load.image, hnat, if_pos (by rw [Load.length]; omega), Nat.add_sub_cancel_left]
  · rintro address (hlt | hlt)
    · rw [BitVec.lt_def] at hlt
      rw [Load.image, if_neg (by omega)]
    · rw [BitVec.lt_def] at hlt
      rw [Load.image, if_neg (by rw [Load.length]; omega)]

end Image

/-! ## A step -/

/-- Whether anything is under way does not depend on the memory. -/
lemma underWay_eq_nil_iff (hnd : 0 < nd) (mem : ObjectMemory) : client.underWay mem = [] ↔ client.Drained := by
  have hbeats : ((client.re.beats mem).flatMap fun v => unpackElements dsz nd v.data) = [] ↔
      client.re.beats mem = [] := by
    cases client.re.beats mem with
    | nil => exact ⟨fun _ => rfl, fun _ => rfl⟩
    | cons v vs =>
      have hne : unpackElements dsz nd v.data ≠ [] := by
        rw [unpackElements, Ne, List.map_eq_nil_iff, List.range_eq_nil]
        exact hnd.ne'
      simp [hne]
  rw [ReadClient.underWay, List.append_eq_nil_iff, hbeats, MemReader.beats_eq_nil_iff]
  rfl

/-- A start is right exactly if nothing is under way. -/
lemma loads_start {t : Transfer idxWidth} {mem : ObjectBytes} (hnd : 0 < nd) (hf : s.client.f.items = [])
    (hle : t.start_idx ≤ t.finish_idx) :
    ({ s with
      client := s.client.start t.h t.base t.start_idx t.finish_idx
      mem := mem
      current := some ⟨t, mem, s.bram, 0⟩
      busy := true } : BramLoads idxWidth dsz nd nb).Loads ⟨t, mem, s.bram, 0⟩ ↔ s.client.Drained := by
  have hj : (s.client.start t.h t.base t.start_idx t.finish_idx).j.toNat = t.start_idx.toNat :=
    BitVec.toNat_setWidth_of_le (by omega)
  have hnat : t.start_idx.toNat ≤ t.finish_idx.toNat := BitVec.le_def.mp hle
  rw [← underWay_eq_nil_iff hnd (memory mem)]
  constructor
  · intro h
    have hway := h.underWay (by rw [hj]; exact hnat)
    rw [hj, Nat.sub_self, Nat.zero_mul, Nat.zero_sub, List.range'_zero, List.map_nil] at hway
    exact hway
  · intro hway
    refine ⟨rfl, rfl, rfl, ?_, hnat, hj.ge, ?_, ?_, fun _ => ?_, ?_, ?_, fun hbusy => by cases hbusy⟩
    · show t.base = t.base + BitVec.ofNat 40 (0 * nb)
      rw [Nat.zero_mul]
      exact (BitVec.add_zero _).symm
    · dsimp only
      omega
    · rw [hj, Nat.sub_self]
      exact Nat.zero_le _
    · rw [hj, Nat.sub_self, Nat.zero_mul, Nat.zero_sub, List.range'_zero, List.map_nil]
      exact hway
    · rw [hj, Nat.sub_self, image_zero]
    · rw [if_neg (by dsimp only; omega)]
      exact hf

namespace Loads

lemma n_toNat (h : s.Loads l) : s.client.n.toNat = l.transfer.finish_idx.toNat := by
  rw [h.n]
  exact BitVec.toNat_setWidth_of_le (by omega)

lemma right (h : s.Loads l) (hcurrent : s.current = some l) : s.Right := by
  rw [Right, hcurrent]
  exact h

/-- Elements on their way to the gearbox, or thrown away. -/
lemma frame (h : s.Loads l) {gb : Fifo (2 * nd) (BitVec dsz)} {re : MemReader nb}
    (hway : s.client.j.toNat ≤ l.transfer.finish_idx.toNat →
      ({ s.client with gb, re } : ReadClient idxWidth dsz nd nb).underWay (memory s.mem) =
        s.client.underWay (memory s.mem)) :
    ({ s with client := { s.client with gb, re } } : BramLoads idxWidth dsz nd nb).Loads l :=
  { h with underWay := fun hj => (hway hj).trans (h.underWay hj) }

lemma finish (h : s.Loads l) (hs : s.client.finish = some client) :
    ({ s with client, busy := false } : BramLoads idxWidth dsz nd nb).Loads l ∧ Loaded l s.bram := by
  simp only [ReadClient.finish, Option.bind_eq_bind, Option.bind_eq_some_iff, Prod.exists, Fifo.deq_eq_some, pure,
    Option.some.injEq] at hs
  obtain ⟨x, f, hf, rfl⟩ := hs
  have hitems := h.f
  rw [hf] at hitems
  split at hitems
  · rename_i hdone
    obtain ⟨-, hempty⟩ := List.cons.inj hitems
    refine ⟨{ h with f := hempty, complete := fun _ => hdone.2 }, ?_⟩
    have hlength : s.client.j.toNat - l.transfer.start_idx.toNat = l.length := by rw [hdone.2, Load.length]
    rw [h.bram, hlength]
    exact loaded_image h.nonempty
  · cases hitems

lemma feedGearbox (h : s.Loads l) (hs : s.client.feedGearbox = some client) :
    ({ s with client } : BramLoads idxWidth dsz nd nb).Loads l := by
  simp only [ReadClient.feedGearbox, Option.bind_eq_bind, Option.bind_eq_some_iff, Prod.exists, pure,
    Option.some.injEq] at hs
  obtain ⟨v, re, hdata, gb, hgb, rfl⟩ := hs
  obtain ⟨-, hitems⟩ := Fifo.enqN_eq_some.mp hgb
  obtain ⟨hbeats, -⟩ := MemReader.readData_eq_some hdata (memory s.mem) 0
  exact h.frame fun _ => by simp [ReadClient.underWay, hitems, hbeats]

lemma clientReq (h : s.Loads l) {re : MemReader nb} (hre : s.client.re.clientReq = some re) :
    ({ s with client := { s.client with re } } : BramLoads idxWidth dsz nd nb).Loads l := by
  obtain ⟨hbeats, -⟩ := MemReader.clientReq_eq_some hre (memory s.mem) 0
  exact h.frame fun _ => by rw [ReadClient.underWay, ReadClient.underWay, hbeats]

lemma clientData (h : s.Loads l) {re : MemReader nb} (hre : s.client.re.clientData (memory s.mem) = some re) :
    ({ s with client := { s.client with re } } : BramLoads idxWidth dsz nd nb).Loads l := by
  obtain ⟨hbeats, -⟩ := MemReader.clientData_eq_some hre 0
  exact h.frame fun _ => by rw [ReadClient.underWay, ReadClient.underWay, hbeats]

/-- The next beat is asked for. -/
lemma loadReq (hw : dsz * nd = 8 * nb) (h : s.Loads l) (hs : s.client.loadReq = some client) :
    ({ s with client, current := s.current.map fun l => { l with asked := l.asked + 1 } } :
      BramLoads idxWidth dsz nd nb).Loads { l with asked := l.asked + 1 } := by
  simp only [ReadClient.loadReq] at hs
  split at hs
  on_goal 2 => cases hs
  simp only [Option.bind_eq_bind, Option.bind_eq_some_iff, pure, Option.some.injEq] at hs
  obtain ⟨re, hre, rfl⟩ := hs
  obtain ⟨hbeats, -⟩ := MemReader.readReq_eq_some hre (memory s.mem) 0
  have hasked := h.asked
  have hdata := unpackElements_answer s.mem l.transfer.h l.transfer.base hw l.asked
    ⟨s.client.ptr, s.client.off, BitVec.ofNat 8 nb, 0⟩ h.ptr h.off
  refine { h with off := ?_, asked := ?_, underWay := fun hj => ?_ }
  · show s.client.off + BitVec.ofNat 40 nb = l.transfer.base + BitVec.ofNat 40 ((l.asked + 1) * nb)
    rw [h.off, BitVec.add_assoc, ← BitVec.ofNat_add, Nat.succ_mul]
  · show _ ≤ (l.asked + 1) * nd
    rw [Nat.succ_mul]
    exact hasked.trans (Nat.le_add_right _ _)
  · have hold := h.underWay hj
    have hsub : (l.asked + 1) * nd - (s.client.j.toNat - l.transfer.start_idx.toNat) =
        l.asked * nd - (s.client.j.toNat - l.transfer.start_idx.toNat) + nd := by
      rw [Nat.succ_mul]
      omega
    simp only [ReadClient.underWay] at hold ⊢
    rw [hsub, ← List.range'_append_1, List.map_append, Nat.add_sub_cancel' hasked, hbeats, List.flatMap_append,
      ← List.append_assoc]
    refine congrArg₂ _ hold ?_
    rw [List.flatMap_singleton, hdata, h.mem]
    rfl

/-- The next element is written. -/
lemma load (h : s.Loads l) {w : BitVec idxWidth × BitVec dsz} (hs : s.client.load = some (client, w)) :
    ({ s with client, bram := Function.update s.bram w.1 w.2 } : BramLoads idxWidth dsz nd nb).Loads l ∧
      Own l w.1 w.2 := by
  simp only [ReadClient.load] at hs
  split at hs
  on_goal 2 => cases hs
  rename_i hj
  simp only [Option.bind_eq_bind, Option.bind_eq_some_iff, Prod.exists, Fifo.deq_eq_some, Fifo.enqIf_eq_some, pure,
    Option.some.injEq, Prod.mk.injEq] at hs
  obtain ⟨d, gb, hgb, f, ⟨-, hf⟩, rfl, rfl⟩ := hs
  have hfinish := l.transfer.finish_idx.isLt
  have hle : s.client.j.toNat ≤ l.transfer.finish_idx.toNat := h.n_toNat ▸ BitVec.le_def.mp hj
  have hge := h.j_ge
  obtain ⟨count, hcount⟩ : ∃ count, s.client.j.toNat = l.transfer.start_idx.toNat + count :=
    Nat.exists_eq_add_of_le hge
  have hsub : s.client.j.toNat - l.transfer.start_idx.toNat = count := by omega
  have hj' : (s.client.j + 1).toNat = s.client.j.toNat + 1 := toNat_index_succ (hle.trans_lt hfinish)
  have hsub' : (s.client.j + 1).toNat - l.transfer.start_idx.toNat = count + 1 := by omega
  have haddress : s.client.j.setWidth idxWidth = BitVec.ofNat _ (l.transfer.start_idx.toNat + count) := by
    rw [← hcount]
    exact (BitVec.ofNat_toNat idxWidth _).symm
  -- The first element under way is the one for this address.
  have hway := h.underWay hle
  rw [ReadClient.underWay, hgb, List.cons_append, hsub] at hway
  obtain ⟨rest, hrest, rfl, hrange⟩ := cons_eq_map_range' hway
  constructor
  · refine
      { h with
        j_ge := ?_, j_le := ?_, asked := ?_, underWay := fun _ => ?_, bram := ?_, f := ?_, complete := fun hbusy => ?_ }
    · show _ ≤ (s.client.j + 1).toNat
      omega
    · show (s.client.j + 1).toNat ≤ _
      omega
    · show (s.client.j + 1).toNat - _ ≤ _
      omega
    · have hlast : l.asked * nd - (count + 1) = rest := by omega
      rw [hsub', hlast]
      exact hrange
    · rw [h.bram, hsub, hsub', haddress]
      exact image_succ (by omega)
    · have hempty : s.client.f.items = [] := by rw [h.f, if_neg (by omega)]
      have hbusy : s.busy = true := by
        by_contra hbusy
        have hend := h.complete (Bool.eq_false_iff.mpr hbusy)
        omega
      have hiff : s.client.j = s.client.n ↔ s.client.j.toNat + 1 = l.transfer.finish_idx.toNat + 1 := by
        rw [← BitVec.toNat_inj, h.n_toNat, Nat.succ_inj]
      show f.items = if s.busy = true ∧ (s.client.j + 1).toNat = _ then [()] else []
      rw [hf, hempty, List.nil_append, hj']
      simp [hbusy, hiff]
    · have hend := h.complete hbusy
      omega
  · refine ⟨count, ?_, ?_, rfl⟩
    · rw [Load.length]
      omega
    · rw [haddress, ofNat_add_toNat]

lemma discard (h : s.Loads l) (hs : s.client.discard = some client) :
    ({ s with client } : BramLoads idxWidth dsz nd nb).Loads l := by
  simp only [ReadClient.discard] at hs
  split at hs
  on_goal 2 => cases hs
  rename_i hj
  simp only [Option.bind_eq_bind, Option.bind_eq_some_iff, Prod.exists, Fifo.deq_eq_some, pure, Option.some.injEq] at hs
  obtain ⟨d, gb, hgb, rfl⟩ := hs
  have hlt : l.transfer.finish_idx.toNat < s.client.j.toNat := h.n_toNat ▸ BitVec.lt_def.mp hj
  exact h.frame fun hle => absurd hle hlt.not_ge

end Loads

/-- Before the first transfer there is only the start of one. -/
lemma step_reset {bram : BitVec idxWidth → BitVec dsz} {mem : ObjectBytes} {a : Action idxWidth}
    (hstep : (bramLoads idxWidth dsz nd nb).step (reset bram mem) a = some (s', es)) : ∃ t mem', a = .start t mem' := by
  have hlt : (0 : BitVec (1 + idxWidth)) < BitVec.allOnes _ := by
    have hzero : (0 : BitVec (1 + idxWidth)).toNat = 0 := BitVec.toNat_zero
    rw [BitVec.lt_def, BitVec.toNat_allOnes, hzero, Nat.sub_pos_iff_lt]
    exact Nat.one_lt_two_pow (by omega)
  cases a with
  | start t mem' => exact ⟨t, mem', rfl⟩
  | finish | feedGearbox | clientReq | clientData => cases hstep
  | loadReq =>
    obtain ⟨client, hs, -⟩ := Option.map_eq_some_iff.mp hstep
    cases (if_neg (BitVec.not_le.mpr hlt)).symm.trans hs
  | load =>
    obtain ⟨r, hs, -⟩ := Option.map_eq_some_iff.mp hstep
    cases (if_neg (BitVec.not_le.mpr hlt)).symm.trans hs
  | discard =>
    obtain ⟨client, hs, -⟩ := Option.map_eq_some_iff.mp hstep
    cases (if_pos hlt).symm.trans hs

/-- No end of a transfer is signalled when none is going on. -/
lemma Right.f_items (h : s.Right) (hbusy : s.busy = false) : s.client.f.items = [] := by
  unfold Right at h
  split at h
  · rw [h.1]
    rfl
  · rw [h.f, hbusy]
    rfl

/-- A start keeps the invariant exactly if nothing is left of the transfer before. -/
lemma Right.start_iff (hnd : 0 < nd) (h : s.Right) {t : Transfer idxWidth} {mem : ObjectBytes}
    (hstep : (bramLoads idxWidth dsz nd nb).step s (.start t mem) = some (s', es)) :
    (s'.Right ↔ s.client.Drained) ∧ es = [] := by
  simp only [bramLoads, BramLoads.step] at hstep
  split at hstep
  case isTrue hcall =>
    cases hstep
    exact ⟨loads_start hnd (h.f_items hcall.1) hcall.2, rfl⟩
  case isFalse => cases hstep

/-- The other steps keep it, and what they do is fine. -/
lemma Loads.step (hw : dsz * nd = 8 * nb) (hcurrent : s.current = some l) (h : s.Loads l) {a : Action idxWidth}
    (ha : ∀ t mem, a ≠ .start t mem) (hstep : (bramLoads idxWidth dsz nd nb).step s a = some (s', es)) :
    s'.Right ∧ ∀ e ∈ es, e.Fine := by
  cases a with
  | start t mem => exact absurd rfl (ha t mem)
  | finish =>
    obtain ⟨client, hs, heq⟩ := Option.map_eq_some_iff.mp hstep
    cases heq
    obtain ⟨hloads, hloaded⟩ := h.finish hs
    refine ⟨hloads.right hcurrent, fun e he => ?_⟩
    rw [hcurrent] at he
    obtain rfl := List.mem_singleton.mp he
    exact hloaded
  | feedGearbox =>
    obtain ⟨client, hs, heq⟩ := Option.map_eq_some_iff.mp hstep
    cases heq
    exact ⟨(h.feedGearbox hs).right hcurrent, fun e he => absurd he List.not_mem_nil⟩
  | loadReq =>
    obtain ⟨client, hs, heq⟩ := Option.map_eq_some_iff.mp hstep
    cases heq
    exact ⟨(h.loadReq hw hs).right (congrArg (Option.map _) hcurrent), fun e he => absurd he List.not_mem_nil⟩
  | load =>
    obtain ⟨⟨client, w⟩, hs, heq⟩ := Option.map_eq_some_iff.mp hstep
    cases heq
    obtain ⟨hloads, hown⟩ := h.load hs
    refine ⟨hloads.right hcurrent, fun e he => ?_⟩
    rw [hcurrent] at he
    obtain rfl := List.mem_singleton.mp he
    exact hown
  | discard =>
    obtain ⟨client, hs, heq⟩ := Option.map_eq_some_iff.mp hstep
    cases heq
    exact ⟨(h.discard hs).right hcurrent, fun e he => absurd he List.not_mem_nil⟩
  | clientReq =>
    obtain ⟨re, hs, heq⟩ := Option.map_eq_some_iff.mp hstep
    cases heq
    exact ⟨(h.clientReq hs).right hcurrent, fun e he => absurd he List.not_mem_nil⟩
  | clientData =>
    obtain ⟨re, hs, heq⟩ := Option.map_eq_some_iff.mp hstep
    cases heq
    exact ⟨(h.clientData hs).right hcurrent, fun e he => absurd he List.not_mem_nil⟩

/-- **A step keeps the invariant exactly if it does not start a transfer while something is under way.** -/
theorem Right.step_iff (hw : dsz * nd = 8 * nb) (hnd : 0 < nd) (h : s.Right) {a : Action idxWidth}
    (hstep : (bramLoads idxWidth dsz nd nb).step s a = some (s', es)) :
    (s'.Right ↔ s.NothingLeft a) ∧ ∀ e ∈ es, e.Fine := by
  by_cases ha : ∃ t mem, a = .start t mem
  · obtain ⟨t, mem, rfl⟩ := ha
    obtain ⟨hiff, rfl⟩ := h.start_iff hnd hstep
    exact ⟨hiff, fun e he => absurd he List.not_mem_nil⟩
  · have hnostart : ∀ t mem, a ≠ .start t mem := fun t mem heq => ha ⟨t, mem, heq⟩
    have hleft : s.NothingLeft a := by
      cases a with
      | start t mem => exact absurd rfl (hnostart t mem)
      | finish | feedGearbox | loadReq | load | discard | clientReq | clientData => trivial
    rw [iff_true_right hleft]
    cases hcurrent : s.current with
    | none =>
      obtain ⟨client, bram, mem, current, busy⟩ := s
      cases hcurrent
      obtain ⟨rfl, rfl⟩ := h
      exact absurd (step_reset hstep) ha
    | some l =>
      rw [Right, hcurrent] at h
      exact h.step hw hcurrent hnostart hstep

/-! ## The runs -/

/-- **The transfers are right in all runs in which each one starts when nothing of the one before is under way**: each
element that is written belongs to the transfer, and after the last one the block RAM has them all and is unchanged
elsewhere. A start with something under way breaks the invariant. -/
theorem loaded_of_nothingLeft {idxWidth dsz nd nb : ℕ} (hw : dsz * nd = 8 * nb) (hnd : 0 < nd)
    {bram : BitVec idxWidth → BitVec dsz} {mem : ObjectBytes} {tr : List (Event idxWidth dsz)}
    {s : BramLoads idxWidth dsz nd nb}
    (h : ((bramLoads idxWidth dsz nd nb).guard NothingLeft).Reaches (reset bram mem) tr s) :
    (∀ l bram, .finished l bram ∈ tr → Loaded l bram) ∧
      (∀ l address datain, .stored l address datain ∈ tr → Own l address datain) ∧
      ∀ a s' es, (bramLoads idxWidth dsz nd nb).step s a = some (s', es) → (s'.Right ↔ s.NothingLeft a) := by
  have hright : s.Right ∧ ∀ e ∈ tr, e.Fine := by
    refine h.invariant (I := fun tr s => s.Right ∧ ∀ e ∈ tr, e.Fine)
      ⟨⟨rfl, rfl⟩, fun e he => absurd he List.not_mem_nil⟩ ?_
    rintro tr s a s' es ⟨hs, hfine⟩ hstep
    obtain ⟨hleft, hstep⟩ := RuleSystem.guard_step.mp hstep
    obtain ⟨hiff, hnew⟩ := hs.step_iff hw hnd hstep
    refine ⟨hiff.mpr hleft, fun e he => ?_⟩
    rcases List.mem_append.mp he with he | he
    · exact hfine e he
    · exact hnew e he
  obtain ⟨hright, hfine⟩ := hright
  exact ⟨fun l bram hmem => hfine _ hmem, fun l address datain hmem => hfine _ hmem,
    fun a s' es hstep => (hright.step_iff hw hnd hstep).1⟩

/-- Elements of one byte, two to a beat, and an object with its offsets. -/
def twoBytes : RuleSystem (BramLoads 2 8 2 2) (Action 2) (Event 2 8) := bramLoads 2 8 2 2

def offsets : ObjectBytes := fun _ offset => offset.setWidth _

/-- One element is loaded, from a byte offset on. -/
def loadOne (base : BitVec 40) : List (Action 2) :=
  [.start ⟨0, base, 0, 0⟩ offsets, .loadReq, .clientReq, .clientData, .feedGearbox, .load, .finish]

/-- What was stored, with its address. -/
def stores (tr : List (Event 2 8)) : List (ℕ × ℕ) :=
  tr.filterMap fun
    | .stored _ address datain => some (address.toNat, datain.toNat)
    | .finished _ _ => none

/-- The element that is left is thrown away before the second transfer. -/
def discarded := (twoBytes.guard NothingLeft).run (reset (fun _ => 0) offsets) (loadOne 0 ++ .discard :: loadOne 2)

/-- The elements are those with the numbers 0 and 2. -/
theorem loaded_of_nothingLeft_discarded :
    stores discarded.2 = [(0, 0), (0, 2)] ∧ ∀ l bram, .finished l bram ∈ discarded.2 → Loaded l bram := by
  have hreaches : ((bramLoads 2 8 2 2).guard NothingLeft).Reaches (reset (fun _ => 0) offsets)
      discarded.2 discarded.1 := RuleSystem.reaches_run _ _
  exact ⟨by decide +kernel, (loaded_of_nothingLeft rfl Nat.two_pos hreaches).1⟩

/-- The second transfer is started at once, and needs no beat of its own. -/
def startedAtOnce :=
  twoBytes.run (reset (fun _ => 0) offsets) (loadOne 0 ++ [.start ⟨0, 2, 0, 0⟩ offsets, .load, .finish])

/-- The first transfer's second element is stored by the second one. -/
theorem not_loaded_startedAtOnce :
    twoBytes.Reaches (reset (fun _ => 0) offsets) startedAtOnce.2 startedAtOnce.1 ∧
      stores startedAtOnce.2 = [(0, 0), (0, 1)] ∧ ∃ l bram, .finished l bram ∈ startedAtOnce.2 ∧ ¬Loaded l bram := by
  refine ⟨RuleSystem.reaches_run _ _, by decide +kernel, ?_⟩
  have hwrong : startedAtOnce.2.any (fun
      | .stored _ _ _ => false
      | .finished l bram => decide (0 < l.length ∧ bram (l.transfer.start_idx + 0) ≠ l.element 0)) = true := by
    decide +kernel
  obtain ⟨e, hmem, he⟩ := List.any_eq_true.mp hwrong
  cases e with
  | stored l address datain => cases he
  | finished l bram =>
    obtain ⟨hpos, hne⟩ := of_decide_eq_true he
    exact ⟨l, bram, hmem, fun hloaded => hne (hloaded.1 0 hpos)⟩

end BramLoads

end Dma2BRAM

end Xbsv
