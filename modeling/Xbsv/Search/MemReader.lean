import Mathlib.Data.BitVec
import Xbsv.Bits.Words
import Xbsv.Dma.MemTypes
import Xbsv.Rules.Fifo

set_option relaxedAutoImplicit false
set_option autoImplicit false

/-!
# `mkMemReader` and a memory in order

The reader of `MemUtils.bsv` is a queue of requests and a queue of data. Behind it a memory takes the requests
and answers them in order. Every request here is for one beat.

## Main definitions

* `Xbsv.ObjectMemory`, `Xbsv.ObjectMemory.answer` — the bytes of the objects, and the beat that answers a request.
* `Xbsv.unpackVector` — `unpack` of a beat.
* `Xbsv.MemReader` — the reader, with the requests that the memory has taken.
* `Xbsv.MemReader.beats` — the data that are on their way.

## Main results

* `Xbsv.unpackVector_bytes` — the elements of a beat.
* `Xbsv.MemReader.exists_step` — data on their way get through.
-/

namespace Xbsv

open Bits Rules

/-! ## Beats -/

/-- The bytes of the objects, by their offset. -/
abbrev ObjectMemory := BitVec 32 → ℕ → BitVec 8

/-- The `n` bytes from an offset on, the first one in the lowest bits. -/
def ObjectMemory.bytes (mem : ObjectMemory) (pointer : BitVec 32) (n offset : ℕ) : BitVec (8 * n) :=
  BitVec.ofNat _ (ofWords ((List.range n).map fun k => mem pointer (offset + k)).reverse)

/-- The beat of `n` bytes that answers a request. -/
def ObjectMemory.answer (mem : ObjectMemory) (n : ℕ) (req : ObjectRequest) : ObjectData (8 * n) where
  data := mem.bytes req.pointer n req.offset.toNat
  tag := req.tag
  last := true

/-- `unpack` of a beat as a vector of `n` elements of `size` bytes; element 0 is in the lowest bits. -/
def unpackVector (size n : ℕ) {w : ℕ} (data : BitVec w) : List (BitVec (8 * size)) :=
  (List.range n).map fun k => data.extractLsb' (8 * size * k) (8 * size)

@[simp] lemma length_unpackVector {size n w : ℕ} (data : BitVec w) : (unpackVector size n data).length = n := by
  simp [unpackVector]

section Bytes

variable (mem : ObjectMemory) (pointer : BitVec 32)

lemma getLsbD_bytes (n offset : ℕ) {i : ℕ} (hi : i < 8 * n) :
    (mem.bytes pointer n offset).getLsbD i = (mem pointer (offset + i / 8)).getLsbD (i % 8) := by
  have hdiv : i / 8 < n := Nat.div_lt_of_lt_mul hi
  rw [ObjectMemory.bytes, BitVec.getLsbD_ofNat, testBit_ofWords, List.reverse_reverse, List.getElem?_map,
    List.getElem?_range hdiv]
  simp [hi]

/-- One byte. -/
lemma bytes_one (offset : ℕ) : mem.bytes pointer 1 offset = mem pointer offset := by
  refine BitVec.eq_of_getLsbD_eq fun i hi => ?_
  have hi' : i < 8 := hi
  rw [getLsbD_bytes mem pointer 1 offset hi, Nat.div_eq_of_lt hi', Nat.mod_eq_of_lt hi', Nat.add_zero]

/-- **The elements of a beat.** -/
theorem unpackVector_bytes {size n k : ℕ} (offset : ℕ) (hk : size * k ≤ n) :
    unpackVector size k (mem.bytes pointer n offset) =
      (List.range k).map fun q => mem.bytes pointer size (offset + size * q) := by
  refine List.map_congr_left fun q hq => BitVec.eq_of_getLsbD_eq fun i hi => ?_
  have hqk : q + 1 ≤ k := List.mem_range.mp hq
  have hle : size * (q + 1) ≤ n := (Nat.mul_le_mul_left size hqk).trans hk
  have hsplit : 8 * size * q + i = 8 * (size * q) + i := by rw [Nat.mul_assoc]
  have hlt : 8 * (size * q) + i < 8 * n := by
    rw [Nat.mul_succ] at hle
    omega
  have hdiv : (8 * (size * q) + i) / 8 = size * q + i / 8 := by omega
  have hmod : (8 * (size * q) + i) % 8 = i % 8 := by omega
  rw [BitVec.getLsbD_extractLsb', decide_eq_true hi, Bool.true_and, hsplit, getLsbD_bytes mem pointer n offset hlt,
    getLsbD_bytes mem pointer size _ hi, hdiv, hmod, Nat.add_assoc]

end Bytes

/-! ## The reader -/

/-- The queues of `mkMemReader`, and the requests that the memory has taken and not answered. -/
structure MemReader (n : ℕ) where
  readBuffer : Fifo 2 (ObjectData (8 * n))
  reqBuffer : Fifo 2 ObjectRequest
  taken : List ObjectRequest

namespace MemReader

variable {n : ℕ}

/-- After reset. -/
def reset : MemReader n := ⟨.empty, .empty, []⟩

variable (s : MemReader n)

/-- `readServer.readReq.put`. -/
def readReq (req : ObjectRequest) : Option (MemReader n) := do
  let reqBuffer ← s.reqBuffer.enq req
  return { s with reqBuffer }

/-- `readServer.readData.get`. -/
def readData : Option (ObjectData (8 * n) × MemReader n) := do
  let (v, readBuffer) ← s.readBuffer.deq
  return (v, { s with readBuffer })

/-- `readClient.readReq.get`: the memory takes a request. -/
def clientReq : Option (MemReader n) := do
  let (req, reqBuffer) ← s.reqBuffer.deq
  return { s with reqBuffer, taken := s.taken ++ [req] }

/-- `readClient.readData.put`: the memory answers the oldest request. -/
def clientData (mem : ObjectMemory) : Option (MemReader n) := do
  let req ← s.taken.head?
  let readBuffer ← s.readBuffer.enq (mem.answer n req)
  return { s with readBuffer, taken := s.taken.tail }

/-- The data on their way, with those of the requests that have not been answered. -/
def beats (mem : ObjectMemory) : List (ObjectData (8 * n)) :=
  s.readBuffer.items ++ (s.taken ++ s.reqBuffer.items).map (mem.answer n)

/-- A bound on the steps that the data make until they are taken, when the last one counts as `c` more. -/
def cost (c : ℕ) : ℕ :=
  (c + 1) * s.readBuffer.items.length + (c + 2) * s.taken.length + (c + 3) * s.reqBuffer.items.length

variable {s} {s' : MemReader n} {mem : ObjectMemory}

lemma readReq_eq_some {req : ObjectRequest} (h : s.readReq req = some s') (mem : ObjectMemory) (c : ℕ) :
    s'.beats mem = s.beats mem ++ [mem.answer n req] ∧ s'.cost c = s.cost c + (c + 3) := by
  simp only [readReq, Option.bind_eq_bind, Option.bind_eq_some_iff, Fifo.enq_eq_some, pure, Option.some.injEq] at h
  obtain ⟨q, ⟨-, hq⟩, rfl⟩ := h
  constructor
  · simp [beats, hq]
  · simp only [cost, hq, List.length_append, List.length_singleton]
    ring

lemma readData_eq_some {v : ObjectData (8 * n)} (h : s.readData = some (v, s')) (mem : ObjectMemory) (c : ℕ) :
    s.beats mem = v :: s'.beats mem ∧ s.cost c = s'.cost c + (c + 1) := by
  simp only [readData, Option.bind_eq_bind, Option.bind_eq_some_iff, Prod.exists, Fifo.deq_eq_some, pure,
    Option.some.injEq, Prod.mk.injEq] at h
  obtain ⟨_, q, hq, rfl, rfl⟩ := h
  constructor
  · simp [beats, hq]
  · simp only [cost, hq, List.length_cons]
    ring

lemma clientReq_eq_some (h : s.clientReq = some s') (mem : ObjectMemory) (c : ℕ) :
    s'.beats mem = s.beats mem ∧ s.cost c = s'.cost c + 1 := by
  simp only [clientReq, Option.bind_eq_bind, Option.bind_eq_some_iff, Prod.exists, Fifo.deq_eq_some, pure,
    Option.some.injEq] at h
  obtain ⟨req, q, hq, rfl⟩ := h
  constructor
  · simp [beats, hq]
  · simp only [cost, hq, List.length_append, List.length_cons, List.length_nil]
    ring

lemma clientData_eq_some (h : s.clientData mem = some s') (c : ℕ) :
    s'.beats mem = s.beats mem ∧ s.cost c = s'.cost c + 1 := by
  simp only [clientData, Option.bind_eq_bind, Option.bind_eq_some_iff, Fifo.enq_eq_some, pure,
    Option.some.injEq] at h
  obtain ⟨req, hhead, q, ⟨-, hq⟩, rfl⟩ := h
  obtain ⟨l, htaken⟩ := List.head?_eq_some_iff.mp hhead
  constructor
  · simp [beats, hq, htaken]
  · simp only [cost, hq, htaken, List.length_append, List.length_cons, List.length_nil, List.tail_cons]
    ring

/-- Whether anything is on its way does not depend on the memory. -/
lemma beats_eq_nil_iff :
    s.beats mem = [] ↔ s.readBuffer.items = [] ∧ s.taken = [] ∧ s.reqBuffer.items = [] := by
  simp only [beats, List.append_eq_nil_iff, List.map_eq_nil_iff]

/-- Data on their way get through: the memory can do something, or the data can be taken. -/
lemma exists_step (h : s.beats mem ≠ []) :
    (∃ s', s.clientReq = some s') ∨ (∃ s', s.clientData mem = some s') ∨ ∃ v s', s.readData = some (v, s') := by
  cases hbuf : s.readBuffer.items with
  | cons v vs =>
    obtain ⟨q, hq, -⟩ := Fifo.exists_deq hbuf
    exact .inr (.inr ⟨v, _, by rw [readData, hq]; rfl⟩)
  | nil =>
    cases htaken : s.taken with
    | cons req reqs =>
      have hroom : s.readBuffer.items.length < 2 := by simp [hbuf]
      obtain ⟨q, hq, -⟩ := Fifo.exists_enq hroom (mem.answer n req)
      exact .inr (.inl ⟨_, by rw [clientData, htaken, List.head?_cons, Option.bind_eq_bind, Option.bind_some, hq]; rfl⟩)
    | nil =>
      cases hreq : s.reqBuffer.items with
      | cons req reqs =>
        obtain ⟨q, hq, -⟩ := Fifo.exists_deq hreq
        exact .inl ⟨_, by rw [clientReq, hq]; rfl⟩
      | nil => exact absurd (by simp [beats, hbuf, htaken, hreq]) h

/-- A request can be made when nothing is on its way. -/
lemma exists_readReq (h : s.beats mem = []) (req : ObjectRequest) : ∃ s', s.readReq req = some s' := by
  have hreq : s.reqBuffer.items = [] := (beats_eq_nil_iff.mp h).2.2
  have hroom : s.reqBuffer.items.length < 2 := by simp [hreq]
  obtain ⟨q, hq, -⟩ := Fifo.exists_enq hroom req
  exact ⟨_, by rw [readReq, hq]; rfl⟩

end MemReader

end Xbsv
