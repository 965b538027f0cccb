import Xbsv.Bits.Rounds
import Xbsv.Dma.SGList

set_option relaxedAutoImplicit false
set_option autoImplicit false

/-!
# Unguarded queues in a block RAM

`mkUGBramFifos` of `MemUtils.bsv`: `numFifos` queues of `fifoDepth` elements each in one block RAM. A
queue is a window of the memory with a head and a tail address that come round at the end of the
window. Nothing counts the elements: the methods have no guard against an empty or a full queue, and
it is left to the user not to call them then.

As in the memory management unit, the block RAM answers a read with the contents at the time of the
request, and holds at most `bramDepth` answers of a port.

## Main definitions

* `Xbsv.UGBramFifos` — the addresses, the memory and the answers of port A.
* `Xbsv.UGBramFifos.Holds` — the queues as lists.

## Main results

* `Xbsv.UGBramFifos.Holds.enq`, `Xbsv.UGBramFifos.Holds.deq`, `Xbsv.UGBramFifos.Holds.firstReq`,
  `Xbsv.UGBramFifos.Holds.updHead` — as long as its queues are neither overfilled nor read when empty,
  the module is a family of queues.
-/

namespace Xbsv

open Rules

/-- `buffAddrSz`: the width of an address. -/
abbrev buffAddrSz (numFifos fifoDepth : ℕ) : ℕ := tlog (fifoDepth * numFifos)

/-- The state of `mkUGBramFifos`. -/
structure UGBramFifos (numFifos fifoDepth : ℕ) (α : Type) where
  head : Fin numFifos → BitVec (buffAddrSz numFifos fifoDepth)
  tail : Fin numFifos → BitVec (buffAddrSz numFifos fifoDepth)
  buff : BitVec (buffAddrSz numFifos fifoDepth) → α
  /-- The answers of port A. -/
  resp : Fifo SGList.bramDepth α

namespace UGBramFifos

variable {numFifos fifoDepth : ℕ} {α : Type}

/-- The state after reset, with the given contents of the block RAM. -/
def reset (numFifos fifoDepth : ℕ) (buff : BitVec (buffAddrSz numFifos fifoDepth) → α) :
    UGBramFifos numFifos fifoDepth α :=
  ⟨fun i => BitVec.ofNat _ (i * fifoDepth), fun i => BitVec.ofNat _ (i * fifoDepth), buff, .empty⟩

/-- The address after `a` in the window of a queue. -/
def advance (idx : Fin numFifos) (a : BitVec (buffAddrSz numFifos fifoDepth)) :
    BitVec (buffAddrSz numFifos fifoDepth) :=
  let fifo_depth : BitVec (1 + buffAddrSz numFifos fifoDepth) := BitVec.ofNat _ fifoDepth
  let nt : BitVec (1 + buffAddrSz numFifos fifoDepth) := a.setWidth _ + 1
  let li := (BitVec.ofNat (1 + buffAddrSz numFifos fifoDepth) idx + 1) * fifo_depth
  let rs := (BitVec.ofNat (1 + buffAddrSz numFifos fifoDepth) idx + 0) * fifo_depth
  (if nt ≥ li then rs else nt).setWidth _

/-- Method `enq`. -/
def enq (s : UGBramFifos numFifos fifoDepth α) (idx : Fin numFifos) (v : α) :
    UGBramFifos numFifos fifoDepth α :=
  { s with
    buff := Function.update s.buff (s.tail idx) v
    tail := Function.update s.tail idx (advance idx (s.tail idx)) }

/-- Method `first_req`. -/
def firstReq (s : UGBramFifos numFifos fifoDepth α) (idx : Fin numFifos) :
    Option (UGBramFifos numFifos fifoDepth α) := do
  let resp ← s.resp.enq (s.buff (s.head idx))
  return { s with resp }

/-- Method `first_resp`. -/
def firstResp (s : UGBramFifos numFifos fifoDepth α) : Option (α × UGBramFifos numFifos fifoDepth α) :=
  do
  let (v, resp) ← s.resp.deq
  return (v, { s with resp })

/-- Method `deq`. -/
def deq (s : UGBramFifos numFifos fifoDepth α) (idx : Fin numFifos) :
    UGBramFifos numFifos fifoDepth α :=
  { s with head := Function.update s.head idx (advance idx (s.head idx)) }

/-- Method `upd_head`; a write, too, waits while port A is full of answers. -/
def updHead (s : UGBramFifos numFifos fifoDepth α) (idx : Fin numFifos) (v : α) :
    Option (UGBramFifos numFifos fifoDepth α) :=
  if s.resp.items.length < SGList.bramDepth then
    some { s with buff := Function.update s.buff (s.head idx) v }
  else none

/-! ## Addresses -/

/-- The address of place `k` in the window of queue `i`. -/
def slot (i : Fin numFifos) (k : ℕ) : BitVec (buffAddrSz numFifos fifoDepth) :=
  BitVec.ofNat _ (i * fifoDepth + k)

/-- Addresses of places within the windows are not truncated. -/
lemma slot_bound {k : ℕ} (i : Fin numFifos) (hk : k < fifoDepth) :
    i * fifoDepth + k < (i + 1) * fifoDepth ∧
      (i + 1) * fifoDepth ≤ 2 ^ buffAddrSz numFifos fifoDepth := by
  have h₁ : (i.val + 1) * fifoDepth ≤ numFifos * fifoDepth := Nat.mul_le_mul_right _ i.isLt
  have h₂ := le_two_pow_tlog (fifoDepth * numFifos)
  rw [Nat.mul_comm fifoDepth] at h₂
  have h₃ : buffAddrSz numFifos fifoDepth = tlog (numFifos * fifoDepth) := by
    rw [buffAddrSz, Nat.mul_comm]
  refine ⟨by rw [Nat.add_mul]; omega, ?_⟩
  rw [h₃]
  exact h₁.trans h₂

lemma slot_toNat {k : ℕ} (i : Fin numFifos) (hk : k < fifoDepth) :
    (slot i k : BitVec (buffAddrSz numFifos fifoDepth)).toNat = i * fifoDepth + k := by
  obtain ⟨h₁, h₂⟩ := slot_bound i hk
  rw [slot, BitVec.toNat_ofNat, Nat.mod_eq_of_lt (by omega)]

/-- Different places have different addresses. -/
lemma slot_inj {i j : Fin numFifos} {k l : ℕ} (hk : k < fifoDepth) (hl : l < fifoDepth)
    (h : (slot i k : BitVec (buffAddrSz numFifos fifoDepth)) = slot j l) : i = j ∧ k = l := by
  have ht := congrArg BitVec.toNat h
  rw [slot_toNat i hk, slot_toNat j hl] at ht
  have hi : (i * fifoDepth + k) / fifoDepth = i := by
    rw [Nat.add_comm, Nat.add_mul_div_right _ _ (by omega), Nat.div_eq_of_lt hk, Nat.zero_add]
  have hj : (j * fifoDepth + l) / fifoDepth = j := by
    rw [Nat.add_comm, Nat.add_mul_div_right _ _ (by omega), Nat.div_eq_of_lt hl, Nat.zero_add]
  have hij : i.val = j.val := by rw [← hi, ht, hj]
  refine ⟨Fin.ext hij, ?_⟩
  rw [hij] at ht
  omega

/-- Addresses come round at the end of their window. -/
lemma advance_slot {k : ℕ} (i : Fin numFifos) (hk : k < fifoDepth) :
    advance i (slot i k : BitVec (buffAddrSz numFifos fifoDepth)) = slot i ((k + 1) % fifoDepth) := by
  obtain ⟨h₁, h₂⟩ := slot_bound i hk
  have hpow : 2 ^ (1 + buffAddrSz numFifos fifoDepth) = 2 * 2 ^ buffAddrSz numFifos fifoDepth := by
    rw [Nat.pow_add]
  have hdist : (i.val + 1) * fifoDepth = i * fifoDepth + fifoDepth := Nat.succ_mul _ _
  have hi : i.val + 1 ≤ (i.val + 1) * fifoDepth := Nat.le_mul_of_pos_right _ (by omega)
  have hidx : (BitVec.ofNat (1 + buffAddrSz numFifos fifoDepth) i.val).toNat = i.val := by
    rw [BitVec.toNat_ofNat, Nat.mod_eq_of_lt (by omega)]
  have hdep : (BitVec.ofNat (1 + buffAddrSz numFifos fifoDepth) fifoDepth).toNat = fifoDepth := by
    rw [BitVec.toNat_ofNat, Nat.mod_eq_of_lt (by omega)]
  have hone : (1 : BitVec (1 + buffAddrSz numFifos fifoDepth)).toNat = 1 := by
    have hlt : 1 < 2 ^ (1 + buffAddrSz numFifos fifoDepth) := by omega
    rw [BitVec.ofNat_eq_ofNat, BitVec.toNat_ofNat]
    exact Nat.mod_eq_of_lt hlt
  have hnt : ((slot i k : BitVec (buffAddrSz numFifos fifoDepth)).setWidth
      (1 + buffAddrSz numFifos fifoDepth) + 1).toNat = i * fifoDepth + k + 1 := by
    rw [BitVec.toNat_add, BitVec.toNat_setWidth, slot_toNat i hk, hone,
      Nat.mod_eq_of_lt (a := i.val * fifoDepth + k) (by omega), Nat.mod_eq_of_lt (by omega)]
  have hli : ((BitVec.ofNat (1 + buffAddrSz numFifos fifoDepth) i + 1) *
      BitVec.ofNat (1 + buffAddrSz numFifos fifoDepth) fifoDepth).toNat = (i + 1) * fifoDepth := by
    rw [BitVec.toNat_mul, BitVec.toNat_add, hidx, hdep, hone,
      Nat.mod_eq_of_lt (a := i.val + 1) (by omega), Nat.mod_eq_of_lt (by omega)]
  have hrs : ((BitVec.ofNat (1 + buffAddrSz numFifos fifoDepth) i + 0) *
      BitVec.ofNat (1 + buffAddrSz numFifos fifoDepth) fifoDepth).toNat = i * fifoDepth := by
    rw [BitVec.ofNat_eq_ofNat, BitVec.add_zero, BitVec.toNat_mul, hidx, hdep, Nat.mod_eq_of_lt (by omega)]
  apply BitVec.eq_of_toNat_eq
  rw [slot_toNat i (Nat.mod_lt _ (by omega)), advance]
  simp only [ge_iff_le, BitVec.le_def, hli, hnt, BitVec.toNat_setWidth]
  by_cases hend : k + 1 = fifoDepth
  · rw [if_pos (by omega), hrs, hend, Nat.mod_self, Nat.mod_eq_of_lt (by omega), Nat.add_zero]
  · rw [if_neg (by omega), hnt, Nat.mod_eq_of_lt (a := k + 1) (by omega),
      Nat.mod_eq_of_lt (by omega), Nat.add_assoc]

/-! ## Queues -/

/-- The window of queue `i` holds the list `l`, from the place `h` of its head on. -/
structure HoldsAt (s : UGBramFifos numFifos fifoDepth α) (i : Fin numFifos) (h : ℕ) (l : List α) :
    Prop where
  lt : h < fifoDepth
  head : s.head i = slot i h
  tail : s.tail i = slot i ((h + l.length) % fifoDepth)
  length_le : l.length ≤ fifoDepth
  buff : ∀ k x, l[k]? = some x → s.buff (slot i ((h + k) % fifoDepth)) = x

/-- The queues hold the lists `q`. -/
def Holds (s : UGBramFifos numFifos fifoDepth α) (q : Fin numFifos → List α) : Prop :=
  ∀ i, ∃ h, s.HoldsAt i h (q i)

variable {s s' : UGBramFifos numFifos fifoDepth α} {q : Fin numFifos → List α}

/-- After reset the queues are empty. -/
lemma holds_reset (hd : 0 < fifoDepth) (buff : BitVec (buffAddrSz numFifos fifoDepth) → α) :
    (reset numFifos fifoDepth buff).Holds fun _ => [] := by
  intro i
  refine ⟨0, hd, rfl, ?_, Nat.zero_le _, by simp⟩
  simp [reset, slot]

/-- A write elsewhere does not concern the window of a queue. -/
lemma HoldsAt.congr {i : Fin numFifos} {h : ℕ} {l : List α} (hi : s.HoldsAt i h l)
    (hhead : s'.head i = s.head i) (htail : s'.tail i = s.tail i)
    (hbuff : ∀ k < fifoDepth, s'.buff (slot i k) = s.buff (slot i k)) : s'.HoldsAt i h l := by
  refine ⟨hi.lt, by rw [hhead, hi.head], by rw [htail, hi.tail], hi.length_le, fun k x hx => ?_⟩
  have hlt := hi.lt
  rw [hbuff _ (Nat.mod_lt _ (by omega)), hi.buff k x hx]

/-- `enq` appends, when there is room. -/
theorem Holds.enq (h : s.Holds q) {i : Fin numFifos} (hroom : (q i).length < fifoDepth) (v : α) :
    (s.enq i v).Holds (Function.update q i (q i ++ [v])) := by
  intro j
  obtain ⟨hi, hat⟩ := h i
  have hlt := hat.lt
  by_cases hj : j = i
  · subst hj
    have htail : (hi + (q j).length) % fifoDepth < fifoDepth := Nat.mod_lt _ (by omega)
    refine ⟨hi, hat.lt, by simpa [UGBramFifos.enq] using hat.head, ?_, ?_, ?_⟩
    · simp only [UGBramFifos.enq, Function.update_self, List.length_append, List.length_singleton]
      rw [hat.tail, advance_slot j htail, Nat.mod_add_mod, Nat.add_assoc]
    · simp only [Function.update_self, List.length_append, List.length_singleton]
      omega
    · intro k x hx
      simp only [UGBramFifos.enq, Function.update_self] at hx ⊢
      rw [hat.tail]
      rcases Nat.lt_trichotomy k (q j).length with hk | rfl | hk
      · rw [List.getElem?_append_left hk] at hx
        have hne : slot j ((hi + k) % fifoDepth) ≠
            (slot j ((hi + (q j).length) % fifoDepth) : BitVec (buffAddrSz numFifos fifoDepth)) := by
          intro he
          obtain ⟨-, he⟩ := slot_inj (Nat.mod_lt _ (by omega)) htail he
          have hsame := (Bits.add_mod_inj hi (by omega) (by omega)).mp he
          omega
        rw [Function.update_of_ne hne, hat.buff k x hx]
      · rw [Function.update_self]
        simpa using hx
      · rw [List.getElem?_eq_none (by simp; omega)] at hx
        cases hx
  · obtain ⟨hj', hatj⟩ := h j
    refine ⟨hj', ?_⟩
    rw [Function.update_of_ne hj]
    refine hatj.congr rfl (by simp [UGBramFifos.enq, hj]) fun k hk => ?_
    have hne : slot j k ≠ s.tail i := by
      rw [hat.tail]
      intro he
      exact hj (slot_inj hk (Nat.mod_lt _ (by omega)) he).1
    exact Function.update_of_ne hne _ _

/-- `deq` removes the oldest element. -/
theorem Holds.deq (h : s.Holds q) {i : Fin numFifos} {x : α} {xs : List α} (hq : q i = x :: xs) :
    (s.deq i).Holds (Function.update q i xs) := by
  intro j
  by_cases hj : j = i
  · subst hj
    obtain ⟨hi, hat⟩ := h j
    have hlt := hat.lt
    rw [hq] at hat
    have hlen := hat.length_le
    rw [List.length_cons] at hlen
    rw [Function.update_self]
    refine ⟨(hi + 1) % fifoDepth, Nat.mod_lt _ (by omega), ?_, ?_, by omega, fun k y hy => ?_⟩
    · simp only [UGBramFifos.deq, Function.update_self]
      rw [hat.head, advance_slot j hat.lt]
    · rw [Nat.mod_add_mod, Nat.add_assoc, Nat.add_comm 1]
      exact hat.tail
    · rw [Nat.mod_add_mod, Nat.add_assoc, Nat.add_comm 1]
      exact hat.buff (k + 1) y (by simpa using hy)
  · obtain ⟨hj', hatj⟩ := h j
    refine ⟨hj', ?_⟩
    rw [Function.update_of_ne hj]
    exact hatj.congr (by simp [UGBramFifos.deq, hj]) rfl fun _ _ => rfl

/-- The memory holds the oldest element at the head. -/
lemma Holds.head_eq (h : s.Holds q) {i : Fin numFifos} {x : α} {xs : List α} (hq : q i = x :: xs) :
    s.buff (s.head i) = x := by
  obtain ⟨hi, hat⟩ := h i
  have := hat.buff 0 x (by simp [hq])
  rwa [Nat.add_zero, Nat.mod_eq_of_lt hat.lt, ← hat.head] at this

/-- `first_req` asks for the oldest element. -/
theorem Holds.firstReq (h : s.Holds q) {i : Fin numFifos} {x : α} {xs : List α} (hq : q i = x :: xs)
    (hs : s.firstReq i = some s') : s'.Holds q ∧ s'.resp.items = s.resp.items ++ [x] := by
  simp only [UGBramFifos.firstReq, h.head_eq hq, bind, pure, Option.bind_eq_some_iff,
    Fifo.enq_eq_some, Option.some.injEq] at hs
  obtain ⟨resp, ⟨-, hresp⟩, rfl⟩ := hs
  exact ⟨fun j => (h j).imp fun _ hat => hat.congr rfl rfl fun _ _ => rfl, hresp⟩

/-- `first_resp` takes the oldest answer. -/
theorem Holds.firstResp (h : s.Holds q) {x : α} (hs : s.firstResp = some (x, s')) :
    s'.Holds q ∧ s.resp.items = x :: s'.resp.items := by
  simp only [UGBramFifos.firstResp, bind, pure, Option.bind_eq_some_iff, Prod.exists,
    Fifo.deq_eq_some, Option.some.injEq, Prod.mk.injEq] at hs
  obtain ⟨v, resp, hresp, rfl, rfl⟩ := hs
  exact ⟨fun j => (h j).imp fun _ hat => hat.congr rfl rfl fun _ _ => rfl, hresp⟩

/-- `upd_head` replaces the oldest element. -/
theorem Holds.updHead (h : s.Holds q) {i : Fin numFifos} {x v : α} {xs : List α} (hq : q i = x :: xs)
    (hs : s.updHead i v = some s') :
    s'.Holds (Function.update q i (v :: xs)) ∧ s'.resp = s.resp := by
  simp only [UGBramFifos.updHead, Option.ite_none_right_eq_some, Option.some.injEq] at hs
  obtain ⟨-, rfl⟩ := hs
  refine ⟨fun j => ?_, rfl⟩
  obtain ⟨hi, hat⟩ := h i
  have hlt := hat.lt
  rw [hq] at hat
  have hlen := hat.length_le
  rw [List.length_cons] at hlen
  by_cases hj : j = i
  · subst hj
    rw [Function.update_self]
    refine ⟨hi, hat.lt, hat.head, by simpa using hat.tail, by simpa using hlen, fun k y hy => ?_⟩
    simp only [hat.head]
    cases k with
    | zero =>
      rw [Nat.add_zero, Nat.mod_eq_of_lt hat.lt, Function.update_self]
      simpa using hy
    | succ k =>
      have hk : k < xs.length := by
        by_contra hge
        rw [List.getElem?_cons_succ, List.getElem?_eq_none (by omega)] at hy
        cases hy
      have hne : slot j ((hi + (k + 1)) % fifoDepth) ≠
          (slot j hi : BitVec (buffAddrSz numFifos fifoDepth)) := by
        intro he
        obtain ⟨-, he⟩ := slot_inj (Nat.mod_lt _ (by omega)) hat.lt he
        have hround : (hi + (k + 1)) % fifoDepth = (hi + 0) % fifoDepth := by
          rw [he, Nat.add_zero, Nat.mod_eq_of_lt hlt]
        have hzero := (Bits.add_mod_inj hi (by omega) (by omega)).mp hround
        omega
      rw [Function.update_of_ne hne]
      exact hat.buff (k + 1) y (by simpa using hy)
  · obtain ⟨hj', hatj⟩ := h j
    refine ⟨hj', ?_⟩
    rw [Function.update_of_ne hj]
    refine hatj.congr rfl rfl fun k hk => ?_
    have hne : slot j k ≠ s.head i := by
      rw [hat.head]
      intro he
      exact hj (slot_inj hk hat.lt he).1
    exact Function.update_of_ne hne _ _

end UGBramFifos

end Xbsv
