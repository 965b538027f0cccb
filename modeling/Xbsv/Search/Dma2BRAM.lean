import Mathlib.Logic.Function.Basic
import Xbsv.Rules.Lanes
import Xbsv.Search.MemReader

set_option relaxedAutoImplicit false
set_option autoImplicit false

/-!
# `mkBRAMReadClient`

The client of `Dma2BRAM.bsv` that reads an object from memory and writes it to a block RAM, one element to an
address. It asks for a beat at a time until the last element has been asked for; what the last beat brings beyond
that element is thrown away. The gearbox holds two beats.

## Main definitions

* `Xbsv.BRAMReadClient` — the client, its methods and its rules.
* `Xbsv.BRAMReadClient.Loads` — the invariant of a transfer.

## Main results

* `Xbsv.BRAMReadClient.Loads.step`, `Xbsv.BRAMReadClient.cost_lt` — every step keeps it, and there are finitely many.
* `Xbsv.BRAMReadClient.Loads.exists_step` — until the transfer is complete there is a step.
-/

namespace Xbsv

open Rules

/-! ## Indices and streams -/

section Streams

variable {α : Type*} {w n : ℕ}

/-- An index has one bit more than the addresses, and does not wrap around. -/
lemma toNat_index_add {i : BitVec (1 + w)} (hi : i.toNat < 2 ^ w) (hn : n ≤ 2 ^ w) :
    (i + BitVec.ofNat _ n).toNat = i.toNat + n := by
  have hpow : 2 ^ (1 + w) = 2 * 2 ^ w := by rw [Nat.pow_add, pow_one]
  rw [BitVec.toNat_add, BitVec.toNat_ofNat, Nat.mod_eq_of_lt (by omega : n < 2 ^ (1 + w)), Nat.mod_eq_of_lt (by omega)]

lemma toNat_index_succ {i : BitVec (1 + w)} (hi : i.toNat < 2 ^ w) : (i + 1).toNat = i.toNat + 1 :=
  toNat_index_add hi (Nat.two_pow_pos w)

/-- A stream of the elements from `a` on that is not empty begins with that of `a`. -/
lemma cons_eq_map_range' {elem : ℕ → α} {a : ℕ} {x : α} {xs : List α} (h : x :: xs = (List.range' a n).map elem) :
    ∃ m, n = m + 1 ∧ x = elem a ∧ xs = (List.range' (a + 1) m).map elem := by
  cases n with
  | zero => cases h
  | succ m =>
    rw [List.range'_succ, List.map_cons, List.cons.injEq] at h
    exact ⟨m, rfl, h.1, h.2⟩

end Streams

/-! ## The source -/

/-- The state of `mkBRAMReadClient`: elements of `size` bytes, beats of `nb`. -/
structure BRAMReadClient (idxWidth size nb : ℕ) where
  f : Fifo 1 Unit
  i : BitVec (1 + idxWidth)
  j : BitVec (1 + idxWidth)
  n : BitVec (1 + idxWidth)
  ptr : BitVec 32
  off : BitVec 40
  gb : Fifo (2 * (nb / size)) (BitVec (8 * size))
  re : MemReader nb

namespace BRAMReadClient

variable {idxWidth size nb : ℕ}

/-- After reset. -/
def reset : BRAMReadClient idxWidth size nb := ⟨.empty, BitVec.allOnes _, BitVec.allOnes _, 0, 0, 0, .empty, .reset⟩

variable (s : BRAMReadClient idxWidth size nb)

/-- `start`. -/
def start (h : BitVec 32) (b : BitVec 40) (start_idx finish_idx : BitVec idxWidth) :
    BRAMReadClient idxWidth size nb :=
  { s with i := start_idx.setWidth _, j := start_idx.setWidth _, n := finish_idx.setWidth _, ptr := h, off := b }

/-- `finish`. -/
def finish : Option (BRAMReadClient idxWidth size nb) := do
  let (_, f) ← s.f.deq
  return { s with f }

/-- Rule `feed_gearbox`. -/
def feedGearbox : Option (BRAMReadClient idxWidth size nb) := do
  let (v, re) ← s.re.readData
  let gb ← s.gb.enqN (unpackVector size (nb / size) v.data)
  return { s with re, gb }

/-- Rule `loadReq`. -/
def loadReq : Option (BRAMReadClient idxWidth size nb) :=
  if s.i ≤ s.n then do
    let re ← s.re.readReq ⟨s.ptr, s.off, BitVec.ofNat 8 nb, 0⟩
    return { s with re, off := s.off + BitVec.ofNat 40 nb, i := s.i + BitVec.ofNat _ (nb / size) }
  else none

/-- Rule `load`, with the write that it makes to the block RAM. -/
def load : Option (BRAMReadClient idxWidth size nb × BitVec idxWidth × BitVec (8 * size)) :=
  if s.j ≤ s.n then do
    let (datain, gb) ← s.gb.deq
    let f ← s.f.enqIf (s.j = s.n) ()
    return ({ s with gb, f, j := s.j + 1 }, s.j.setWidth _, datain)
  else none

/-- Rule `discard`. -/
def discard : Option (BRAMReadClient idxWidth size nb) :=
  if s.n < s.j then do
    let (_, gb) ← s.gb.deq
    return { s with gb }
  else none

/-- The rules, and the steps of the memory behind the reader. -/
inductive Action
  | feedGearbox | loadReq | load | discard | clientReq | clientData
  deriving DecidableEq

/-- A step of the client, with the block RAM that it writes to. -/
def step (mem : ObjectMemory) (bram : BitVec idxWidth → BitVec (8 * size)) :
    Action → Option (BRAMReadClient idxWidth size nb × (BitVec idxWidth → BitVec (8 * size)))
  | .feedGearbox => s.feedGearbox.map (·, bram)
  | .loadReq => s.loadReq.map (·, bram)
  | .load => s.load.map fun r => (r.1, Function.update bram r.2.1 r.2.2)
  | .discard => s.discard.map (·, bram)
  | .clientReq => s.re.clientReq.map fun re => ({ s with re }, bram)
  | .clientData => (s.re.clientData mem).map fun re => ({ s with re }, bram)

/-- The elements that have been asked for and not been written. -/
def underWay (mem : ObjectMemory) : List (BitVec (8 * size)) :=
  s.gb.items ++ (s.re.beats mem).flatMap fun v => unpackVector size (nb / size) v.data

/-- A bound on the steps of a client. -/
def cost : ℕ :=
  (s.n.toNat + 1 - s.i.toNat) * (2 * (nb / size) + 4) + s.re.cost (2 * (nb / size)) + 2 * s.gb.items.length +
    s.f.items.length

/-- The transfer of the elements up to `m` of the object `h`. The end of the transfer is signalled until it has been
`seen`. -/
structure Loads (mem : ObjectMemory) (h : BitVec 32) (m : ℕ) (elem : ℕ → BitVec (8 * size)) (seen : Bool)
    (s : BRAMReadClient idxWidth size nb) (bram : BitVec idxWidth → BitVec (8 * size)) : Prop where
  n : s.n.toNat = m
  ptr : s.ptr = h
  off : s.off.toNat = size * s.i.toNat
  i_lt : s.i.toNat < m + 1 + nb / size
  j_le : s.j.toNat ≤ m + 1
  j_le_i : s.j.toNat ≤ s.i.toNat
  underWay : s.j.toNat ≤ m → s.underWay mem =
    (List.range' s.j.toNat (s.i.toNat - s.j.toNat)).map elem
  bram : ∀ k < s.j.toNat, bram (BitVec.ofNat _ k) = elem k
  f : s.f.items = if s.j.toNat = m + 1 ∧ seen = false then [()] else []
  complete : seen = true → s.j.toNat = m + 1
  memory : seen = false → ∀ k, mem.bytes h size (size * k) = elem k

/-- The sizes of a client: an element is some bytes, a beat is some elements, and addresses do not wrap around. -/
structure Fits (idxWidth size nb : ℕ) : Prop where
  size_pos : 0 < size
  nb_pos : 0 < nb
  dvd : size ∣ nb
  nb_lt : nb < 2 ^ 8
  idxWidth_le : idxWidth ≤ 30
  le_idxWidth : 8 ≤ idxWidth

variable {s} {s' : BRAMReadClient idxWidth size nb} {bram bram' : BitVec idxWidth → BitVec (8 * size)}
  {mem : ObjectMemory} {h : BitVec 32} {m : ℕ} {elem : ℕ → BitVec (8 * size)} {seen : Bool}

namespace Fits

lemma pos (hc : Fits idxWidth size nb) : 0 < nb / size :=
  Nat.div_pos (Nat.le_of_dvd hc.nb_pos hc.dvd) hc.size_pos

lemma lt_two_pow (hc : Fits idxWidth size nb) : nb / size < 2 ^ idxWidth := by
  have hle : nb / size ≤ nb := Nat.div_le_self _ _
  have hpow : 2 ^ 8 ≤ 2 ^ idxWidth := Nat.pow_le_pow_right (by omega) hc.le_idxWidth
  have hlt := hc.nb_lt
  omega

/-- The counter of a client that has not asked for everything. -/
lemma toNat_add (hc : Fits idxWidth size nb) {i : BitVec (1 + idxWidth)} (hi : i.toNat < 2 ^ idxWidth) :
    (i + BitVec.ofNat _ (nb / size)).toNat = i.toNat + nb / size := by
  exact toNat_index_add hi hc.lt_two_pow.le

/-- The offset of a client that has not asked for everything. -/
lemma toNat_off (hc : Fits idxWidth size nb) {off : BitVec 40} {i : ℕ} (hoff : off.toNat = size * i)
    (hi : i < 2 ^ idxWidth) : (off + BitVec.ofNat 40 nb).toNat = size * (i + nb / size) := by
  have hsize : size ≤ nb := Nat.le_of_dvd hc.nb_pos hc.dvd
  have hnb := hc.nb_lt
  have hpow : 2 ^ idxWidth ≤ 2 ^ 30 := Nat.pow_le_pow_right (by omega) hc.idxWidth_le
  have hlt : size * i ≤ 2 ^ 8 * 2 ^ 30 := Nat.mul_le_mul (by omega) (by omega)
  rw [BitVec.toNat_add, BitVec.toNat_ofNat, hoff, Nat.mul_add, Nat.mul_div_cancel' hc.dvd, Nat.mod_eq_of_lt
    (by omega : nb < 2 ^ 40), Nat.mod_eq_of_lt (by omega)]

end Fits

/-! ## A transfer -/

namespace Loads

/-- The start of a transfer. -/
lemma start (hm : m < 2 ^ idxWidth) (helem : ∀ k, mem.bytes h size (size * k) = elem k) : Loads mem h m elem false
    ((reset : BRAMReadClient idxWidth size nb).start h 0 0 (BitVec.ofNat _ m)) bram where
  n := by
    have hlt : m < 2 ^ (1 + idxWidth) := hm.trans_le (Nat.pow_le_pow_right (by omega) (by omega))
    simp [BRAMReadClient.start, Nat.mod_eq_of_lt hm, Nat.mod_eq_of_lt hlt]
  ptr := rfl
  off := by simp [BRAMReadClient.start]
  i_lt := by simp [BRAMReadClient.start]
  j_le := by simp [BRAMReadClient.start]
  j_le_i := by simp [BRAMReadClient.start]
  underWay := by simp [BRAMReadClient.start, BRAMReadClient.underWay, reset, MemReader.reset, MemReader.beats]
  bram := by simp [BRAMReadClient.start]
  f := by simp [BRAMReadClient.start, reset]
  complete h := by cases h
  memory _ := helem

lemma unseen (hl : Loads mem h m elem seen s bram) (hj : s.j.toNat ≤ m) : seen = false := by
  refine Bool.eq_false_iff.mpr fun h => ?_
  have := hl.complete h
  omega

/-- After the end of a transfer the memory does not matter. -/
lemma change (hl : Loads mem h m elem true s bram) (mem' : ObjectMemory) : Loads mem' h m elem true s bram :=
  { hl with
    underWay := fun hj => by cases hl.unseen hj
    memory := fun h => by cases h }

/-- Elements on their way to the gearbox. -/
lemma frame (hl : Loads mem h m elem seen s bram) {gb : Fifo (2 * (nb / size)) (BitVec (8 * size))} {re : MemReader nb}
    (hway : s.j.toNat ≤ m → ({ s with gb, re } : BRAMReadClient _ _ _).underWay mem = s.underWay mem) :
    Loads mem h m elem seen { s with gb, re } bram :=
  { hl with underWay := fun hj => (hway hj).trans (hl.underWay hj) }

lemma feedGearbox (hl : Loads mem h m elem seen s bram) (hs : s.feedGearbox = some s') :
    Loads mem h m elem seen s' bram ∧ s'.cost < s.cost := by
  simp only [BRAMReadClient.feedGearbox, Option.bind_eq_bind, Option.bind_eq_some_iff, Prod.exists, pure,
    Option.some.injEq] at hs
  obtain ⟨v, re, hdata, gb, hgb, rfl⟩ := hs
  obtain ⟨-, hitems⟩ := Fifo.enqN_eq_some.mp hgb
  obtain ⟨hbeats, hcost⟩ := MemReader.readData_eq_some hdata mem (2 * (nb / size))
  refine ⟨hl.frame fun _ => ?_, ?_⟩
  · simp [BRAMReadClient.underWay, hitems, hbeats]
  · simp only [cost, hitems, hcost, List.length_append, length_unpackVector]
    omega

lemma clientReq (hl : Loads mem h m elem seen s bram) {re : MemReader nb} (hre : s.re.clientReq = some re) :
    Loads mem h m elem seen { s with re } bram ∧ ({ s with re } : BRAMReadClient _ _ _).cost < s.cost := by
  obtain ⟨hbeats, hcost⟩ := MemReader.clientReq_eq_some hre mem (2 * (nb / size))
  refine ⟨hl.frame fun _ => ?_, ?_⟩
  · simp [BRAMReadClient.underWay, hbeats]
  · simp only [cost, hcost]
    omega

lemma clientData (hl : Loads mem h m elem seen s bram) {re : MemReader nb} (hre : s.re.clientData mem = some re) :
    Loads mem h m elem seen { s with re } bram ∧ ({ s with re } : BRAMReadClient _ _ _).cost < s.cost := by
  obtain ⟨hbeats, hcost⟩ := MemReader.clientData_eq_some hre (2 * (nb / size))
  refine ⟨hl.frame fun _ => ?_, ?_⟩
  · simp [BRAMReadClient.underWay, hbeats]
  · simp only [cost, hcost]
    omega

/-- The next beat is asked for. -/
lemma loadReq (hc : Fits idxWidth size nb) (hm : m < 2 ^ idxWidth) (hl : Loads mem h m elem seen s bram)
    (hs : s.loadReq = some s') : Loads mem h m elem seen s' bram ∧ s'.cost < s.cost := by
  simp only [BRAMReadClient.loadReq] at hs
  split at hs
  on_goal 2 => cases hs
  rename_i hi
  simp only [Option.bind_eq_bind, Option.bind_eq_some_iff, pure, Option.some.injEq] at hs
  obtain ⟨re, hre, rfl⟩ := hs
  have hle : s.i.toNat ≤ m := by
    rw [← hl.n]
    exact hi
  have hi' := hc.toNat_add (hle.trans_lt hm)
  have hpos := hc.pos
  obtain ⟨hbeats, hcost⟩ := MemReader.readReq_eq_some hre mem (2 * (nb / size))
  constructor
  · have hdata : seen = false →
        unpackVector size (nb / size) (mem.answer nb ⟨s.ptr, s.off, BitVec.ofNat 8 nb, 0⟩).data =
          (List.range' s.i.toNat (nb / size)).map elem := by
      intro hunseen
      rw [ObjectMemory.answer, hl.ptr, hl.off, unpackVector_bytes mem h _ (Nat.mul_div_le nb size),
        List.range'_eq_map_range, List.map_map]
      exact List.map_congr_left fun q _ => by rw [Function.comp_apply, ← Nat.mul_add, hl.memory hunseen]
    exact
      { hl with
        off := by rw [hi']; exact hc.toNat_off hl.off (hle.trans_lt hm)
        i_lt := by rw [hi']; omega
        j_le_i := by
          rw [hi']
          exact hl.j_le_i.trans (Nat.le_add_right _ _)
        underWay := fun hj => by
          have hji := hl.j_le_i
          have hsub : s.i.toNat + nb / size - s.j.toNat = (s.i.toNat - s.j.toNat) + nb / size := by omega
          have hold := hl.underWay hj
          simp only [BRAMReadClient.underWay] at hold ⊢
          rw [hi', hsub, ← List.range'_append_1, List.map_append, Nat.add_sub_cancel' hji, ← hdata (hl.unseen hj),
            ← hold, hbeats, List.flatMap_append, List.append_assoc]
          simp }
  · have hn := hl.n
    have hrest : s.n.toNat + 1 - (s.i.toNat + nb / size) + 1 ≤ s.n.toNat + 1 - s.i.toNat := by omega
    have hmul := Nat.mul_le_mul_right (2 * (nb / size) + 4) hrest
    rw [Nat.succ_mul] at hmul
    simp only [cost, hi', hcost]
    omega

lemma load (hm : m < 2 ^ idxWidth) (hl : Loads mem h m elem seen s bram)
    {w : BitVec idxWidth × BitVec (8 * size)} (hs : s.load = some (s', w)) :
    Loads mem h m elem seen s' (Function.update bram w.1 w.2) ∧ s'.cost < s.cost := by
  simp only [BRAMReadClient.load] at hs
  split at hs
  on_goal 2 => cases hs
  rename_i hj
  simp only [Option.bind_eq_bind, Option.bind_eq_some_iff, Prod.exists, Fifo.deq_eq_some, Fifo.enqIf_eq_some, pure,
    Option.some.injEq, Prod.mk.injEq] at hs
  obtain ⟨d, gb, hgb, f, ⟨-, hf⟩, rfl, rfl⟩ := hs
  have hle : s.j.toNat ≤ m := by
    rw [← hl.n]
    exact hj
  have hj' : (s.j + 1).toNat = s.j.toNat + 1 := toNat_index_succ (hle.trans_lt hm)
  have haddr : s.j.setWidth idxWidth = BitVec.ofNat _ s.j.toNat := (BitVec.ofNat_toNat idxWidth s.j).symm
  have hunseen := hl.unseen hle
  -- the first element under way is the one for this address
  have hway := hl.underWay hle
  have hji := hl.j_le_i
  rw [BRAMReadClient.underWay, hgb, List.cons_append] at hway
  obtain ⟨c, hc, hd, hrest⟩ := cons_eq_map_range' hway
  constructor
  · exact
      { hl with
        j_le := by
          rw [hj']
          omega
        j_le_i := by
          show (s.j + 1).toNat ≤ s.i.toNat
          omega
        underWay := fun _ => by
          have hsub : s.i.toNat - (s.j.toNat + 1) = c := by omega
          rw [hj', hsub]
          exact hrest
        bram := fun k hk => by
          rw [hj'] at hk
          by_cases heq : k = s.j.toNat
          · rw [haddr, heq, Function.update_self, hd]
          · have hne : BitVec.ofNat idxWidth k ≠ BitVec.ofNat _ s.j.toNat := fun h => by
              have hnat := congrArg BitVec.toNat h
              rw [BitVec.toNat_ofNat, BitVec.toNat_ofNat, Nat.mod_eq_of_lt (by omega), Nat.mod_eq_of_lt (by omega)]
                at hnat
              exact heq hnat
            rw [haddr, Function.update_of_ne hne]
            exact hl.bram k (by omega)
        f := by
          have hempty : s.f.items = [] := by rw [hl.f, if_neg (by omega)]
          have hiff : s.j = s.n ↔ s.j.toNat + 1 = m + 1 := by
            rw [← BitVec.toNat_inj, hl.n, Nat.succ_inj]
          show f.items = if (s.j + 1).toNat = m + 1 ∧ seen = false then [()] else []
          rw [hf, hempty, List.nil_append, hj']
          simp [hunseen, hiff]
        complete := fun h => by
          rw [hunseen] at h
          cases h }
  · have hlen : f.items.length ≤ s.f.items.length + 1 := by
      rw [hf, List.length_append]
      split <;> simp
    simp only [cost, hgb, List.length_cons]
    omega

lemma discard (hl : Loads mem h m elem seen s bram) (hs : s.discard = some s') :
    Loads mem h m elem seen s' bram ∧ s'.cost < s.cost := by
  simp only [BRAMReadClient.discard] at hs
  split at hs
  on_goal 2 => cases hs
  rename_i hj
  simp only [Option.bind_eq_bind, Option.bind_eq_some_iff, Prod.exists, Fifo.deq_eq_some, pure,
    Option.some.injEq] at hs
  obtain ⟨d, gb, hgb, rfl⟩ := hs
  have hlt : m < s.j.toNat := by
    rw [← hl.n]
    exact hj
  refine ⟨hl.frame fun hle => absurd hle hlt.not_ge, ?_⟩
  simp only [cost, hgb, List.length_cons]
  omega

/-- **Every step keeps a transfer going, and there are finitely many.** -/
theorem step (hc : Fits idxWidth size nb) (hm : m < 2 ^ idxWidth) (hl : Loads mem h m elem seen s bram) {a : Action}
    (hs : s.step mem bram a = some (s', bram')) : Loads mem h m elem seen s' bram' ∧ s'.cost < s.cost := by
  cases a <;>
    simp only [BRAMReadClient.step, Option.map_eq_some_iff, Prod.mk.injEq, Prod.exists] at hs
  case feedGearbox =>
    obtain ⟨_, hs, rfl, rfl⟩ := hs
    exact hl.feedGearbox hs
  case loadReq =>
    obtain ⟨_, hs, rfl, rfl⟩ := hs
    exact hl.loadReq hc hm hs
  case load =>
    obtain ⟨_, _, _, hs, rfl, rfl⟩ := hs
    exact hl.load hm hs
  case discard =>
    obtain ⟨_, hs, rfl, rfl⟩ := hs
    exact hl.discard hs
  case clientReq =>
    obtain ⟨_, hs, rfl, rfl⟩ := hs
    exact hl.clientReq hs
  case clientData =>
    obtain ⟨_, hs, rfl, rfl⟩ := hs
    exact hl.clientData hs

/-- After the end of a transfer nothing is written. -/
lemma bram_eq (hl : Loads mem h m elem true s bram) {a : Action} (hs : s.step mem bram a = some (s', bram')) :
    bram' = bram := by
  cases a <;>
    simp only [BRAMReadClient.step, Option.map_eq_some_iff, Prod.mk.injEq, Prod.exists] at hs
  case load =>
    obtain ⟨_, _, _, hs, -, -⟩ := hs
    have hj : ¬s.j ≤ s.n := by
      have hend := hl.complete rfl
      have hn := hl.n
      rw [BitVec.le_def]
      omega
    rw [BRAMReadClient.load, if_neg hj] at hs
    cases hs
  all_goals
    obtain ⟨_, -, -, rfl⟩ := hs
    rfl

/-- The end of the transfer is seen. -/
lemma finish (hl : Loads mem h m elem seen s bram) (hs : s.finish = some s') :
    seen = false ∧ Loads mem h m elem true s' bram ∧ s'.cost < s.cost := by
  simp only [BRAMReadClient.finish, Option.bind_eq_bind, Option.bind_eq_some_iff, Prod.exists, Fifo.deq_eq_some,
    pure, Option.some.injEq] at hs
  obtain ⟨_, f, hf, rfl⟩ := hs
  have htoken := hl.f
  rw [hf] at htoken
  split at htoken
  on_goal 2 => cases htoken
  rename_i hend
  refine ⟨hend.2, ?_, ?_⟩
  · exact
      { hl with
        f := by
          injection htoken with _ hnil
          simpa using hnil
        complete := fun _ => hend.1
        memory := fun h => by cases h }
  · simp only [cost, hf, List.length_cons]
    omega

/-- The signal of a transfer that is complete. -/
lemma exists_finish (hl : Loads mem h m elem false s bram) (hj : s.j.toNat = m + 1) : ∃ s', s.finish = some s' := by
  have hf : s.f.items = () :: [] := by rw [hl.f, if_pos ⟨hj, rfl⟩]
  obtain ⟨q, hq, -⟩ := Fifo.exists_deq hf
  exact ⟨_, by rw [BRAMReadClient.finish, hq]; rfl⟩

/-- **Until the transfer is complete there is a step.** -/
theorem exists_step (hl : Loads mem h m elem seen s bram) (hj : s.j.toNat ≠ m + 1) :
    ∃ a r, s.step mem bram a = some r := by
  have hle : s.j.toNat ≤ m := by
    have := hl.j_le
    omega
  have hjn : s.j ≤ s.n := by
    rw [BitVec.le_def, hl.n]
    exact hle
  cases hgb : s.gb.items with
  | cons d ds =>
    obtain ⟨gb, hdeq, -⟩ := Fifo.exists_deq hgb
    have hroom : decide (s.j = s.n) = true → s.f.items.length < 1 := fun _ => by
      rw [hl.f, if_neg fun h => hj h.1]
      exact Nat.zero_lt_one
    obtain ⟨f, hf⟩ := Fifo.exists_enqIf hroom ()
    exact ⟨.load, _, by
      rw [BRAMReadClient.step, BRAMReadClient.load, if_pos hjn, hdeq, Option.bind_eq_bind, Option.bind_some, hf]; rfl⟩
  | nil =>
    by_cases hbeats : s.re.beats mem = []
    · -- nothing is under way, so the last element has not been asked for
      have hway := hl.underWay hle
      rw [BRAMReadClient.underWay, hgb, hbeats, List.flatMap_nil, List.append_nil, eq_comm, List.map_eq_nil_iff,
        List.range'_eq_nil_iff] at hway
      have hin : s.i ≤ s.n := by
        rw [BitVec.le_def, hl.n]
        omega
      obtain ⟨re, hre⟩ := MemReader.exists_readReq hbeats ⟨s.ptr, s.off, BitVec.ofNat 8 nb, 0⟩
      exact ⟨.loadReq, _, by rw [BRAMReadClient.step, BRAMReadClient.loadReq, if_pos hin, hre]; rfl⟩
    · rcases MemReader.exists_step hbeats with ⟨re, hre⟩ | ⟨re, hre⟩ | ⟨v, re, hre⟩
      · exact ⟨.clientReq, _, by rw [BRAMReadClient.step, hre]; rfl⟩
      · exact ⟨.clientData, _, by rw [BRAMReadClient.step, hre]; rfl⟩
      · have hroom : s.gb.items.length + (unpackVector size (nb / size) v.data).length ≤ 2 * (nb / size) := by
          rw [hgb, length_unpackVector, List.length_nil]
          omega
        obtain ⟨gb, hgb, -⟩ := Fifo.exists_enqN hroom
        have hfeed : s.feedGearbox = some { s with re, gb } := by
          simp [BRAMReadClient.feedGearbox, hre, hgb]
        exact ⟨.feedGearbox, _, by rw [BRAMReadClient.step, hfeed]; rfl⟩

end Loads

end BRAMReadClient

end Xbsv
