import Xbsv.Portal.Adapter
import Xbsv.Portal.Proxy

set_option relaxedAutoImplicit false
set_option autoImplicit false

/-!
# Packed structs

The parameters of a method are the members of a struct. Bluespec packs a struct with the first member most
significant. A proxy sends the words of a request to a `mkFromBit`, which puts the struct together.

## Main definitions

* `Xbsv.requestBits` — the size of the struct.
* `Xbsv.pack` — the struct with the given contents.
* `Xbsv.Signature` — the parameters of a method that the Bluespec compiler accepts.
* `Xbsv.received` — the request that `mkFromBit` puts together when a proxy has been called.

## Main results

* `Xbsv.testBit_packAtoms` — the bits of a struct.
* `Xbsv.Exact.exists_received` — what is received.
-/

namespace Xbsv

open Bits

/-! ## Words given out and taken in -/

section Words

variable {n asz : ℕ}

/-- `k` words are fetched from `mkToBit`. -/
def ToBit.fetch : ℕ → ToBit n asz → Option (List (BitVec n) × ToBit n asz)
  | 0, s => some ([], s)
  | k + 1, s => do
    let x ← s.first
    let s ← s.deq
    let (xs, s) ← fetch k s
    return (x :: xs, s)

/-- The words of a value are fetched. -/
lemma ToBit.Sends.fetch {s : ToBit n asz} {j k : ℕ} (h : s.Sends j) (hn : 0 < n)
    (hw : (nwords n asz - 1) * n < 2 ^ 32) {x : BitVec (aszn n asz)} (hx : s.fifo.items = [x])
    (hk : j + k = nwords n asz) :
    ∃ s', ToBit.fetch k s = some (words n k x.toNat, s') ∧ s'.fifo.items = [] ∧ s'.Sends 0 := by
  have hm : nwords n asz ≤ 2 ^ 32 := by
    have hle : nwords n asz - 1 ≤ (nwords n asz - 1) * n := Nat.le_mul_of_pos_right _ hn
    omega
  induction k generalizing s j with
  | zero =>
    have := h.lt
    omega
  | succ k ih =>
    have hfirst := h.first hw hx
    rw [show nwords n asz - 1 - j = k by omega] at hfirst
    obtain ⟨s₁, hdeq⟩ := ToBit.exists_deq hx
    obtain ⟨-, -, hsent⟩ := h.deq hm hdeq
    rw [words_succ]
    obtain ⟨hlast, hnil, hsends⟩ | ⟨hmore, hfifo, hsends⟩ := hsent
    · have hk0 : k = 0 := by omega
      subst hk0
      exact ⟨s₁, by simp [ToBit.fetch, hfirst, hdeq, words], hnil, hsends⟩
    · obtain ⟨s', hfetch, hnil, hsends'⟩ := ih hsends (by rw [hfifo, hx]) (by omega)
      exact ⟨s', by simp [ToBit.fetch, hfirst, hdeq, hfetch], hnil, hsends'⟩

/-- The words of a value are received. -/
lemma FromBit.Collects.enqs {s : FromBit n asz} {ws xs : List (BitVec n)} (h : s.Collects ws)
    (hm : nwords n asz ≤ 2 ^ 32) (hnil : s.fifo.items = []) (hk : ws.length + xs.length = nwords n asz) :
    ∃ s', xs.foldlM FromBit.enq s = some s' ∧ s'.Collects [] ∧
      s'.fifo.items = [BitVec.ofNat asz (ofWords (ws ++ xs))] := by
  induction xs generalizing s ws with
  | nil =>
    have := h.lt
    rw [List.length_nil] at hk
    omega
  | cons x xs ih =>
    rw [List.length_cons] at hk
    obtain ⟨s₁, henq⟩ := h.exists_enq hm (.inl hnil) x
    rw [List.foldlM_cons, henq]
    simp only [bind, Option.bind_some]
    rcases h.enq hm henq with ⟨hlast, -, hfifo, hcol⟩ | ⟨hmore, hfifo, hcol⟩
    · have hxs : xs = [] := List.eq_nil_of_length_eq_zero (by omega)
      subst hxs
      exact ⟨s₁, rfl, hcol, hfifo⟩
    · obtain ⟨s', hs', hcol', hout⟩ := ih hcol (by rw [hfifo, hnil])
        (by rw [List.length_append, List.length_singleton]; omega)
      exact ⟨s', hs', hcol', by rw [hout, List.append_assoc, List.singleton_append]⟩

end Words

/-! ## Structs -/

variable [MathLog]

mutual

/-- The packed value of a member. -/
def BsvType.pack (fields : Fields) (scope : Name) (name : String) : BsvType → ℕ
  | .struct _ elements => elements.pack fields (scope ++ [name])
  | .bit n => (fields (scope ++ [name])).toNat % 2 ^ (BsvType.bit n).numBitsBSV
  | .int n => (fields (scope ++ [name])).toNat % 2 ^ (BsvType.int n).numBitsBSV
  | .uint n => (fields (scope ++ [name])).toNat % 2 ^ (BsvType.uint n).numBitsBSV
  | .float => (fields (scope ++ [name])).toNat % 2 ^ BsvType.float.numBitsBSV
  | .vector n t => (fields (scope ++ [name])).toNat % 2 ^ (BsvType.vector n t).numBitsBSV
  | .enum e elements => (fields (scope ++ [name])).toNat % 2 ^ (BsvType.enum e elements).numBitsBSV

/-- The packed value of the members of a struct: the first is the most significant. -/
def StructMembers.pack (fields : Fields) (scope : Name) : StructMembers → ℕ
  | .nil => 0
  | .cons name type rest => type.pack fields scope name * 2 ^ rest.numBitsBSV + rest.pack fields scope

end

/-- The size of the parameters. -/
def paramsBits (params : List Param) : ℕ := (params.map fun p => p.type.numBitsBSV).sum

/-- The packed value of the parameters. -/
def packParams (fields : Fields) : List Param → ℕ
  | [] => 0
  | p :: params => p.type.pack fields [] p.name * 2 ^ paramsBits params + packParams fields params

/-- The size of the struct of a request or a response. A method without parameters has `padding`. -/
def requestBits (params : List Param) : ℕ := if params.isEmpty then 32 else paramsBits params

/-- The struct of a request or a response; `padding` is 0. -/
def pack (params : List Param) (fields : Fields) : BitVec (requestBits params) :=
  BitVec.ofNat _ (packParams fields params)

/-- The parameters of a method. Names are different, and the Bluespec compiler accepts the struct: it has
bits, and the number of its words fits the counters of `mkToBit` and `mkFromBit`. -/
structure Signature where
  params : List Param
  names : (params.map Param.name).Nodup
  members : ∀ p ∈ params, p.type.Distinct
  sized : 1 ≤ requestBits params
  counted : nwords 32 (requestBits params) < 2 ^ 32

/-- The size of fields. -/
def atomsBits (atoms : List (Name × BsvType)) : ℕ := (atoms.map fun a => a.2.numBitsBSV).sum

/-- The packed value of fields: the first is the most significant. -/
def packAtoms (fields : Fields) : List (Name × BsvType) → ℕ
  | [] => 0
  | a :: atoms => (fields a.1).toNat % 2 ^ a.2.numBitsBSV * 2 ^ atomsBits atoms + packAtoms fields atoms

lemma atomsBits_append (as bs : List (Name × BsvType)) :
    atomsBits (as ++ bs) = atomsBits as + atomsBits bs := by
  simp [atomsBits]

lemma packAtoms_append (fields : Fields) (as bs : List (Name × BsvType)) :
    packAtoms fields (as ++ bs) = packAtoms fields as * 2 ^ atomsBits bs + packAtoms fields bs := by
  induction as with
  | nil => simp [packAtoms]
  | cons a as ih =>
    rw [List.cons_append, packAtoms, packAtoms, ih, atomsBits_append, pow_add]
    ring

lemma packAtoms_single (fields : Fields) (a : Name × BsvType) :
    packAtoms fields [a] = (fields a.1).toNat % 2 ^ a.2.numBitsBSV := by
  simp [packAtoms, atomsBits]

mutual

/-- A member is as large as its fields, and packed as they are. -/
lemma pack_collectMembers (fields : Fields) (scope : Name) (name : String) :
    ∀ t : BsvType, t.numBitsBSV = atomsBits (collectMembers scope name t) ∧
      t.pack fields scope name = packAtoms fields (collectMembers scope name t)
  | .struct _ elements => by
    rw [BsvType.numBitsBSV, BsvType.pack, collectMembers]
    exact pack_collectElements fields (scope ++ [name]) elements
  | .bit _ | .int _ | .uint _ | .float | .vector _ _ | .enum _ _ => by
    rw [BsvType.pack, collectMembers, packAtoms_single]
    exact ⟨by simp [atomsBits], rfl⟩

/-- A struct is as large as its fields, and packed as they are. -/
lemma pack_collectElements (fields : Fields) (scope : Name) :
    ∀ ms : StructMembers, ms.numBitsBSV = atomsBits (collectElements scope ms) ∧
      ms.pack fields scope = packAtoms fields (collectElements scope ms)
  | .nil => ⟨rfl, rfl⟩
  | .cons name type rest => by
    have htype := pack_collectMembers fields scope name type
    have hrest := pack_collectElements fields scope rest
    rw [StructMembers.numBitsBSV, StructMembers.pack, collectElements, atomsBits_append, packAtoms_append,
      htype.1, htype.2, hrest.1, hrest.2]
    exact ⟨rfl, rfl⟩

end

/-- The parameters are as large as their fields, and packed as they are. -/
lemma packParams_eq (fields : Fields) (params : List Param) :
    paramsBits params = atomsBits (collectParams params) ∧
      packParams fields params = packAtoms fields (collectParams params) := by
  induction params with
  | nil => exact ⟨rfl, rfl⟩
  | cons p params ih =>
    have hp := pack_collectMembers fields [] p.name p.type
    have hbits : paramsBits (p :: params) = p.type.numBitsBSV + paramsBits params := by simp [paramsBits]
    have hcollect : collectParams (p :: params) = collectMembers [] p.name p.type ++ collectParams params := by
      simp [collectParams]
    rw [hbits, hcollect, packParams, atomsBits_append, packAtoms_append, hp.1, hp.2, ih.1, ih.2]
    exact ⟨rfl, rfl⟩

/-! ## The bits of a struct -/

/-- A bit of a field within its width. -/
def cutBit (fields : Fields) (name : Name) (datatype : BsvType) (i : ℕ) : Bool :=
  decide (i < datatype.bitWidth) && (fields name).getLsbD i

section Overlay

variable {f g : Name → BsvType → ℕ → Bool} {p pro j : ℕ} {atoms : List (Name × BsvType)}

lemma overlay_congr (h : ∀ a ∈ atoms, ∀ i, f a.1 a.2 i = g a.1 a.2 i) :
    overlay f p pro atoms j = overlay g p pro atoms j := by
  induction atoms generalizing p pro with
  | nil => rfl
  | cons a atoms ih =>
    rw [overlay, overlay, h a List.mem_cons_self, ih fun b hb => h b (List.mem_cons_of_mem _ hb)]

lemma overlay_append (as bs : List (Name × BsvType)) :
    overlay f p 0 (as ++ bs) j = (overlay f p 0 as j || overlay f (p + atomsWidth as) 0 bs j) := by
  induction as generalizing p with
  | nil => rw [overlay, Bool.false_or]; rfl
  | cons a as ih =>
    rw [List.cons_append, overlay, overlay, ih, atomsWidth_cons, Bool.or_assoc, Nat.sub_zero, Nat.add_assoc]

/-- The fields with their places, from `p` on. -/
def places (p : ℕ) : List (Name × BsvType) → List (ℕ × Name × BsvType)
  | [] => []
  | a :: atoms => (p, a) :: places (p + a.2.bitWidth) atoms

/-- A bit of a message comes from a field. -/
lemma overlay_iff : overlay f p 0 atoms j = true ↔ ∃ q ∈ places p atoms,
    q.1 ≤ j ∧ 32 * (j / 32) < q.1 + q.2.2.bitWidth ∧ f q.2.1 q.2.2 (j - q.1) = true := by
  induction atoms generalizing p with
  | nil => simp [overlay, places]
  | cons a atoms ih =>
    rw [overlay, Nat.sub_zero, Bool.or_eq_true, ih, places]
    simp only [Bool.and_eq_true, decide_eq_true_eq, List.mem_cons, exists_eq_or_imp, Nat.add_zero]

/-- Fields that are cut off at their widths have no bits above the end of the message. -/
lemma overlay_cutBit_of_ge {fields : Fields} (h : p + atomsWidth atoms ≤ j) :
    overlay (cutBit fields) p 0 atoms j = false := by
  induction atoms generalizing p with
  | nil => rfl
  | cons a atoms ih =>
    rw [atomsWidth_cons] at h
    rw [overlay, ih (by omega), cutBit, decide_eq_false (show ¬ j - p + 0 < a.2.bitWidth by omega)]
    simp

end Overlay

lemma atomsWidth_reverse (atoms : List (Name × BsvType)) : atomsWidth atoms.reverse = atomsWidth atoms := by
  rw [atomsWidth, atomsWidth, List.map_reverse, List.sum_reverse]

lemma packAtoms_lt (fields : Fields) (atoms : List (Name × BsvType)) :
    packAtoms fields atoms < 2 ^ atomsBits atoms := by
  induction atoms with
  | nil => simp [packAtoms, atomsBits]
  | cons a atoms ih =>
    have hlt : (fields a.1).toNat % 2 ^ a.2.numBitsBSV < 2 ^ a.2.numBitsBSV :=
      Nat.mod_lt _ (Nat.two_pow_pos _)
    have hbits : atomsBits (a :: atoms) = a.2.numBitsBSV + atomsBits atoms := by simp [atomsBits]
    rw [packAtoms, hbits, pow_add]
    calc (fields a.1).toNat % 2 ^ a.2.numBitsBSV * 2 ^ atomsBits atoms + packAtoms fields atoms
        < (fields a.1).toNat % 2 ^ a.2.numBitsBSV * 2 ^ atomsBits atoms + 2 ^ atomsBits atoms := by omega
      _ = ((fields a.1).toNat % 2 ^ a.2.numBitsBSV + 1) * 2 ^ atomsBits atoms := by ring
      _ ≤ 2 ^ a.2.numBitsBSV * 2 ^ atomsBits atoms := Nat.mul_le_mul_right _ hlt

lemma atomsBits_eq {atoms : List (Name × BsvType)} (h : ∀ a ∈ atoms, a.2.numBitsBSV = a.2.bitWidth) :
    atomsBits atoms = atomsWidth atoms := by
  rw [atomsBits, atomsWidth, List.map_congr_left h]

/-- **The bits of a struct**: the fields one after the other, from the last one on. -/
theorem testBit_packAtoms (fields : Fields) (atoms : List (Name × BsvType))
    (h : ∀ a ∈ atoms, a.2.numBitsBSV = a.2.bitWidth) (j : ℕ) :
    (packAtoms fields atoms).testBit j = overlay (cutBit fields) 0 0 atoms.reverse j := by
  induction atoms with
  | nil => simp [packAtoms, overlay]
  | cons a atoms ih =>
    have ha := h a List.mem_cons_self
    have hrest : ∀ b ∈ atoms, b.2.numBitsBSV = b.2.bitWidth := fun b hb => h b (List.mem_cons_of_mem _ hb)
    have hlt := packAtoms_lt fields atoms
    rw [packAtoms, Nat.mul_comm, Nat.testBit_two_pow_mul_add _ hlt, List.reverse_cons, overlay_append,
      atomsBits_eq hrest, atomsWidth_reverse, overlay, overlay, Bool.or_false, Nat.zero_add]
    by_cases hj : j < atomsWidth atoms
    · rw [if_pos hj, ih hrest, decide_eq_false (show ¬ atomsWidth atoms ≤ j by omega), Bool.false_and,
        Bool.or_false]
    · rw [if_neg hj, overlay_cutBit_of_ge (by rw [atomsWidth_reverse]; omega), Bool.false_or,
        decide_eq_true (show atomsWidth atoms ≤ j by omega), Bool.true_and, Nat.testBit_mod_two_pow, ha,
        BitVec.testBit_toNat, cutBit, Nat.add_zero, Nat.sub_zero]
      by_cases hw : j - atomsWidth atoms < a.2.bitWidth
      · rw [decide_eq_true (show 32 * (j / 32) < atomsWidth atoms + a.2.bitWidth by omega), Bool.true_and]
      · rw [decide_eq_false hw, Bool.false_and, Bool.and_false]

/-! ## Requests -/

/-- The request that `mkFromBit` puts together from the words that a proxy writes. -/
def received (params : List Param) (args : Fields) : Option (BitVec (requestBits params)) := do
  let ws ← proxyWords params args
  let s ← ws.foldlM FromBit.enq (FromBit.reset 32 (requestBits params))
  s.fifo.first

/-- The fields of a method are integers in C, with the widths that they have in Bluespec. -/
structure Exact (params : List Param) : Prop where
  integers : Integers params
  agree : ∀ a ∈ collectParams params, a.2.numBitsBSV = a.2.bitWidth

variable {sig : Signature}

/-- The size of a method with parameters. -/
lemma Exact.requestBits_eq (h : Exact sig.params) (hne : sig.params ≠ []) :
    requestBits sig.params = atomsWidth (collectParams sig.params) := by
  have hempty : sig.params.isEmpty = false := by
    rw [Bool.eq_false_iff]
    exact fun he => hne (List.isEmpty_iff.mp he)
  rw [requestBits, hempty, (packParams_eq (fun _ => 0) sig.params).1, atomsBits_eq h.agree]
  rfl

/-- The words that a proxy writes: as many as the struct has, and the fields laid over each other. -/
lemma Exact.exists_proxyWords (h : Exact sig.params) (args : Fields) :
    ∃ ws, proxyWords sig.params args = some ws ∧ ws.length = nwords 32 (requestBits sig.params) ∧
      ∀ j, (ofWords ws).testBit j = overlay (fieldBit args) 0 0 (collectParams sig.params).reverse j := by
  by_cases hne : sig.params = []
  · rw [hne]
    refine ⟨[0], rfl, by simp [requestBits, nwords], fun j => ?_⟩
    have hzero : ofWords [(0 : BitVec 32)] = 0 := rfl
    rw [hzero, Nat.zero_testBit]
    rfl
  · have hsize := h.requestBits_eq hne
    have hlen := h.integers.length_argWords
    have hwords : argWords sig.params ≠ [] := by
      intro hnil
      have hpos := sig.sized
      rw [hnil, List.length_nil, ← hsize] at hlen
      omega
    refine ⟨_, proxyWords_eq h.integers hwords args, ?_, testBit_proxyWords h.integers args⟩
    rw [List.length_map, List.length_reverse, hlen, ← hsize]
    rfl

/-- **What is received**: the fields laid over each other. -/
theorem Exact.exists_received (h : Exact sig.params) (args : Fields) :
    ∃ r, received sig.params args = some r ∧ ∀ j, j < requestBits sig.params →
      r.getLsbD j = overlay (fieldBit args) 0 0 (collectParams sig.params).reverse j := by
  obtain ⟨ws, hws, hlen, hbits⟩ := h.exists_proxyWords args
  have hm : nwords 32 (requestBits sig.params) ≤ 2 ^ 32 := Nat.le_of_lt sig.counted
  obtain ⟨s, hs, -, hitems⟩ := (FromBit.collects_reset (by decide) sig.sized).enqs hm rfl
    (show ([] : List (BitVec 32)).length + ws.length = _ by rw [hlen, List.length_nil, Nat.zero_add])
  refine ⟨BitVec.ofNat _ (ofWords ws), ?_, fun j hj => ?_⟩
  · simp only [received, hws, bind, Option.bind_some, hs]
    exact Rules.Fifo.first_eq_some.mpr ⟨[], hitems⟩
  · rw [BitVec.getLsbD_ofNat, decide_eq_true hj, Bool.true_and, hbits]

/-- The bits of the struct with the given contents. -/
lemma Exact.getLsbD_pack (h : Exact sig.params) (fields : Fields) {j : ℕ} (hj : j < requestBits sig.params) :
    (pack sig.params fields).getLsbD j =
      overlay (cutBit fields) 0 0 (collectParams sig.params).reverse j := by
  rw [pack, BitVec.getLsbD_ofNat, decide_eq_true hj, Bool.true_and, (packParams_eq fields sig.params).2,
    testBit_packAtoms fields _ h.agree]

end Xbsv
