import Xbsv.Portal.Neighbours
import Xbsv.Portal.Wrapper

set_option relaxedAutoImplicit false
set_option autoImplicit false

/-!
# Marshalling agrees with Bluespec

For methods whose fields are of type `Bit#(w)` and `UInt#(32)`, in structs of any shape, the words that a
proxy writes are put together to the struct of the arguments, and what a wrapper reads from the words of a
struct are its fields. The struct must not have more than 2 ^ 32 bits: beyond that `mkToBit` gives out wrong
words.

## Main definitions

* `Xbsv.Plain` — the methods.
* `Xbsv.Marshals` — both directions.

## Main results

* `Xbsv.marshals_of_plain` — marshalling agrees with Bluespec.
-/

namespace Xbsv

open Bits

section Generators

variable [MathLog]

/-- The fields of a method are of type `Bit#(w)` or `UInt#(32)`. -/
def Plain (params : List Param) : Prop := ∀ a ∈ collectParams params, IsBits a.2 ∨ a.2 = .uint 32

/-- The contents of the fields are in their ranges. -/
def Bounded (params : List Param) (vals : Fields) : Prop :=
  ∀ a ∈ collectParams params, (vals a.1).toNat < 2 ^ a.2.bitWidth

/-- Marshalling of the contents `vals` of a method agrees with Bluespec. -/
structure Marshals (sig : Signature) (vals : Fields) : Prop where
  /-- The words that the proxy writes are put together to the struct. -/
  sent : ∀ s : FromBit 32 (requestBits sig.params), s.Collects [] → s.fifo.items = [] →
    ∃ ws s', proxyWords sig.params vals = some ws ∧ ws.foldlM FromBit.enq s = some s' ∧
      s'.fifo.items = [pack sig.params vals] ∧ s'.Collects []
  /-- The words of the struct are read as its fields, whatever was in them before. -/
  read : ∀ (s : ToBit 32 (requestBits sig.params)) (fields : Fields), s.Sends 0 → s.fifo.items = [] →
    ∃ s₁ ws s' fields', s.enq (pack sig.params vals) = some s₁ ∧
      s₁.fetch (nwords 32 (requestBits sig.params)) = some (ws, s') ∧ s'.fifo.items = [] ∧
      demarshall sig.params fields ws = some fields' ∧
      ∀ a ∈ collectParams sig.params, fields' a.1 = vals a.1

variable {sig : Signature} {vals : Fields}

/-- The integer types of plain fields are unsigned. -/
lemma cName_of_plain {t : BsvType} (h : IsBits t ∨ t = .uint 32) :
    ∃ c ty, t.cName = some c ∧ c.ty = some ty ∧ ty ≠ .int ∧ t.bitWidth ≤ ty.width ∧ 0 < t.bitWidth ∧
      t.numBitsBSV = t.bitWidth := by
  rcases h with ⟨w, h1, h64, rfl⟩ | rfl
  · by_cases h32 : w ≤ 32
    · exact ⟨.uint32, .uint, by simp [BsvType.cName, h32], rfl, by simp, h32, h1,
        by simp only [BsvType.numBitsBSV, BsvType.bitWidth]⟩
    · exact ⟨.uint64, .ulong, by simp [BsvType.cName, h32, h64], rfl, by simp, h64, h1,
        by simp only [BsvType.numBitsBSV, BsvType.bitWidth]⟩
  · exact ⟨.unsignedInt, .uint, rfl, rfl, by simp, le_rfl, by show 0 < 32; decide,
      by simp only [BsvType.numBitsBSV, BsvType.bitWidth]⟩

lemma Plain.exact {params : List Param} (h : Plain params) : Exact params := by
  constructor
  · intro a ha
    obtain ⟨c, ty, hc, hty, -, hle, hpos, -⟩ := cName_of_plain (h a ha)
    exact ⟨⟨c, ty, hc, hty, hle⟩, hpos⟩
  · intro a ha
    obtain ⟨-, -, -, -, -, -, -, heq⟩ := cName_of_plain (h a ha)
    exact heq

omit [MathLog] in
/-- There are no bits above the width of contents in range. -/
lemma getLsbD_of_bounded {x : BitVec 64} {w i : ℕ} (hx : x.toNat < 2 ^ w) (hi : w ≤ i) :
    x.getLsbD i = false := by
  rw [← BitVec.testBit_toNat, Nat.testBit_lt_two_pow]
  exact Nat.lt_of_lt_of_le hx (Nat.pow_le_pow_right (by decide) hi)

/-- The code sees contents in range as they are. -/
lemma fieldBit_of_bounded {name : Name} {t : BsvType} (ht : IsBits t ∨ t = .uint 32)
    (hv : (vals name).toNat < 2 ^ t.bitWidth) (i : ℕ) : fieldBit vals name t i = cutBit vals name t i := by
  obtain ⟨c, ty, hc, hty, hint, hle, -, -⟩ := cName_of_plain ht
  have hfw := bitWidth_le_fieldWidth hle name
  rw [fieldBit, Fields.read_eq hc hty vals name, cutBit]
  simp only [C.Val.bit]
  by_cases hlt : i < (if fieldWidth name t ty < 32 then C.Ty.int else ty).width
  · rw [if_pos hlt, BitVec.getLsbD_setWidth, BitVec.getLsbD_setWidth, decide_eq_true hlt, Bool.true_and]
    by_cases hi : i < t.bitWidth
    · rw [decide_eq_true hi, decide_eq_true (show i < fieldWidth name t ty by omega)]
    · rw [getLsbD_of_bounded hv (by omega), Bool.and_false, Bool.and_false]
  · rw [if_neg hlt]
    have hi : ¬ i < t.bitWidth := by
      split at hlt
      · rename_i h32
        have : ¬ i < 32 := hlt
        omega
      · omega
    rw [decide_eq_false hi, Bool.false_and]
    split
    · -- a bit field that is promoted is not negative
      rename_i h32
      have hsign : ¬ (if fieldWidth name t ty < 32 then C.Ty.int else ty).width - 1 <
          fieldWidth name t ty := by
        rw [if_pos h32]
        show ¬ 32 - 1 < fieldWidth name t ty
        omega
      rw [BitVec.msb_eq_getLsbD_last, BitVec.getLsbD_setWidth, BitVec.getLsbD_setWidth,
        decide_eq_false hsign, Bool.false_and, Bool.and_false, Bool.and_false]
    · rw [decide_eq_false hint, Bool.false_and]

/-- A bit of a message within a field. -/
lemma overlay_cutBit_at {p i : ℕ} {atoms : List (Name × BsvType)} {q : ℕ × Name × BsvType}
    (hq : q ∈ places p atoms) (hi : i < q.2.2.bitWidth) :
    overlay (cutBit vals) p 0 atoms (q.1 + i) = (vals q.2.1).getLsbD i := by
  induction atoms generalizing p with
  | nil => cases hq
  | cons a atoms ih =>
    rw [places, List.mem_cons] at hq
    rw [overlay, Nat.sub_zero]
    rcases hq with rfl | hq
    · simp only at hi ⊢
      rw [overlay_of_lt (by omega), decide_eq_true (show p ≤ p + i by omega),
        decide_eq_true (show 32 * ((p + i) / 32) < p + a.2.bitWidth by omega), Nat.add_sub_cancel_left,
        Nat.add_zero, cutBit, decide_eq_true hi]
      simp
    · have hle := (le_of_mem_places hq).1
      rw [ih hq, cutBit, decide_eq_false (show ¬ q.1 + i - p + 0 < a.2.bitWidth by omega)]
      simp

/-- Every field has a place. -/
lemma exists_place {p : ℕ} {atoms : List (Name × BsvType)} {a : Name × BsvType} (ha : a ∈ atoms) :
    ∃ q ∈ places p atoms, q.2 = a := by
  induction atoms generalizing p with
  | nil => cases ha
  | cons b atoms ih =>
    rw [List.mem_cons] at ha
    rcases ha with rfl | ha
    · exact ⟨(p, a), List.mem_cons_self, rfl⟩
    · obtain ⟨q, hq, heq⟩ := ih (p := p + b.2.bitWidth) ha
      exact ⟨q, List.mem_cons_of_mem _ hq, heq⟩

/-- What a wrapper reads from the words of a struct. -/
lemma Plain.exists_demarshall (h : Plain sig.params) (hv : Bounded sig.params vals) (fields : Fields)
    {ws : List (BitVec 32)} (hlen : ws.length = nwords 32 (requestBits sig.params))
    (hws : ∀ j, (ofWords ws).testBit j = overlay (cutBit vals) 0 0 (collectParams sig.params).reverse j) :
    ∃ fields', demarshall sig.params fields ws = some fields' ∧
      ∀ a ∈ collectParams sig.params, fields' a.1 = vals a.1 := by
  obtain ⟨fields', hread, hbits⟩ := h.exact.exists_demarshall fields hlen
  refine ⟨fields', hread, fun a ha => ?_⟩
  obtain ⟨q, hq, rfl⟩ := exists_place (p := 0) (List.mem_reverse.mpr ha)
  refine BitVec.eq_of_getLsbD_eq fun i _ => ?_
  rw [hbits q hq i, hws]
  by_cases hi : i < q.2.2.bitWidth
  · rw [decide_eq_true hi, Bool.true_and, overlay_cutBit_at hq hi]
  · rw [decide_eq_false hi, Bool.false_and, getLsbD_of_bounded (hv q.2 ha) (by omega)]

/-- The words that a proxy writes for contents in range. -/
lemma Plain.exists_proxyWords (h : Plain sig.params) (hv : Bounded sig.params vals) :
    ∃ ws, proxyWords sig.params vals = some ws ∧ ws.length = nwords 32 (requestBits sig.params) ∧
      ∀ j, (ofWords ws).testBit j = overlay (cutBit vals) 0 0 (collectParams sig.params).reverse j := by
  obtain ⟨ws, hws, hlen, hbits⟩ := h.exact.exists_proxyWords vals
  refine ⟨ws, hws, hlen, fun j => (hbits j).trans (overlay_congr fun a ha i => ?_)⟩
  have hmem := List.mem_reverse.mp ha
  exact fieldBit_of_bounded (h a hmem) (hv a hmem) i

end Generators

/-- A method with fields of 5, 32, 40 and 7 bits, three of them in structs. -/
def nestedMethod : Signature where
  params := [⟨"a", .bit 5⟩, ⟨"s", .struct "S" (.cons "x" (.uint 32) (.cons "t"
    (.struct "T" (.cons "y" (.bit 40) (.cons "z" (.bit 7) .nil))) .nil))⟩]
  names := by decide
  members := by simp [BsvType.Distinct, StructMembers.Distinct, StructMembers.names]
  sized := by decide +kernel
  counted := by decide +kernel

/-- Contents for it. -/
def nestedVals : Fields := fun name =>
  if name = ["a"] then 0x15 else if name = ["s", "x"] then 0xDEADBEEF
  else if name = ["s", "t", "y"] then 0xFEDCBA9876 else 0x55

section Large

variable {asz : ℕ}

/-- Words before the last one are fetched; the value stays. -/
lemma ToBit.Sends.fetch_lt {s : ToBit 32 asz} {j k : ℕ} (h : s.Sends j) (hm : nwords 32 asz ≤ 2 ^ 32)
    {x : BitVec (aszn 32 asz)} (hx : s.fifo.items = [x]) (hk : j + k < nwords 32 asz) :
    ∃ ws s', ToBit.fetch k s = some (ws, s') ∧ ws.length = k ∧ s'.fifo.items = [x] ∧ s'.Sends (j + k) := by
  induction k generalizing s j with
  | zero => exact ⟨[], s, rfl, rfl, hx, h⟩
  | succ k ih =>
    obtain ⟨s₁, hdeq⟩ := ToBit.exists_deq hx
    obtain ⟨-, -, hsent⟩ := h.deq hm hdeq
    obtain ⟨hlast, -⟩ | ⟨-, hfifo, hsends⟩ := hsent
    · omega
    · obtain ⟨ws, s', hfetch, hlen, hitems, hsends'⟩ := ih hsends (by rw [hfifo, hx]) (by omega)
      have hfirst : ∃ w, s.first = some w := by
        have hf : s.fifo.first = some x := Rules.Fifo.first_eq_some.mpr ⟨[], hx⟩
        simp only [ToBit.first, hf, bind, pure, Option.bind_some]
        exact ⟨_, rfl⟩
      obtain ⟨w, hw⟩ := hfirst
      refine ⟨w :: ws, s', by simp [ToBit.fetch, hw, hdeq, hfetch], by rw [List.length_cons, hlen], hitems, ?_⟩
      rwa [show j + (k + 1) = j + 1 + k by omega]

/-- One more word is fetched. -/
lemma ToBit.fetch_succ {s s₁ s₂ : ToBit 32 asz} {k : ℕ} {ws : List (BitVec 32)} {w : BitVec 32}
    (h : ToBit.fetch k s = some (ws, s₁)) (hw : s₁.first = some w) (hdeq : s₁.deq = some s₂) :
    ToBit.fetch (k + 1) s = some (ws ++ [w], s₂) := by
  induction k generalizing s ws with
  | zero =>
    simp only [ToBit.fetch, Option.some.injEq, Prod.mk.injEq] at h
    obtain ⟨rfl, rfl⟩ := h
    simp [ToBit.fetch, hw, hdeq]
  | succ k ih =>
    rw [ToBit.fetch] at h
    simp only [bind, pure, Option.bind_eq_some_iff, Prod.exists, Option.some.injEq, Prod.mk.injEq] at h
    obtain ⟨x, hx, s₀, hs₀, xs, s₁', hrest, rfl, rfl⟩ := h
    rw [ToBit.fetch, hx, Option.bind_eq_bind, Option.bind_some, hs₀, Option.bind_eq_bind, Option.bind_some,
      ih hrest]
    rfl

end Large

section Doubled

variable [MathLog]

/-- A struct with `2 ^ k` fields of 32 bits: two members of half the size. -/
def doubled : ℕ → BsvType
  | 0 => .bit 32
  | k + 1 => .struct ("S" ++ toString k) (.cons "a" (doubled k) (.cons "b" (doubled k) .nil))

lemma numBitsBSV_doubled (k : ℕ) : (doubled k).numBitsBSV = 32 * 2 ^ k := by
  induction k with
  | zero => rfl
  | succ k ih =>
    rw [doubled, BsvType.numBitsBSV, StructMembers.numBitsBSV, StructMembers.numBitsBSV,
      StructMembers.numBitsBSV, ih, pow_succ]
    omega

omit [MathLog] in
lemma distinct_doubled (k : ℕ) : (doubled k).Distinct := by
  induction k with
  | zero => trivial
  | succ k ih =>
    simp only [doubled, BsvType.Distinct, StructMembers.Distinct, StructMembers.names]
    exact ⟨by decide, ih, ih, trivial⟩

omit [MathLog] in
/-- All fields have 32 bits. -/
lemma mem_doubled {k : ℕ} {scope : Name} {name : String} {a : Name × BsvType}
    (ha : a ∈ collectMembers scope name (doubled k)) : a.2 = .bit 32 := by
  induction k generalizing scope name with
  | zero =>
    rw [doubled, collectMembers, List.mem_singleton] at ha
    rw [ha]
  | succ k ih =>
    rw [doubled, collectMembers, collectElements, collectElements, collectElements, List.append_nil,
      List.mem_append] at ha
    rcases ha with ha | ha
    · exact ih ha
    · exact ih ha

omit [MathLog] in
/-- There is a last field. -/
lemma exists_last_doubled (k : ℕ) (scope : Name) (name : String) :
    ∃ init a, collectMembers scope name (doubled k) = init ++ [a] := by
  induction k generalizing scope name with
  | zero => exact ⟨[], _, rfl⟩
  | succ k ih =>
    obtain ⟨init, a, heq⟩ := ih (scope ++ [name]) "b"
    refine ⟨collectMembers (scope ++ [name]) "a" (doubled k) ++ init, a, ?_⟩
    rw [doubled, collectMembers, collectElements, collectElements, collectElements, List.append_nil, heq,
      List.append_assoc]

/-- The parameters `Bit#(32) x` and a struct of `2 ^ k` words. -/
def doubledParams (k : ℕ) : List Param := [⟨"x", .bit 32⟩, ⟨"y", doubled k⟩]

lemma requestBits_doubledParams (k : ℕ) : requestBits (doubledParams k) = 32 * (2 ^ k + 1) := by
  have hbits : paramsBits (doubledParams k) = 32 + (doubled k).numBitsBSV := by
    simp [paramsBits, doubledParams, BsvType.numBitsBSV]
  rw [requestBits, show (doubledParams k).isEmpty = false from rfl, if_neg (by decide), hbits,
    numBitsBSV_doubled]
  ring

lemma nwords_doubledParams (k : ℕ) : nwords 32 (requestBits (doubledParams k)) = 2 ^ k + 1 := by
  rw [requestBits_doubledParams, nwords]
  omega

/-- The method with these parameters, as long as its words can be counted. -/
def doubledMethod (k : ℕ) (hk : k < 32) : Signature where
  params := doubledParams k
  names := by simp [doubledParams]
  members := by
    intro p hp
    simp only [doubledParams, List.mem_cons, List.not_mem_nil, or_false] at hp
    rcases hp with rfl | rfl
    · trivial
    · exact distinct_doubled k
  sized := by
    rw [requestBits_doubledParams]
    have hpow := Nat.two_pow_pos k
    omega
  counted := by
    rw [nwords_doubledParams]
    have hpow : 2 ^ k ≤ 2 ^ 31 := Nat.pow_le_pow_right (by decide) (by omega)
    omega

/-- `x = 1`, and 0 everywhere else. -/
def onlyX : Fields := fun name => if name = ["x"] then 1 else 0

omit [MathLog] in
lemma collect_doubledParams (k : ℕ) :
    collectParams (doubledParams k) = (["x"], .bit 32) :: collectMembers [] "y" (doubled k) := by
  simp [collectParams, doubledParams, collectMembers]

omit [MathLog] in
/-- The fields of the struct are 0. -/
lemma onlyX_of_mem {k : ℕ} {a : Name × BsvType} (ha : a ∈ collectMembers [] "y" (doubled k)) :
    onlyX a.1 = 0 := by
  obtain ⟨rest, hrest⟩ := below_collectMembers ha
  rw [onlyX, if_neg]
  rw [← hrest]
  simp

lemma packAtoms_eq_zero {atoms : List (Name × BsvType)} {vals : Fields} (h : ∀ a ∈ atoms, vals a.1 = 0) :
    packAtoms vals atoms = 0 := by
  induction atoms with
  | nil => rfl
  | cons a atoms ih =>
    rw [packAtoms, h a List.mem_cons_self, ih fun b hb => h b (List.mem_cons_of_mem _ hb)]
    simp

/-- The packed value has its only 1 in the first word. -/
lemma packParams_doubledParams (k : ℕ) : packParams onlyX (doubledParams k) = 2 ^ (32 * 2 ^ k) := by
  have hy := packAtoms_eq_zero fun a ha => onlyX_of_mem (k := k) ha
  have hbits : atomsBits (collectMembers [] "y" (doubled k)) = 32 * 2 ^ k := by
    rw [← (pack_collectMembers onlyX [] "y" (doubled k)).1, numBitsBSV_doubled]
  rw [(packParams_eq onlyX (doubledParams k)).2, collect_doubledParams, packAtoms, hy, hbits, Nat.add_zero]
  have hx : (onlyX (["x"] : Name)).toNat % 2 ^ (BsvType.bit 32).numBitsBSV = 1 := by
    simp [onlyX, BsvType.numBitsBSV]
  rw [hx, Nat.one_mul]

omit [MathLog] in
lemma plain_doubledParams (k : ℕ) : Plain (doubledParams k) := by
  intro a ha
  rw [collect_doubledParams, List.mem_cons] at ha
  refine .inl ⟨32, by decide, by decide, ?_⟩
  rcases ha with rfl | ha
  · rfl
  · exact mem_doubled ha

lemma bounded_doubledParams (k : ℕ) : Bounded (doubledParams k) onlyX := by
  intro a ha
  rw [collect_doubledParams, List.mem_cons] at ha
  rcases ha with rfl | ha
  · simp [onlyX, BsvType.bitWidth]
  · rw [onlyX_of_mem ha]
    exact Nat.two_pow_pos _

/-- With `2 ^ 27 + 1` words the last field is read as 1. -/
lemma not_marshals_doubled {k : ℕ} (hk : k = 27) (hlt : k < 32) : ¬ Marshals (doubledMethod k hlt) onlyX := by
  intro hmar
  have hbits : requestBits (doubledMethod k hlt).params = 32 * (2 ^ k + 1) := requestBits_doubledParams k
  have hwords : nwords 32 (requestBits (doubledMethod k hlt).params) = 2 ^ k + 1 := nwords_doubledParams k
  have hm : nwords 32 (requestBits (doubledMethod k hlt).params) ≤ 2 ^ 32 :=
    Nat.le_of_lt (doubledMethod k hlt).counted
  have hreset := ToBit.sends_reset (n := 32) (by decide) (doubledMethod k hlt).sized
  obtain ⟨s₁, ws, s', fields', henq, hfetch, -, hread, hfields⟩ := hmar.read _ (fun _ => 0) hreset rfl
  obtain ⟨-, hitems, hsends⟩ := hreset.enq henq
  -- all words but the last
  obtain ⟨ws₀, s₂, hfetch₀, hlen₀, hitems₂, hsends₂⟩ :=
    hsends.fetch_lt (k := 2 ^ k) hm hitems (by rw [hwords]; omega)
  rw [Nat.zero_add] at hsends₂
  have hfirst := hsends₂.first_of_zero (by rw [hk]; decide) hitems₂
  have hone : ((pack (doubledMethod k hlt).params onlyX).setWidth
      (aszn 32 (requestBits (doubledMethod k hlt).params))).toNat /
        2 ^ (aszn 32 (requestBits (doubledMethod k hlt).params) - 32) = 1 := by
    have hpow : 2 ^ (32 * 2 ^ k) < 2 ^ requestBits (doubledMethod k hlt).params := by
      rw [hbits]
      exact Nat.pow_lt_pow_right (by decide) (by omega)
    have hle : requestBits (doubledMethod k hlt).params ≤
        aszn 32 (requestBits (doubledMethod k hlt).params) := le_aszn (by decide)
    have hend : aszn 32 (requestBits (doubledMethod k hlt).params) - 32 = 32 * 2 ^ k := by
      show 32 * nwords 32 _ - 32 = _
      rw [hwords]
      omega
    rw [BitVec.toNat_setWidth, pack, BitVec.toNat_ofNat,
      show packParams onlyX (doubledMethod k hlt).params = 2 ^ (32 * 2 ^ k) from packParams_doubledParams k,
      Nat.mod_eq_of_lt hpow,
      Nat.mod_eq_of_lt (Nat.lt_of_lt_of_le hpow (Nat.pow_le_pow_right (by decide) hle)), hend,
      Nat.div_self (Nat.two_pow_pos _)]
  rw [hone] at hfirst
  obtain ⟨s₃, hdeq⟩ := ToBit.exists_deq hitems₂
  have hall := ToBit.fetch_succ hfetch₀ hfirst hdeq
  rw [← hwords, hfetch, Option.some.injEq, Prod.mk.injEq] at hall
  -- the last field
  obtain ⟨init, a, hlast⟩ := exists_last_doubled k [] "y"
  have ha : a ∈ collectMembers [] "y" (doubled k) := by
    rw [hlast]
    exact List.mem_append_right _ List.mem_cons_self
  have hplace : (0, a) ∈ places 0 (collectParams (doubledMethod k hlt).params).reverse := by
    show (0, a) ∈ places 0 (collectParams (doubledParams k)).reverse
    rw [collect_doubledParams, hlast, List.reverse_cons, List.reverse_append, List.reverse_singleton,
      List.singleton_append, List.cons_append, places]
    exact List.mem_cons_self
  have hplain : Plain (doubledMethod k hlt).params := plain_doubledParams k
  have hlen : ws.length = nwords 32 (requestBits (doubledMethod k hlt).params) := by
    rw [hwords, hall.1, List.length_append, hlen₀, List.length_singleton]
  obtain ⟨fields'', hread', hbit⟩ := hplain.exact.exists_demarshall (fun _ => 0) hlen
  rw [hread, Option.some.injEq] at hread'
  have hzero := hbit (0, a) hplace 0
  have hmem : a ∈ collectParams (doubledMethod k hlt).params := by
    show a ∈ collectParams (doubledParams k)
    rw [collect_doubledParams]
    exact List.mem_cons_of_mem _ ha
  rw [← hread'] at hzero
  simp only at hzero
  rw [hfields a hmem, onlyX_of_mem ha, hall.1, ofWords_concat, mem_doubled ha] at hzero
  simp [BsvType.bitWidth, Nat.testBit_zero, Nat.add_mod, Nat.mul_mod] at hzero

end Doubled

end Xbsv
