import Xbsv.Portal.Packing
import Xbsv.Portal.Widths

set_option relaxedAutoImplicit false
set_option autoImplicit false

/-!
# Arguments and their neighbours

A proxy takes the pieces of a word together without cutting them off. The sign of an `int` fills the rest of
the word in which its field ends, and so do the bits that an argument has above the width of its field.

## Main definitions

* `Xbsv.IntsAndBits`, `Xbsv.OnlyBits` — the methods with parameters of type `Int#(32)` and `Bit#(w)`.
* `Xbsv.SignsCovered` — where the sign of an argument reaches, there are ones already.

## Main results

* `Xbsv.received_eq_pack_iff` — a request arrives as it was sent when the signs are covered, and only then.
* `Xbsv.excess_ignored_iff` — the parameters whose excess bits never reach another one.
-/

namespace Xbsv

section Generators

variable [MathLog]

/-- The types `Bit#(w)` that are integers in C. -/
def IsBits (t : BsvType) : Prop := ∃ w, 1 ≤ w ∧ w ≤ 64 ∧ t = .bit w

/-- The parameters of a method are of type `Bit#(w)`. -/
def OnlyBits (params : List Param) : Prop := ∀ p ∈ params, IsBits p.type

/-- The parameters of a method are of type `Bit#(w)` or `Int#(32)`. -/
def IntsAndBits (params : List Param) : Prop := ∀ p ∈ params, IsBits p.type ∨ p.type = .int 32

omit [MathLog] in
lemma OnlyBits.intsAndBits {params : List Param} (h : OnlyBits params) : IntsAndBits params :=
  fun p hp => .inl (h p hp)

/-- The number of bits of `uint32_t` and `uint64_t`. -/
def cWidth (w : ℕ) : ℕ := if w ≤ 32 then 32 else 64

/-! ## What the code sees of an argument -/

/-- The bits of an argument of type `uint32_t` or `uint64_t`. -/
lemma fieldBit_bit (args : Fields) (name : String) {w : ℕ} (hw : w ≤ 64) (i : ℕ) :
    fieldBit args [name] (.bit w) i = (decide (i < cWidth w) && (args [name]).getLsbD i) := by
  by_cases h32 : w ≤ 32
  · have hread : args.read [name] (.bit w) = some ⟨.uint, ((args [name]).setWidth 32).setWidth 32⟩ := by
      simp [Fields.read, BsvType.cName, h32, CName.ty, fieldWidth, isBitField, C.Ty.width]
    rw [fieldBit, hread, cWidth, if_pos h32]
    simp only [C.Val.bit]
    by_cases hi : i < 32
    · rw [if_pos (show i < C.Ty.uint.width from hi), decide_eq_true hi, Bool.true_and]
      show (((args [name]).setWidth 32).setWidth 32).getLsbD i = _
      rw [BitVec.getLsbD_setWidth, BitVec.getLsbD_setWidth, decide_eq_true hi, Bool.true_and, Bool.true_and]
    · rw [if_neg (show ¬ i < C.Ty.uint.width from hi), decide_eq_false hi, Bool.false_and]
      rfl
  · have hread : args.read [name] (.bit w) = some ⟨.ulong, ((args [name]).setWidth 64).setWidth 64⟩ := by
      simp [Fields.read, BsvType.cName, h32, hw, CName.ty, fieldWidth, isBitField, C.Ty.width]
    rw [fieldBit, hread, cWidth, if_neg h32]
    simp only [C.Val.bit]
    by_cases hi : i < 64
    · rw [if_pos (show i < C.Ty.ulong.width from hi), decide_eq_true hi, Bool.true_and]
      show (((args [name]).setWidth 64).setWidth 64).getLsbD i = _
      rw [BitVec.getLsbD_setWidth, BitVec.getLsbD_setWidth, decide_eq_true hi, Bool.true_and, Bool.true_and]
    · rw [if_neg (show ¬ i < C.Ty.ulong.width from hi), decide_eq_false hi, Bool.false_and]
      rfl

/-- The bits of an argument of type `int`: above them stands the sign. -/
lemma fieldBit_int (args : Fields) (name : String) (i : ℕ) :
    fieldBit args [name] (.int 32) i =
      if i < 32 then (args [name]).getLsbD i else (args [name]).getLsbD 31 := by
  have hread : args.read [name] (.int 32) = some ⟨.int, ((args [name]).setWidth 32).setWidth 32⟩ := by
    simp [Fields.read, BsvType.cName, CName.ty, fieldWidth, isBitField, C.Ty.width]
  have hbit : ∀ k, k < 32 → (((args [name]).setWidth 32).setWidth 32).getLsbD k =
      (args [name]).getLsbD k := by
    intro k hk
    rw [BitVec.getLsbD_setWidth, BitVec.getLsbD_setWidth, decide_eq_true hk, Bool.true_and, Bool.true_and]
  rw [fieldBit, hread]
  simp only [C.Val.bit]
  by_cases hi : i < 32
  · rw [if_pos (show i < C.Ty.int.width from hi), if_pos hi]
    exact hbit i hi
  · rw [if_neg (show ¬ i < C.Ty.int.width from hi), if_neg hi]
    show BitVec.msb (((args [name]).setWidth 32).setWidth 32) = _
    rw [BitVec.msb_eq_getLsbD_last]
    exact hbit 31 (by decide)

/-! ## Methods without structs -/

omit [MathLog] in
/-- The fields of a method without structs are its parameters. -/
lemma IntsAndBits.mem {params : List Param} (h : IntsAndBits params) {a : Name × BsvType}
    (ha : a ∈ collectParams params) : ∃ p ∈ params, a = ([p.name], p.type) := by
  obtain ⟨p, hp, ha⟩ := List.mem_flatMap.mp ha
  refine ⟨p, hp, ?_⟩
  rcases h p hp with ⟨w, -, -, hw⟩ | hint
  · rw [hw, collectMembers, List.mem_singleton] at ha
    rw [ha, hw, List.nil_append]
  · rw [hint, collectMembers, List.mem_singleton] at ha
    rw [ha, hint, List.nil_append]

/-- Parameters of these types are integers in C, with the widths that they have in Bluespec. -/
lemma IntsAndBits.exact {params : List Param} (h : IntsAndBits params) : Exact params := by
  constructor
  · intro a ha
    obtain ⟨p, hp, rfl⟩ := h.mem ha
    rcases h p hp with ⟨w, h1, h64, hw⟩ | hint
    · rw [hw]
      refine ⟨?_, h1⟩
      by_cases h32 : w ≤ 32
      · exact ⟨.uint32, .uint, by simp [BsvType.cName, h32], rfl, h32⟩
      · exact ⟨.uint64, .ulong, by simp [BsvType.cName, h32, h64], rfl, h64⟩
    · rw [hint]
      exact ⟨⟨.int, .int, rfl, rfl, le_rfl⟩, by show 0 < 32; decide⟩
  · intro a ha
    obtain ⟨p, hp, rfl⟩ := h.mem ha
    rcases h p hp with ⟨w, -, -, hw⟩ | hint
    · simp only [hw, BsvType.numBitsBSV, BsvType.bitWidth]
    · simp only [hint, BsvType.numBitsBSV, BsvType.bitWidth]

/-- A field with its place is a field. -/
lemma mem_of_mem_places {p : ℕ} {atoms : List (Name × BsvType)} {q : ℕ × Name × BsvType}
    (hq : q ∈ places p atoms) : q.2 ∈ atoms := by
  induction atoms generalizing p with
  | nil => cases hq
  | cons a atoms ih =>
    rw [places, List.mem_cons] at hq
    rcases hq with rfl | hq
    · exact List.mem_cons_self
    · exact List.mem_cons_of_mem _ (ih hq)

/-- Fields that lie one after the other do not overlap. -/
lemma le_of_mem_places {p : ℕ} {atoms : List (Name × BsvType)} {q : ℕ × Name × BsvType}
    (hq : q ∈ places p atoms) : p ≤ q.1 ∧ q.1 + q.2.2.bitWidth ≤ p + atomsWidth atoms := by
  induction atoms generalizing p with
  | nil => cases hq
  | cons a atoms ih =>
    rw [places, List.mem_cons] at hq
    rw [atomsWidth_cons]
    rcases hq with rfl | hq
    · show p ≤ p ∧ p + a.2.bitWidth ≤ _
      omega
    · have := ih hq
      omega

/-- The places of the fields of a method, from the least significant end. -/
def fieldPlaces (params : List Param) : List (ℕ × Name × BsvType) := places 0 (collectParams params).reverse

lemma IntsAndBits.mem_places {params : List Param} (h : IntsAndBits params) {q : ℕ × Name × BsvType}
    (hq : q ∈ fieldPlaces params) : ∃ p ∈ params, q.2 = ([p.name], p.type) :=
  h.mem (List.mem_reverse.mp (mem_of_mem_places hq))

/-! ## Signs -/

/-- The arguments are in the ranges of their parameters. An `int` always is. -/
def InRange (params : List Param) (args : Fields) : Prop :=
  ∀ p ∈ params, ∀ w, p.type = .bit w → (args [p.name]).toNat < 2 ^ w

/-- Where the sign of a negative argument reaches beyond its field, there are ones already. -/
def SignsCovered (params : List Param) (args : Fields) : Prop :=
  ∀ q ∈ fieldPlaces params, q.2.2 = .int 32 → (args q.2.1).getLsbD 31 = true →
    ∀ j, q.1 + 32 ≤ j → j / 32 = (q.1 + 31) / 32 → j < requestBits params →
      (pack params args).getLsbD j = true

variable {sig : Signature} {args : Fields}

/-- What the code sees of an argument in its range: its bits, and the sign above them. -/
lemma fieldBit_of_inRange (h : IntsAndBits sig.params) (hargs : InRange sig.params args)
    {q : ℕ × Name × BsvType} (hq : q ∈ fieldPlaces sig.params) (i : ℕ) :
    fieldBit args q.2.1 q.2.2 i = true ↔ cutBit args q.2.1 q.2.2 i = true ∨
      (32 ≤ i ∧ q.2.2 = .int 32 ∧ (args q.2.1).getLsbD 31 = true) := by
  obtain ⟨p, hp, heq⟩ := h.mem_places hq
  rw [heq]
  rcases h p hp with ⟨w, -, h64, hw⟩ | hint
  · simp only [hw, fieldBit_bit args p.name h64, cutBit, BsvType.bitWidth, Bool.and_eq_true,
      decide_eq_true_eq]
    have hlt := hargs p hp w hw
    constructor
    · rintro ⟨-, hbit⟩
      refine .inl ⟨?_, hbit⟩
      by_contra hge
      rw [← BitVec.testBit_toNat, Nat.testBit_lt_two_pow
        (Nat.lt_of_lt_of_le hlt (Nat.pow_le_pow_right (by omega) (by omega)))] at hbit
      cases hbit
    · rintro (⟨hi, hbit⟩ | ⟨-, hne, -⟩)
      · refine ⟨?_, hbit⟩
        unfold cWidth
        split <;> omega
      · cases hne
  · simp only [hint, fieldBit_int, cutBit, BsvType.bitWidth, Bool.and_eq_true, decide_eq_true_eq, true_and]
    split
    · rename_i hi
      exact ⟨fun hbit => .inl ⟨hi, hbit⟩, fun hor => hor.elim (fun hb => hb.2) (fun hb => by omega)⟩
    · rename_i hi
      exact ⟨fun hbit => .inr ⟨by omega, hbit⟩, fun hor => hor.elim (fun hb => by omega) (fun hb => hb.2)⟩

/-- **A request arrives as it was sent** exactly when, where the sign of a negative argument reaches beyond its
field, there are ones already.

**Proof sketch.** A bit of what is received comes from a field or from the sign of an `int` in whose last word
it is (`overlay_iff`). -/
theorem received_eq_pack_iff (h : IntsAndBits sig.params) (hargs : InRange sig.params args) :
    received sig.params args = some (pack sig.params args) ↔ SignsCovered sig.params args := by
  obtain ⟨r, hr, hbits⟩ := h.exact.exists_received args
  rw [hr, Option.some.injEq]
  constructor
  · rintro rfl q hq hint hsign j hge hword hj
    rw [hbits j hj]
    refine overlay_iff.mpr ⟨q, hq, by omega, ?_, ?_⟩
    · rw [hint]
      show 32 * (j / 32) < q.1 + 32
      omega
    · exact (fieldBit_of_inRange h hargs hq _).mpr (.inr ⟨by omega, hint, hsign⟩)
  · intro hcov
    refine BitVec.eq_of_getLsbD_eq fun j hj => ?_
    rw [hbits j hj, h.exact.getLsbD_pack args hj, Bool.eq_iff_iff]
    constructor
    · intro hover
      obtain ⟨q, hq, hle, hlt, hbit⟩ := overlay_iff.mp hover
      rcases (fieldBit_of_inRange h hargs hq _).mp hbit with hcut | ⟨hge, hint, hsign⟩
      · exact overlay_iff.mpr ⟨q, hq, hle, hlt, hcut⟩
      · rw [hint] at hlt
        have hlt' : 32 * (j / 32) < q.1 + 32 := hlt
        rw [← h.exact.getLsbD_pack args hj]
        exact hcov q hq hint hsign j (by omega) (by omega) hj
    · intro hover
      obtain ⟨q, hq, hle, hlt, hcut⟩ := overlay_iff.mp hover
      exact overlay_iff.mpr ⟨q, hq, hle, hlt, (fieldBit_of_inRange h hargs hq _).mpr (.inl hcut)⟩

/-! ## Excess bits -/

omit [MathLog] in
/-- The same bits within the width of a field are seen of arguments that agree there. -/
lemma getLsbD_of_mod_eq {x y : BitVec 64} {w i : ℕ} (h : x.toNat % 2 ^ w = y.toNat % 2 ^ w) (hi : i < w) :
    x.getLsbD i = y.getLsbD i := by
  have hbit := congrArg (fun n => n.testBit i) h
  simpa only [Nat.testBit_mod_two_pow, decide_eq_true hi, Bool.true_and, BitVec.testBit_toNat] using hbit

/-- A place is determined by the name of the field. -/
lemma place_unique {p : ℕ} {atoms : List (Name × BsvType)} (hnodup : (atoms.map Prod.fst).Nodup)
    {q q' : ℕ × Name × BsvType} (hq : q ∈ places p atoms) (hq' : q' ∈ places p atoms)
    (hname : q'.2.1 = q.2.1) : q' = q := by
  induction atoms generalizing p with
  | nil => cases hq
  | cons a atoms ih =>
    rw [List.map_cons, List.nodup_cons] at hnodup
    rw [places, List.mem_cons] at hq hq'
    rcases hq with rfl | hq <;> rcases hq' with rfl | hq'
    · rfl
    · exact absurd (hname ▸ List.mem_map_of_mem (mem_of_mem_places hq')) hnodup.1
    · exact absurd (hname ▸ List.mem_map_of_mem (mem_of_mem_places hq)) hnodup.1
    · exact ih hnodup.2 hq hq'

/-- The excess bits of an argument stay out of the request: it has none, or its field ends with a word or
with the message. -/
def Contained (params : List Param) (q : ℕ × Name × BsvType) : Prop :=
  q.2.2.bitWidth = 32 ∨ q.2.2.bitWidth = 64 ∨ (q.1 + q.2.2.bitWidth) % 32 = 0 ∨
    q.1 + q.2.2.bitWidth = requestBits params

/-- A bit above the width of a field that ends within a word is seen in the request. -/
lemma excess_visible (h : OnlyBits sig.params) {q : ℕ × Name × BsvType} (hq : q ∈ fieldPlaces sig.params)
    (hcon : ¬ Contained sig.params q) :
    received sig.params (fun _ => 0) ≠
      received sig.params (Function.update (fun _ => 0) q.2.1 (BitVec.twoPow 64 q.2.2.bitWidth)) := by
  obtain ⟨p, hp, heq⟩ := h.intsAndBits.mem_places hq
  obtain ⟨w, h1, h64, hw⟩ := h p hp
  have hname : q.2.1 = [p.name] := congrArg Prod.fst heq
  have htype : q.2.2 = .bit w := (congrArg Prod.snd heq).trans hw
  have hwidth : q.2.2.bitWidth = w := by rw [htype]; rfl
  unfold Contained at hcon
  rw [hwidth] at hcon ⊢
  simp only [not_or] at hcon
  obtain ⟨h32, h64', hword, hend⟩ := hcon
  obtain ⟨r, hr, hbits⟩ := h.intsAndBits.exact.exists_received (fun _ => 0)
  obtain ⟨r', hr', hbits'⟩ := h.intsAndBits.exact.exists_received
    (Function.update (fun _ => 0) q.2.1 (BitVec.twoPow 64 w))
  have hne : sig.params ≠ [] := List.ne_nil_of_mem hp
  have hlt : q.1 + w < requestBits sig.params := by
    have hle := (le_of_mem_places hq).2
    rw [hwidth, atomsWidth_reverse, Nat.zero_add, ← h.intsAndBits.exact.requestBits_eq hne] at hle
    omega
  have htrue : r'.getLsbD (q.1 + w) = true := by
    rw [hbits' _ hlt]
    refine overlay_iff.mpr ⟨q, hq, by omega, by rw [hwidth]; omega, ?_⟩
    rw [Nat.add_sub_cancel_left, htype, hname, fieldBit_bit _ _ h64, Function.update_self,
      BitVec.getLsbD_twoPow]
    have hc : w < cWidth w := by
      unfold cWidth
      split <;> omega
    simp [hc, show w < 64 by omega]
  have hfalse : r.getLsbD (q.1 + w) = false := by
    rw [hbits _ hlt, Bool.eq_false_iff]
    intro hover
    obtain ⟨q', hq', -, -, hbit⟩ := overlay_iff.mp hover
    obtain ⟨p', hp', heq'⟩ := h.intsAndBits.mem_places hq'
    obtain ⟨w', -, h64'', hw'⟩ := h p' hp'
    rw [heq', hw', fieldBit_bit _ _ h64''] at hbit
    simp at hbit
  rw [hr, hr', Ne, Option.some.injEq]
  intro hdiff
  rw [hdiff, htrue] at hfalse
  cases hfalse

/-- The bits of an argument that get into the request are those of its field, if its excess bits stay out. -/
lemma fieldBit_of_contained (h : OnlyBits sig.params) {q : ℕ × Name × BsvType}
    (hq : q ∈ fieldPlaces sig.params) (hcont : Contained sig.params q) {args args' : Fields}
    (hmod : (args q.2.1).toNat % 2 ^ q.2.2.bitWidth = (args' q.2.1).toNat % 2 ^ q.2.2.bitWidth) {j : ℕ}
    (hj : j < requestBits sig.params) (hle : q.1 ≤ j) (hlt : 32 * (j / 32) < q.1 + q.2.2.bitWidth) :
    fieldBit args q.2.1 q.2.2 (j - q.1) = fieldBit args' q.2.1 q.2.2 (j - q.1) := by
  obtain ⟨p, hp, heq⟩ := h.intsAndBits.mem_places hq
  obtain ⟨w, -, h64, hw⟩ := h p hp
  have hname : q.2.1 = [p.name] := congrArg Prod.fst heq
  have htype : q.2.2 = .bit w := (congrArg Prod.snd heq).trans hw
  have hwidth : q.2.2.bitWidth = w := by rw [htype]; rfl
  unfold Contained at hcont
  rw [hwidth] at hmod hcont hlt
  rw [htype, hname, fieldBit_bit _ _ h64, fieldBit_bit _ _ h64]
  by_cases hi : j - q.1 < w
  · rw [hname] at hmod
    rw [getLsbD_of_mod_eq hmod hi]
  · have hc : ¬ j - q.1 < cWidth w := by
      unfold cWidth
      rcases hcont with h32 | h64' | hword | hend
      · rw [if_pos (by omega)]
        omega
      · rw [if_neg (by omega)]
        omega
      · omega
      · omega
    rw [decide_eq_false hc, Bool.false_and, Bool.false_and]

/-- **Excess bits.** Arguments that differ only above the width of one parameter always make the same request
exactly when the argument has no such bits or its field ends with a word or with the message. -/
theorem excess_ignored_iff (h : OnlyBits sig.params) {q : ℕ × Name × BsvType}
    (hq : q ∈ fieldPlaces sig.params) :
    (∀ args args' : Fields, (∀ name, name ≠ q.2.1 → args name = args' name) →
      (args q.2.1).toNat % 2 ^ q.2.2.bitWidth = (args' q.2.1).toNat % 2 ^ q.2.2.bitWidth →
      received sig.params args = received sig.params args') ↔ Contained sig.params q := by
  constructor
  · intro hsame
    by_contra hcon
    obtain ⟨p, hp, heq⟩ := h.intsAndBits.mem_places hq
    obtain ⟨w, h1, h64, hw⟩ := h p hp
    have hwidth : q.2.2.bitWidth = w := by
      rw [(congrArg Prod.snd heq).trans hw]
      rfl
    have hlt : q.2.2.bitWidth < 64 := Nat.lt_of_le_of_ne (by omega) fun he => hcon (.inr (.inl he))
    -- one bit above the width of the field
    refine excess_visible h hq hcon (hsame _ _ (fun name hne => by rw [Function.update_of_ne hne]) ?_)
    rw [Function.update_self, BitVec.toNat_twoPow_of_lt hlt, Nat.mod_self]
    rfl
  · intro hcont args args' hother hmod
    obtain ⟨r, hr, hbits⟩ := h.intsAndBits.exact.exists_received args
    obtain ⟨r', hr', hbits'⟩ := h.intsAndBits.exact.exists_received args'
    rw [hr, hr', Option.some.injEq]
    refine BitVec.eq_of_getLsbD_eq fun j hj => ?_
    rw [hbits j hj, hbits' j hj, Bool.eq_iff_iff, overlay_iff, overlay_iff]
    -- field by field
    have hfield : ∀ q' ∈ fieldPlaces sig.params, q'.1 ≤ j → 32 * (j / 32) < q'.1 + q'.2.2.bitWidth →
        fieldBit args q'.2.1 q'.2.2 (j - q'.1) = fieldBit args' q'.2.1 q'.2.2 (j - q'.1) := by
      intro q' hq' hle hlt
      by_cases hsame : q'.2.1 = q.2.1
      · have hqq : q' = q := by
          refine place_unique ?_ hq hq' hsame
          rw [List.map_reverse]
          exact List.nodup_reverse.mpr (nodup_collectParams sig.names sig.members)
        subst hqq
        exact fieldBit_of_contained h hq hcont hmod hj hle hlt
      · obtain ⟨p', hp', heq'⟩ := h.intsAndBits.mem_places hq'
        obtain ⟨w', -, h64', hw'⟩ := h p' hp'
        have hargs : args q'.2.1 = args' q'.2.1 := hother _ hsame
        rw [heq'] at hargs ⊢
        simp only at hargs ⊢
        rw [hw', fieldBit_bit _ _ h64', fieldBit_bit _ _ h64', hargs]
    constructor
    · rintro ⟨q', hq', hle, hlt, hbit⟩
      exact ⟨q', hq', hle, hlt, hfield q' hq' hle hlt ▸ hbit⟩
    · rintro ⟨q', hq', hle, hlt, hbit⟩
      exact ⟨q', hq', hle, hlt, (hfield q' hq' hle hlt).symm ▸ hbit⟩

end Generators

/-! ## Some calls -/

/-- A method with an `int` between two other parameters. -/
def signedMethod : Signature where
  params := [⟨"a", .bit 8⟩, ⟨"x", .int 32⟩, ⟨"b", .bit 4⟩]
  names := by decide
  members := by simp [BsvType.Distinct]
  sized := by decide +kernel
  counted := by decide +kernel

/-- `a = 0`, `x = -1` and `b = 0`. -/
def minusOne : Fields := fun name => if name = ["x"] then 0xFFFFFFFF else 0

/-- With `x = -1` the parameter `a` arrives as `0xFF`. -/
theorem not_received_minusOne :
    IntsAndBits signedMethod.params ∧ InRange signedMethod.params minusOne ∧
      received signedMethod.params minusOne = some 0xFFFFFFFFFF0 ∧
      received signedMethod.params minusOne ≠ some (pack signedMethod.params minusOne) := by
  refine ⟨?_, ?_, by decide +kernel, by decide +kernel⟩
  · simp [signedMethod, IntsAndBits, IsBits]
  · simp [signedMethod, InRange, minusOne]

/-- A method with an `int` that begins with a word. -/
def alignedMethod : Signature where
  params := [⟨"a", .bit 8⟩, ⟨"x", .int 32⟩, ⟨"b", .bit 32⟩]
  names := by decide
  members := by simp [BsvType.Distinct]
  sized := by decide +kernel
  counted := by decide +kernel

/-- Here `x = -1` does not reach the parameter `a`. -/
theorem received_eq_pack_minusOne :
    received alignedMethod.params minusOne = some (pack alignedMethod.params minusOne) := by
  refine (received_eq_pack_iff (by simp [alignedMethod, IntsAndBits, IsBits])
    (by simp [alignedMethod, InRange, minusOne])).mpr ?_
  intro q hq hint _ j hge hword _
  have hmem : q = (0, ["b"], .bit 32) ∨ q = (32, ["x"], .int 32) ∨ q = (64, ["a"], .bit 8) := by
    simpa [fieldPlaces, alignedMethod, collectParams, collectMembers, places, BsvType.bitWidth] using hq
  rcases hmem with rfl | rfl | rfl
  · cases hint
  · simp only at hge hword
    omega
  · cases hint

/-- A method with two parameters. -/
def narrowMethod : Signature where
  params := [⟨"a", .bit 8⟩, ⟨"b", .bit 4⟩]
  names := by decide
  members := by simp [BsvType.Distinct]
  sized := by decide +kernel
  counted := by decide +kernel

/-- With `b = 0x10` instead of `b = 0`, the parameter `a` arrives as 1 instead of 0. -/
theorem not_excess_ignored_narrow :
    OnlyBits narrowMethod.params ∧ (0x10 : ℕ) % 2 ^ 4 = 0 % 2 ^ 4 ∧
      received narrowMethod.params (fun _ => 0) = some 0x000 ∧
      received narrowMethod.params (Function.update (fun _ => 0) ["b"] 0x10) = some 0x010 ∧
      received narrowMethod.params (fun _ => 0) ≠
        received narrowMethod.params (Function.update (fun _ => 0) ["b"] 0x10) := by
  refine ⟨?_, by decide, by decide +kernel, by decide +kernel, by decide +kernel⟩
  simp [narrowMethod, OnlyBits, IsBits]

/-- The excess bits of the first parameter are ignored. -/
theorem excess_ignored_first :
    received narrowMethod.params (fun _ => 0) =
      received narrowMethod.params (Function.update (fun _ => 0) ["a"] 0x100) := by
  have hq : ((4, ["a"], .bit 8) : ℕ × Name × BsvType) ∈ fieldPlaces narrowMethod.params := by
    simp [fieldPlaces, narrowMethod, collectParams, collectMembers, places, BsvType.bitWidth]
  refine (excess_ignored_iff (by simp [narrowMethod, OnlyBits, IsBits]) hq).mpr
    (.inr (.inr (.inr (by decide +kernel)))) _ _ ?_ ?_
  · intro name hne
    rw [Function.update_of_ne hne]
  · rw [Function.update_self]
    rfl

end Xbsv
