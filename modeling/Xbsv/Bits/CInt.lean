import Mathlib.Data.BitVec
import Mathlib.Tactic.Common

set_option relaxedAutoImplicit false
set_option autoImplicit false

/-!
# Integers of C

Integers of 32 and 64 bits with the operators that put fields together and take them apart: shifts, bitwise
operators and casts. A shift on a signed operand is one on its two's complement bits, and a right shift
fills with the sign. A shift by the width of the type or more is undefined.

## Main definitions

* `C.Val` — an integer with its type.
* `C.Val.bit` — its bits, without end: above the width of the type stands the sign.

## Main results

* `C.Val.getLsbD_conv`, `C.Val.bit_or`, `C.Val.bit_and`, `C.Val.bit_shiftRight`, `C.Val.bit_shiftLeft` — the
  operators bit by bit.
-/

namespace C

/-- The types: `int`, `unsigned int`, and `unsigned long` of 64 bits. -/
inductive Ty where
  | int
  | uint
  | ulong
  deriving DecidableEq

/-- The number of bits. -/
def Ty.width : Ty → ℕ
  | .int => 32
  | .uint => 32
  | .ulong => 64

/-- The type to which the operands of two types are converted. -/
def Ty.common : Ty → Ty → Ty
  | .ulong, _ => .ulong
  | _, .ulong => .ulong
  | .uint, _ => .uint
  | _, .uint => .uint
  | .int, .int => .int

lemma Ty.le_width (t : Ty) : 32 ≤ t.width := by
  cases t <;> decide

/-- The common type has room for the right operand. -/
lemma Ty.le_common (a b : Ty) : b.width ≤ (a.common b).width := by
  cases a <;> cases b <;> decide

/-- An integer of a type. -/
structure Val where
  ty : Ty
  bits : BitVec ty.width

namespace Val

/-- A bit. Above the width of the type stands the sign. -/
def bit (v : Val) (i : ℕ) : Bool :=
  if i < v.ty.width then v.bits.getLsbD i else decide (v.ty = .int) && v.bits.msb

/-- The bits of a value converted to a type. -/
def conv (ty : Ty) (v : Val) : BitVec ty.width :=
  if v.ty = .int then v.bits.signExtend ty.width else v.bits.setWidth ty.width

/-- A conversion. -/
def cast (ty : Ty) (v : Val) : Val := ⟨ty, v.conv ty⟩

/-- `a | b`. -/
def or (a b : Val) : Val := ⟨a.ty.common b.ty, a.conv (a.ty.common b.ty) ||| b.conv (a.ty.common b.ty)⟩

/-- `a & b`. -/
def and (a b : Val) : Val := ⟨a.ty.common b.ty, a.conv (a.ty.common b.ty) &&& b.conv (a.ty.common b.ty)⟩

/-- `v << n`. -/
def shiftLeft (v : Val) (n : ℕ) : Option Val :=
  if n < v.ty.width then some ⟨v.ty, v.bits <<< n⟩ else none

/-- `v >> n`. -/
def shiftRight (v : Val) (n : ℕ) : Option Val :=
  if n < v.ty.width then some ⟨v.ty, if v.ty = .int then v.bits.sshiftRight n else v.bits >>> n⟩
  else none

variable {v v' : Val} {n i : ℕ}

/-- The bits within the type. -/
lemma bit_of_lt (hi : i < v.ty.width) : v.bit i = v.bits.getLsbD i := if_pos hi

/-- There are no bits above an unsigned type. -/
lemma bit_of_le (ht : v.ty ≠ .int) (hi : v.ty.width ≤ i) : v.bit i = false := by
  rw [bit, if_neg (by omega), decide_eq_false ht, Bool.false_and]

/-- A conversion keeps the bits that the type has room for. -/
lemma getLsbD_conv {ty : Ty} (hi : i < ty.width) : (v.conv ty).getLsbD i = v.bit i := by
  unfold conv bit
  split
  · rename_i ht
    rw [BitVec.getLsbD_signExtend, decide_eq_true hi, Bool.true_and, decide_eq_true ht, Bool.true_and]
  · rename_i ht
    rw [BitVec.getLsbD_setWidth, decide_eq_true hi, Bool.true_and, decide_eq_false ht, Bool.false_and]
    split
    · rfl
    · exact BitVec.getLsbD_of_ge _ _ (by omega)

lemma bit_cast {ty : Ty} (hi : i < ty.width) : (v.cast ty).bit i = v.bit i := by
  rw [bit_of_lt (show i < (v.cast ty).ty.width from hi)]
  exact getLsbD_conv hi

lemma bit_or {a b : Val} (hi : i < (a.ty.common b.ty).width) : (a.or b).bit i = (a.bit i || b.bit i) := by
  rw [bit_of_lt (show i < (a.or b).ty.width from hi)]
  show (a.conv _ ||| b.conv _).getLsbD i = _
  rw [BitVec.getLsbD_or, getLsbD_conv hi, getLsbD_conv hi]

lemma bit_and {a b : Val} (hi : i < (a.ty.common b.ty).width) :
    (a.and b).bit i = (a.bit i && b.bit i) := by
  rw [bit_of_lt (show i < (a.and b).ty.width from hi)]
  show (a.conv _ &&& b.conv _).getLsbD i = _
  rw [BitVec.getLsbD_and, getLsbD_conv hi, getLsbD_conv hi]

/-- A right shift moves the bits down, the sign among them. -/
lemma bit_shiftRight (hs : v.shiftRight n = some v') : v'.ty = v.ty ∧ v'.bit i = v.bit (i + n) := by
  unfold shiftRight at hs
  split at hs
  · rename_i hn
    cases hs
    refine ⟨rfl, ?_⟩
    simp only [bit]
    by_cases ht : v.ty = .int
    · rw [if_pos ht, BitVec.getLsbD_sshiftRight, BitVec.msb_sshiftRight, decide_eq_true ht, Bool.true_and]
      by_cases hi : i < v.ty.width
      · rw [if_pos hi, decide_eq_false (by omega : ¬ v.ty.width ≤ i), Bool.not_false, Bool.true_and,
          Nat.add_comm n i]
      · rw [if_neg hi, if_neg (by omega)]
    · simp only [ht, if_false, decide_false, Bool.false_and, BitVec.getLsbD_ushiftRight]
      by_cases hi : i < v.ty.width
      · rw [if_pos hi, Nat.add_comm n i]
        split
        · rfl
        · exact BitVec.getLsbD_of_ge _ _ (by omega)
      · rw [if_neg hi, if_neg (by omega)]
  · cases hs

/-- A left shift moves the bits up. -/
lemma bit_shiftLeft (hs : v.shiftLeft n = some v') (hi : i < v.ty.width) :
    v'.ty = v.ty ∧ v'.bit i = (decide (n ≤ i) && v.bit (i - n)) := by
  unfold shiftLeft at hs
  split at hs
  · cases hs
    refine ⟨rfl, ?_⟩
    rw [bit_of_lt (v := v) (show i - n < v.ty.width by omega)]
    refine (if_pos hi).trans ?_
    rw [BitVec.getLsbD_shiftLeft, decide_eq_true hi, Bool.true_and]
    by_cases hn : n ≤ i
    · rw [decide_eq_true hn, decide_eq_false (by omega)]
      rfl
    · rw [decide_eq_false hn, decide_eq_true (by omega)]
      rfl
  · cases hs

end Val

end C
