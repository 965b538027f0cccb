import Mathlib.Analysis.Complex.ExponentialBounds
import Mathlib.Analysis.SpecialFunctions.Log.Base
import Xbsv.Portal.Types

set_option relaxedAutoImplicit false
set_option autoImplicit false

/-!
# The widths of the two generators

The C++ generator lays out a message by the widths of its fields, and the Bluespec generator computes the
size of the type. The widths of the fields add up to the size when every enumeration has at most four
elements or eight, and every vector has no bits: for an enumeration the C++ generator takes the natural
logarithm of the number of elements, and for a vector it has no width.

## Main definitions

* `Xbsv.BsvType.size` — the size of a type in Bluespec.
* `Xbsv.BsvType.Agrees` — the types on which the generators agree.

## Main results

* `Xbsv.widths_eq_size_iff` — the generators agree on these types and on no others.
-/

namespace Xbsv

/-- The logarithms, computed exactly. -/
noncomputable instance : MathLog where
  ceilLog n := ⌈Real.log n⌉₊
  ceilLog2 n := ⌈Real.logb 2 n⌉₊

mutual

/-- The size of a type in Bluespec. -/
def BsvType.size : BsvType → ℕ
  | .bit n => n
  | .int n => n
  | .uint n => n
  | .float => 32
  | .vector n t => n * t.size
  | .enum _ elements => Nat.clog 2 elements.length
  | .struct _ elements => elements.size

/-- The size of the members of a struct. -/
def StructMembers.size : StructMembers → ℕ
  | .nil => 0
  | .cons _ type rest => type.size + rest.size

end

mutual

/-- Every enumeration has at most four elements or eight, and every vector has no bits. -/
def BsvType.Agrees : BsvType → Prop
  | .enum _ elements => elements.length ≤ 4 ∨ elements.length = 8
  | .vector n t => n * t.size = 0
  | .struct _ elements => elements.Agrees
  | .bit _ => True
  | .int _ => True
  | .uint _ => True
  | .float => True

/-- The same of the members of a struct. -/
def StructMembers.Agrees : StructMembers → Prop
  | .nil => True
  | .cons _ type rest => type.Agrees ∧ rest.Agrees

end

/-- The sum of the widths of fields. -/
noncomputable def widths (atoms : List (Name × BsvType)) : ℕ := (atoms.map fun a => a.2.bitWidth).sum

lemma widths_append (as bs : List (Name × BsvType)) : widths (as ++ bs) = widths as + widths bs := by
  rw [widths, List.map_append, List.sum_append]
  rfl

lemma widths_single (a : Name × BsvType) : widths [a] = a.2.bitWidth := by
  simp [widths]

/-! ## Logarithms -/

/-- The natural logarithm of a number of `k` bits is below `0.7 * k`. -/
lemma realLog_le_clog (n : ℕ) : Real.log n ≤ 0.6931471808 * Nat.clog 2 n := by
  rcases Nat.eq_zero_or_pos n with rfl | hpos
  · simp
  · have hle : (n : ℝ) ≤ 2 ^ Nat.clog 2 n := by
      exact_mod_cast Nat.le_pow_clog (by omega) n
    have hlog : Real.log n ≤ Nat.clog 2 n * Real.log 2 := by
      rw [← Real.log_pow]
      exact Real.log_le_log (by exact_mod_cast hpos) hle
    have h2 := Real.log_two_lt_d9
    have hk : (0 : ℝ) ≤ Nat.clog 2 n := Nat.cast_nonneg _
    nlinarith

/-- An enumeration of more than eight elements gets too few bits. -/
lemma ceilLog_lt {n : ℕ} (h : 8 < n) : ⌈Real.log n⌉₊ < Nat.clog 2 n := by
  have hk : 3 < Nat.clog 2 n := (Nat.lt_clog_iff_pow_lt (by omega)).mpr (by omega)
  have hle := realLog_le_clog n
  have hlt : ⌈Real.log n⌉₊ ≤ Nat.clog 2 n - 1 := by
    rw [Nat.ceil_le, Nat.cast_sub (by omega)]
    have hk' : (4 : ℝ) ≤ Nat.clog 2 n := by exact_mod_cast hk
    push_cast
    linarith
  omega

/-- An enumeration of five to seven elements gets two bits at most. -/
lemma ceilLog_le_two {n : ℕ} (h : n ≤ 7) : ⌈Real.log n⌉₊ ≤ 2 := by
  rw [Nat.ceil_le]
  rcases Nat.eq_zero_or_pos n with rfl | hpos
  · simp
  · rw [Real.log_le_iff_le_exp (by exact_mod_cast hpos)]
    have he := Real.exp_one_gt_d9
    have h7 : (n : ℝ) ≤ 7 := by exact_mod_cast h
    have hsq : Real.exp ((2 : ℕ) : ℝ) = Real.exp 1 * Real.exp 1 := by
      rw [← Real.exp_add]
      norm_num
    rw [hsq]
    nlinarith

/-- An enumeration of two, three, four or eight elements gets the bits that it needs. -/
lemma ceilLog_eq {n : ℕ} (h : n ≤ 4 ∨ n = 8) : ⌈Real.log n⌉₊ = Nat.clog 2 n := by
  have hlow := Real.log_two_gt_d9
  have hhigh := Real.log_two_lt_d9
  have hceil : ∀ {x : ℝ} {k : ℕ}, (k : ℝ) < x → x ≤ k + 1 → ⌈x⌉₊ = k + 1 := by
    intro x k hlt hle
    rw [Nat.ceil_eq_iff (by omega)]
    push_cast
    exact ⟨by simpa using hlt, hle⟩
  have hfour : Real.log (4 : ℕ) = 2 * Real.log 2 := by
    rw [show ((4 : ℕ) : ℝ) = 2 ^ 2 by norm_num, Real.log_pow]
    norm_num
  have hthree : 1 < Real.log (3 : ℕ) := by
    rw [Real.lt_log_iff_exp_lt (by norm_num)]
    have he := Real.exp_one_lt_d9
    push_cast
    linarith
  have hle : Real.log (3 : ℕ) ≤ Real.log (4 : ℕ) := Real.log_le_log (by norm_num) (by norm_num)
  obtain rfl | rfl | rfl | rfl | rfl | rfl :
    n = 0 ∨ n = 1 ∨ n = 2 ∨ n = 3 ∨ n = 4 ∨ n = 8 := by omega
  · simp
  · simp
  · have hclog : Nat.clog 2 2 = 1 := by decide
    rw [hclog]
    refine hceil (k := 0) ?_ ?_ <;> push_cast <;> linarith
  · have hclog : Nat.clog 2 3 = 2 := by decide
    rw [hclog]
    refine hceil (k := 1) ?_ ?_
    · exact_mod_cast hthree
    · push_cast at hfour hle ⊢
      linarith
  · have hclog : Nat.clog 2 4 = 2 := by decide
    rw [hclog, hfour]
    refine hceil (k := 1) ?_ ?_ <;> push_cast <;> linarith
  · have hclog : Nat.clog 2 8 = 3 := by decide
    have height : Real.log (8 : ℕ) = 3 * Real.log 2 := by
      rw [show ((8 : ℕ) : ℝ) = 2 ^ 3 by norm_num, Real.log_pow]
      norm_num
    rw [hclog, height]
    refine hceil (k := 2) ?_ ?_ <;> push_cast <;> linarith

/-- The width that the C++ generator gives to an enumeration is at most its size, and equal to it for up to
four elements and for eight. -/
lemma ceilLog_le_and_eq_iff (n : ℕ) :
    ⌈Real.log n⌉₊ ≤ Nat.clog 2 n ∧ (⌈Real.log n⌉₊ = Nat.clog 2 n ↔ n ≤ 4 ∨ n = 8) := by
  by_cases hgood : n ≤ 4 ∨ n = 8
  · have heq := ceilLog_eq hgood
    exact ⟨heq.le, iff_of_true heq hgood⟩
  · have hlt : ⌈Real.log n⌉₊ < Nat.clog 2 n := by
      rcases Nat.lt_or_ge 8 n with hbig | hsmall
      · exact ceilLog_lt hbig
      · have htwo := ceilLog_le_two (show n ≤ 7 by omega)
        have hthree : 2 < Nat.clog 2 n := (Nat.lt_clog_iff_pow_lt (by omega)).mpr (by omega)
        omega
    exact ⟨hlt.le, iff_of_false (by omega) hgood⟩

/-! ## Types -/

mutual

/-- The Bluespec generator computes the size of a type. -/
lemma numBitsBSV_eq_size : ∀ t : BsvType, t.numBitsBSV = t.size
  | .bit _ | .int _ | .uint _ | .float => by rw [BsvType.numBitsBSV, BsvType.size]
  | .vector n t => by rw [BsvType.numBitsBSV, BsvType.size, numBitsBSV_eq_size t]
  | .enum _ elements => by
    rw [BsvType.numBitsBSV, BsvType.size]
    exact Real.natCeil_logb_natCast 2 elements.length
  | .struct _ elements => by
    rw [BsvType.numBitsBSV, BsvType.size, StructMembers.numBitsBSV_eq_size elements]

/-- The Bluespec generator computes the size of a struct. -/
lemma StructMembers.numBitsBSV_eq_size : ∀ ms : StructMembers, ms.numBitsBSV = ms.size
  | .nil => rfl
  | .cons _ type rest => by
    rw [StructMembers.numBitsBSV, StructMembers.size, Xbsv.numBitsBSV_eq_size type,
      StructMembers.numBitsBSV_eq_size rest]

end

mutual

/-- The widths of the fields of a member are at most its size, and equal to it where the generators
agree. -/
lemma widths_collectMembers (scope : Name) (name : String) :
    ∀ t : BsvType, widths (collectMembers scope name t) ≤ t.size ∧
      (widths (collectMembers scope name t) = t.size ↔ t.Agrees)
  | .bit n | .int n | .uint n => by
    rw [collectMembers, widths_single, BsvType.size, BsvType.Agrees]
    exact ⟨le_rfl, iff_of_true rfl trivial⟩
  | .float => by
    rw [collectMembers, widths_single, BsvType.size, BsvType.Agrees]
    exact ⟨le_rfl, iff_of_true rfl trivial⟩
  | .vector n t => by
    rw [collectMembers, widths_single, BsvType.size, BsvType.Agrees]
    exact ⟨Nat.zero_le _, eq_comm⟩
  | .enum _ elements => by
    rw [collectMembers, widths_single, BsvType.size, BsvType.Agrees]
    exact ceilLog_le_and_eq_iff elements.length
  | .struct _ elements => by
    rw [collectMembers, BsvType.size, BsvType.Agrees]
    exact widths_collectElements (scope ++ [name]) elements

/-- The widths of the fields of a struct are at most its size. -/
lemma widths_collectElements (scope : Name) :
    ∀ ms : StructMembers, widths (collectElements scope ms) ≤ ms.size ∧
      (widths (collectElements scope ms) = ms.size ↔ ms.Agrees)
  | .nil => ⟨le_rfl, iff_of_true rfl trivial⟩
  | .cons name type rest => by
    have htype := widths_collectMembers scope name type
    have hrest := widths_collectElements scope rest
    rw [collectElements, widths_append, StructMembers.size, StructMembers.Agrees]
    refine ⟨Nat.add_le_add htype.1 hrest.1, ?_⟩
    -- no member can make up for another one
    rw [← htype.2, ← hrest.2]
    have h1 := htype.1
    have h2 := hrest.1
    omega

end

/-- **The generators agree** on the types in which every enumeration has at most four elements or eight and
every vector has no bits, and on no others: the widths by which the C++ generator lays out a member add up
to the size that the Bluespec generator computes, which is the size of the type in Bluespec. -/
theorem widths_eq_size_iff (scope : Name) (name : String) (t : BsvType) :
    (widths (collectMembers scope name t) = t.numBitsBSV ∧ t.numBitsBSV = t.size) ↔ t.Agrees := by
  rw [numBitsBSV_eq_size, and_iff_left rfl]
  exact (widths_collectMembers scope name t).2

/-- An enumeration of five elements is given two bits and has three. -/
theorem widths_ne_size_fiveElements :
    widths (collectMembers [] "e" (.enum "E" ["A", "B", "C", "D", "F"])) ≠
      (BsvType.enum "E" ["A", "B", "C", "D", "F"]).numBitsBSV := by
  intro heq
  have hagrees := (widths_collectMembers [] "e" (.enum "E" ["A", "B", "C", "D", "F"])).2.mp
    (heq.trans (numBitsBSV_eq_size _))
  rw [BsvType.Agrees] at hagrees
  simp at hagrees

end Xbsv
