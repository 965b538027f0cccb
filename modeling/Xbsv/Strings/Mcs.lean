import Mathlib.Algebra.GroupWithZero.Nat
import Mathlib.Data.List.Range
import Xbsv.Strings.Lcs

set_option relaxedAutoImplicit false
set_option autoImplicit false

/-!
# Tables of lengths

What the algorithms of `examples/maxcommonsubseq` have in common: the strings in their memories, and the words of the
table of the lengths of the longest common subsequences.

## Main definitions

* `Xbsv.symbols` — a string in a memory.
* `Xbsv.tableWord` — a word of the table.
-/

namespace Xbsv

open Strings

/-- `max` -/
def larger (x y : BitVec 16) : BitVec 16 := if x ≤ y then y else x

/-- `max`, of small words. -/
lemma larger_ofNat {m n : ℕ} (hm : m < 2 ^ 14) (hn : n < 2 ^ 14) :
    larger (BitVec.ofNat 16 m) (BitVec.ofNat 16 n) = BitVec.ofNat 16 (max m n) := by
  have hle : BitVec.ofNat 16 m ≤ BitVec.ofNat 16 n ↔ m ≤ n := by
    rw [BitVec.le_def, BitVec.toNat_ofNat, BitVec.toNat_ofNat, Nat.mod_eq_of_lt (by omega), Nat.mod_eq_of_lt (by omega)]
  rw [larger]
  split
  case isTrue h => rw [Nat.max_eq_right (hle.mp h)]
  case isFalse h => rw [Nat.max_eq_left (Nat.le_of_not_le fun h' => h (hle.mpr h'))]

/-! ## Counters -/

section

variable {len : BitVec 14} {n : ℕ}

lemma ofNat_add_one (n : ℕ) : BitVec.ofNat 14 n + 1 = BitVec.ofNat 14 (n + 1) := by
  rw [BitVec.ofNat_add n 1]
  rfl

/-- Whether a counter from `0` is still in range. -/
lemma ofNat_lt_iff (hn : n ≤ len.toNat) : BitVec.ofNat 14 n < len ↔ n < len.toNat := by
  have hlen := len.isLt
  rw [BitVec.lt_def, BitVec.toNat_ofNat, Nat.mod_eq_of_lt (by omega)]

/-- Whether a counter to the end, and not beyond all words, is still in range. -/
lemma ofNat_le_iff (hn : n ≤ len.toNat + 1) (hlen : len.toNat < 2 ^ 14 - 1) :
    BitVec.ofNat 14 n ≤ len ↔ n < len.toNat + 1 := by
  rw [BitVec.le_def, BitVec.toNat_ofNat, Nat.mod_eq_of_lt (by omega)]
  exact Nat.lt_succ_iff.symm

/-- The same, for a counter from `1`. -/
lemma ofNat_succ_le_iff (hn : n ≤ len.toNat) (hlen : len.toNat < 2 ^ 14 - 1) :
    BitVec.ofNat 14 (n + 1) ≤ len ↔ n < len.toNat :=
  (ofNat_le_iff (Nat.succ_le_succ hn) hlen).trans Nat.succ_lt_succ_iff

end

/-! ## The strings -/

/-- The symbols of a string, as they are in the memory. -/
def symbols (mem : BitVec 14 → BitVec 8) (start len : BitVec 14) : List (BitVec 8) :=
  (List.range len.toNat).map fun i => mem (start + BitVec.ofNat 14 i)

variable {mem : BitVec 14 → BitVec 8} {start len : BitVec 14} {i j : ℕ}

@[simp] lemma length_symbols : (symbols mem start len).length = len.toNat := by
  rw [symbols, List.length_map, List.length_range]

lemma getElem?_symbols (h : i < len.toNat) : (symbols mem start len)[i]? = some (mem (start + BitVec.ofNat 14 i)) := by
  rw [symbols, List.getElem?_map, List.getElem?_range h]
  rfl

/-! ## The words of the table -/

/-- The word for the first `i` symbols of the one string and the first `j` of the other. -/
def tableWord (a b : List (BitVec 8)) (i j : ℕ) : BitVec 16 := BitVec.ofNat 16 (lcs (a.take i) (b.take j))

variable {a b : List (BitVec 8)}

lemma tableWord_zero_left (j : ℕ) : tableWord a b 0 j = 0 := by
  rw [tableWord, List.take_zero, lcs_nil_left]
  rfl

lemma tableWord_zero_right (i : ℕ) : tableWord a b i 0 = 0 := by
  rw [tableWord, List.take_zero, lcs_nil_right]
  rfl

lemma lcs_take_lt (ha : a.length < 2 ^ 14) (i j : ℕ) : lcs (a.take i) (b.take j) < 2 ^ 14 := by
  have hle := lcs_le_length_left (a.take i) (b.take j)
  have hlen := List.length_take_le' i a
  omega

lemma toNat_tableWord (ha : a.length < 2 ^ 14) (i j : ℕ) : (tableWord a b i j).toNat = lcs (a.take i) (b.take j) := by
  have hlt := lcs_take_lt (b := b) ha i j
  rw [tableWord, BitVec.toNat_ofNat, Nat.mod_eq_of_lt (by omega)]

/-- A word of the table, from those before. -/
lemma tableWord_succ {x y : BitVec 8} (ha : a.length < 2 ^ 14) (hx : a[i]? = some x) (hy : b[j]? = some y) :
    tableWord a b (i + 1) (j + 1) =
      if x = y then tableWord a b i j + 1 else larger (tableWord a b i (j + 1)) (tableWord a b (i + 1) j) := by
  obtain ⟨hi, rfl⟩ := List.getElem?_eq_some_iff.mp hx
  obtain ⟨hj, rfl⟩ := List.getElem?_eq_some_iff.mp hy
  rw [tableWord, lcs_take_succ hi hj]
  split
  case isTrue => rw [BitVec.ofNat_add]; rfl
  case isFalse => rw [tableWord, tableWord, larger_ofNat (lcs_take_lt ha _ _) (lcs_take_lt ha _ _)]

end Xbsv
