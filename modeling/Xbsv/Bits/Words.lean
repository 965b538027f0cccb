import Mathlib.Data.BitVec
import Mathlib.Data.Nat.Digits.Defs
import Mathlib.Tactic.Common
import Mathlib.Tactic.Ring

set_option relaxedAutoImplicit false
set_option autoImplicit false

/-!
# Numbers as words

A number is cut into words of `n` bits, the most significant first, and put together again. A shift
register that takes in a word at a time holds the words that came last; what was in it before is shifted
out.

## Main definitions

* `Bits.words` — the words of a number.
* `Bits.ofWords` — the number with the given words.

## Main results

* `Bits.ofWords_words` — the words of a number make up the number.
* `Bits.testBit_ofWords` — the bits of words are those of the number.
-/

namespace Bits

variable {n : ℕ}

/-- Numbers that fit into a word are told apart there. -/
lemma ofNat_inj_of_lt {x y : ℕ} (hx : x < 2 ^ n) (hy : y < 2 ^ n) : BitVec.ofNat n x = BitVec.ofNat n y ↔ x = y := by
  rw [← BitVec.toNat_inj, BitVec.toNat_ofNat, BitVec.toNat_ofNat, Nat.mod_eq_of_lt hx, Nat.mod_eq_of_lt hy]

/-- The number with the given words, the most significant first. -/
def ofWords (ws : List (BitVec n)) : ℕ := Nat.ofDigits (2 ^ n) (ws.map BitVec.toNat).reverse

/-- The `m` last words of a number, the most significant first. -/
def words (n m x : ℕ) : List (BitVec n) :=
  (List.range m).reverse.map fun j => BitVec.ofNat n (x / 2 ^ (n * j))

@[simp] lemma ofWords_nil : ofWords ([] : List (BitVec n)) = 0 := rfl

@[simp] lemma length_words (n m x : ℕ) : (words n m x).length = m := by
  simp [words]

/-- One more word at the end. -/
lemma ofWords_concat (ws : List (BitVec n)) (w : BitVec n) :
    ofWords (ws ++ [w]) = ofWords ws * 2 ^ n + w.toNat := by
  unfold ofWords
  rw [List.map_append, List.reverse_append, List.map_singleton, List.reverse_singleton,
    List.singleton_append, Nat.ofDigits_cons]
  ring

/-- One more word in front. -/
lemma ofWords_cons (w : BitVec n) (ws : List (BitVec n)) :
    ofWords (w :: ws) = w.toNat * 2 ^ (n * ws.length) + ofWords ws := by
  unfold ofWords
  rw [List.map_cons, List.reverse_cons, Nat.ofDigits_append, Nat.ofDigits_singleton,
    List.length_reverse, List.length_map, ← pow_mul]
  ring

/-- A number of `m` words is below `2 ^ (n * m)`. -/
lemma ofWords_lt (ws : List (BitVec n)) : ofWords ws < 2 ^ (n * ws.length) := by
  induction ws with
  | nil => simp
  | cons w ws ih =>
    have hw := w.isLt
    rw [ofWords_cons, List.length_cons, Nat.mul_succ, pow_add]
    calc w.toNat * 2 ^ (n * ws.length) + ofWords ws
        < w.toNat * 2 ^ (n * ws.length) + 2 ^ (n * ws.length) := by omega
      _ = (w.toNat + 1) * 2 ^ (n * ws.length) := by ring
      _ ≤ 2 ^ n * 2 ^ (n * ws.length) := Nat.mul_le_mul_right _ hw
      _ = 2 ^ (n * ws.length) * 2 ^ n := by ring

/-- The first word of `m + 1`. -/
lemma words_succ (n m x : ℕ) :
    words n (m + 1) x = BitVec.ofNat n (x / 2 ^ (n * m)) :: words n m x := by
  unfold words
  rw [List.range_succ, List.reverse_append, List.reverse_singleton, List.singleton_append,
    List.map_cons]

/-- The words of a number make up the number. -/
theorem ofWords_words (n m x : ℕ) : ofWords (words n m x) = x % 2 ^ (n * m) := by
  induction m with
  | zero => simp [words, Nat.mod_one]
  | succ m ih =>
    have hsplit : 2 ^ (n * (m + 1)) = 2 ^ (n * m) * 2 ^ n := by rw [Nat.mul_succ, pow_add]
    rw [words_succ, ofWords_cons, ih, length_words, BitVec.toNat_ofNat, hsplit, Nat.mod_mul]
    ring

/-- The `j`-th word. -/
lemma getElem_words {m x j : ℕ} (hj : j < (words n m x).length) :
    (words n m x)[j] = BitVec.ofNat n (x / 2 ^ (n * (m - 1 - j))) := by
  rw [length_words] at hj
  simp only [words, List.getElem_map, List.getElem_reverse, List.length_range, List.getElem_range]

/-- The bits of words are those of the number. -/
theorem testBit_ofWords (ws : List (BitVec n)) (i : ℕ) :
    (ofWords ws).testBit i = (ws.reverse[i / n]?.getD 0).getLsbD (i % n) := by
  rcases Nat.eq_zero_or_pos n with rfl | hn
  · have hlt := ofWords_lt ws
    rw [Nat.zero_mul, pow_zero, Nat.lt_one_iff] at hlt
    rw [hlt, Nat.zero_testBit, BitVec.getLsbD_of_ge _ _ (Nat.zero_le _)]
  · induction ws with
    | nil => simp
    | cons w ws ih =>
      have hlt := ofWords_lt ws
      have hlen : ws.reverse.length = ws.length := List.length_reverse
      rw [ofWords_cons, Nat.mul_comm, Nat.testBit_two_pow_mul_add _ hlt, List.reverse_cons]
      by_cases hi : i < n * ws.length
      · have hdiv : i / n < ws.reverse.length := by
          rw [hlen]
          exact Nat.div_lt_of_lt_mul hi
        rw [if_pos hi, ih, List.getElem?_append_left hdiv]
      · have hge : n * ws.length ≤ i := Nat.le_of_not_lt hi
        have hdiv : ws.reverse.length ≤ i / n := by
          rw [hlen, Nat.le_div_iff_mul_le hn, Nat.mul_comm]
          exact hge
        obtain ⟨j, rfl⟩ := Nat.exists_eq_add_of_le hge
        have hq : (n * ws.length + j) / n = ws.length + j / n := by
          rw [Nat.add_comm, Nat.add_mul_div_left _ _ hn, Nat.add_comm]
        have hr : (n * ws.length + j) % n = j % n := by
          rw [Nat.mul_add_mod]
        rw [if_neg hi, List.getElem?_append_right hdiv, hlen, hq, hr, Nat.add_sub_cancel_left,
          Nat.add_sub_cancel_left, BitVec.testBit_toNat]
        -- only the first word is left
        by_cases hj : j < n
        · rw [Nat.div_eq_of_lt hj, Nat.mod_eq_of_lt hj]
          rfl
        · have hpos : 0 < j / n := Nat.div_pos (Nat.le_of_not_lt hj) hn
          rw [BitVec.getLsbD_of_ge _ _ (Nat.le_of_not_lt hj)]
          have hnone : ([w] : List (BitVec n))[j / n]? = none := by
            rw [List.getElem?_eq_none_iff]
            exact hpos
          rw [hnone, Option.getD_none]
          simp

/-- The most significant `n` bits of a number of `j + d + n` bits that has been shifted by `j`. -/
lemma shifted_word (x j d n : ℕ) :
    x * 2 ^ j % 2 ^ (j + d + n) / 2 ^ (j + d) % 2 ^ n = x / 2 ^ d % 2 ^ n := by
  have hpos : 0 < 2 ^ j := Nat.two_pow_pos j
  rw [Nat.add_assoc, pow_add 2 j (d + n), pow_add 2 j d, Nat.mul_comm x, Nat.mul_mod_mul_left,
    Nat.mul_div_mul_left _ _ hpos, pow_add, Nat.mod_mul_right_div_self, Nat.mod_mod]

end Bits
