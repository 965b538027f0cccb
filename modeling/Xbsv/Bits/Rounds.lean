import Mathlib.Data.BitVec
import Mathlib.Data.Nat.ModEq
import Mathlib.Tactic.Common

set_option relaxedAutoImplicit false
set_option autoImplicit false

/-!
# Positions that go round

A position in a ring is advanced in steps and comes round at the end. It tells the number of steps up to whole rounds,
so that of two numbers that are less than a round apart it tells whether they are equal. For a ring whose length is a
power of two the position is a word under a mask.

## Main definitions

* `Bits.place` — the position after some steps round a ring.

## Main results

* `Bits.add_mod_inj` — positions less than a round apart are different.
* `Bits.place_inj` — the same for steps of more than one unit.
* `Bits.toNat_add_and` — a step under a mask.
-/

namespace Bits

/-- Positions from a start on are different within one round. -/
lemma add_mod_inj {n i j : ℕ} (o : ℕ) (hi : i < n) (hj : j < n) : (o + i) % n = (o + j) % n ↔ i = j := by
  constructor
  · intro he
    have hmod := Nat.ModEq.add_left_cancel' o he
    rwa [Nat.ModEq, Nat.mod_eq_of_lt hi, Nat.mod_eq_of_lt hj] at hmod
  · rintro rfl
    rfl

/-- The position after `k` steps of `d` units from `c` on, in a ring of `n` steps. -/
def place (n d c k : ℕ) : ℕ := (c + d * k) % (n * d)

section Place

variable {n d c a b k : ℕ}

lemma place_zero (h : c < n * d) : place n d c 0 = c := by
  rw [place, Nat.mul_zero, Nat.add_zero, Nat.mod_eq_of_lt h]

/-- One more step. -/
lemma place_succ : place n d c (k + 1) = (place n d c k + d) % (n * d) := by
  rw [place, place, Nat.mod_add_mod, Nat.mul_succ, Nat.add_assoc]

/-- A whole round. -/
lemma place_add_round : place n d c (k + n) = place n d c k := by
  rw [place, place, Nat.mul_add, ← Nat.add_assoc, Nat.mul_comm d n, Nat.add_mod_right]

lemma place_lt (hn : 0 < n) (hd : 0 < d) : place n d c k < n * d := Nat.mod_lt _ (Nat.mul_pos hn hd)

/-- The positions are whole steps. -/
lemma dvd_place (h : d ∣ c) : d ∣ place n d c k :=
  (Nat.dvd_mod_iff (Nat.dvd_mul_left d n)).mpr (Nat.dvd_add h (Nat.dvd_mul_right d k))

/-- **Numbers of steps from positions**: numbers that are less than a round apart are equal if the positions are. -/
theorem place_inj (hd : 0 < d) (hab : a ≤ b) (hb : b < a + n) : place n d c a = place n d c b ↔ a = b := by
  obtain ⟨e, rfl⟩ := Nat.exists_eq_add_of_le hab
  have he : d * e < n * d := by
    rw [Nat.mul_comm n]
    exact Nat.mul_lt_mul_of_pos_left (by omega) hd
  have hinj : (c + d * a + 0) % (n * d) = (c + d * a + d * e) % (n * d) ↔ 0 = d * e :=
    add_mod_inj _ (by omega) he
  have hzero : 0 = d * e ↔ a = a + e := by
    rw [eq_comm, Nat.mul_eq_zero]
    omega
  rw [place, place, Nat.mul_add, ← Nat.add_assoc, ← hzero]
  exact hinj

end Place

/-- A step under a mask of `k` ones comes round after `2 ^ k`. -/
lemma toNat_add_and {w k : ℕ} (hk : k ≤ w) {m : BitVec w} (hm : m.toNat = 2 ^ k - 1) (x d : BitVec w) :
    ((x + d) &&& m).toNat = (x.toNat + d.toNat) % 2 ^ k := by
  rw [BitVec.toNat_and, hm, Nat.and_two_pow_sub_one_eq_mod, BitVec.toNat_add,
    Nat.mod_mod_of_dvd _ (Nat.pow_dvd_pow 2 hk)]

end Bits
