import Xbsv.Loops.Checked
import Xbsv.Search.MP

set_option relaxedAutoImplicit false
set_option autoImplicit false

/-!
# The two tables of `mp.h`

`compute_borders` and `compute_MP_next` over arrays, with the bounds of the arrays and the range of `int`. Both
follow the entries that `Xbsv.computeMPNext` has without bounds.

## Main definitions

* `Xbsv.Arrays.computeBorders`, `Xbsv.Arrays.computeMPNext` — the functions of the source.

## Main results

* `Xbsv.Arrays.exists_computeMPNext`, `Xbsv.Arrays.exists_computeBorders` — both return, with the same entries.
* `Xbsv.Arrays.borders_agree` — one table is the other one, moved by one place and by one.
-/

namespace Xbsv.Arrays

open Loops

/-! ## The source -/

section Source

variable (fuel : ℕ) (x : List (BitVec 8))

/-- One round of the `for` loop of `compute_borders`. -/
def computeBorders.round (i : ℤ) (border : List ℤ) : Option (List ℤ) := do
  let j ← C.get border (i - 1)
  let j ← C.loop
    (fun j => if 0 ≤ j then do return (← C.get x i) != (← C.get x (← C.int (j + 1))) else some false)
    (fun j => C.get border j) fuel j
  C.set border i (← C.int (j + 1))

/-- `compute_borders`. -/
def computeBorders (border : List ℤ) (m : ℤ) : Option (List ℤ) := do
  let border ← C.set border 0 (-1)
  C.forLoop m (computeBorders.round fuel x) fuel 1 border

/-- One round of the `for` loop of `compute_MP_next`. -/
def computeMPNext.round (i : ℤ) (s : List ℤ × ℤ) : Option (List ℤ × ℤ) := do
  let j ← C.loop (fun j => if 0 < j then do return (← C.get x i) != (← C.get x j) else some false)
    (fun j => C.get s.1 j) fuel s.2
  let j ← C.int (j + 1)
  let MP_next ← C.set s.1 (← C.int (i + 1)) j
  return (MP_next, j)

/-- `compute_MP_next`. -/
def computeMPNext (MP_next : List ℤ) (m : ℤ) : Option (List ℤ) := do
  let MP_next ← C.set MP_next 1 0
  let s ← C.forLoop m (computeMPNext.round fuel x) fuel 1 (MP_next, 0)
  return s.1

end Source

/-! ## The entries -/

variable {x : List (BitVec 8)} {m : ℕ}

/-- The characters of an array. -/
def chars (x : List (BitVec 8)) (k : ℕ) : BitVec 8 := x.getD k 0

lemma get_chars {k : ℕ} (hk : k < x.length) : x[k]? = some (chars x k) := by
  rw [chars, List.getD_eq_getElem x 0 hk, List.getElem?_eq_getElem hk]

/-- The table without bounds, after some rounds of its computation. -/
def table (x : List (BitVec 8)) (k : ℕ) : (ℕ → ℕ) × ℕ := (Xbsv.computeMPNext (chars x) (fun _ => 0) k).getD (0, 0)

lemma computeMPNext_table (x : List (BitVec 8)) (k : ℕ) :
    Xbsv.computeMPNext (chars x) (fun _ => 0) k = some (table x k) ∧ Falls (table x k).1 (k + 1) ∧
      (table x k).2 < k + 1 := by
  obtain ⟨s, hs, hT, hj⟩ := Xbsv.exists_computeMPNext (chars x) (fun _ => 0) k
  rw [table, hs]
  exact ⟨rfl, hT, hj⟩

/-- A round: the inner loop, and the entry that is written. -/
lemma table_succ (x : List (BitVec 8)) (k : ℕ) :
    ∃ j, whileLoop (fun j => decide (0 < j) && chars x (k + 1) != chars x j) (fun j => some ((table x k).1 j)) (k + 2)
        (table x k).2 = some j ∧
      table x (k + 1) = (Function.update (table x k).1 (k + 2) (j + 1), j + 1) := by
  obtain ⟨hk, -, -⟩ := computeMPNext_table x k
  obtain ⟨hsucc, -, -⟩ := computeMPNext_table x (k + 1)
  rw [Xbsv.computeMPNext, hk, Option.bind_some, Xbsv.computeMPNext.round] at hsucc
  obtain ⟨j, hj, hres⟩ := Option.bind_eq_some_iff.mp hsucc
  exact ⟨j, hj, (Option.some.inj hres).symm⟩

/-- A round keeps the entries that there are. -/
lemma table_succ_of_le (x : List (BitVec 8)) {k i : ℕ} (hi : i ≤ k + 1) :
    (table x (k + 1)).1 i = (table x k).1 i := by
  obtain ⟨j, -, heq⟩ := table_succ x k
  rw [heq]
  exact Function.update_of_ne (by omega) _ _

/-- The variable `j` holds the last entry. -/
lemma table_last (x : List (BitVec 8)) (k : ℕ) : (table x k).1 (k + 1) = (table x k).2 := by
  cases k with
  | zero => rfl
  | succ k =>
    obtain ⟨j, -, heq⟩ := table_succ x k
    rw [heq]
    exact Function.update_self ..

/-- The entries are below their index. -/
lemma table_lt (x : List (BitVec 8)) {k i : ℕ} (h₁ : 1 ≤ i) (hi : i ≤ k + 1) : (table x k).1 i < i :=
  (computeMPNext_table x k).2.1 i h₁ hi

/-! ## `compute_MP_next` -/

/-- The array holds the entries of the table up to the index `k + 1`. -/
def Holds (x : List (BitVec 8)) (MP_next : List ℤ) (k : ℕ) : Prop :=
  ∀ i, 1 ≤ i → i ≤ k + 1 → MP_next[i]? = some ((table x k).1 i : ℤ)

/-- One more entry. -/
lemma Holds.set {MP_next : List ℤ} {k : ℕ} (h : Holds x MP_next k) (hlen : k + 2 < MP_next.length) :
    Holds x (MP_next.set (k + 2) ((table x (k + 1)).2 : ℤ)) (k + 1) := by
  intro i h₁ hi
  rcases Nat.lt_or_eq_of_le hi with hlt | rfl
  · rw [List.getElem?_set_ne (by omega), h i h₁ (by omega), table_succ_of_le x (by omega)]
  · rw [List.getElem?_set_self (by omega), table_last]

/-- A round of `compute_MP_next`. -/
lemma exists_computeMPNext_round {MP_next : List ℤ} {fuel k : ℕ} (hx : m < x.length) (hT : m + 1 < MP_next.length)
    (hm : m + 1 < 2 ^ 31) (hfuel : m < fuel) (hk : k + 1 ≤ m) (h : Holds x MP_next k) :
    computeMPNext.round fuel x (k + 1 : ℕ) (MP_next, (table x k).2) =
      some (MP_next.set (k + 2) ((table x (k + 1)).2 : ℤ), ((table x (k + 1)).2 : ℤ)) := by
  obtain ⟨-, -, hlast⟩ := computeMPNext_table x k
  obtain ⟨-, -, hlast'⟩ := computeMPNext_table x (k + 1)
  obtain ⟨j, hj, heq⟩ := table_succ x k
  -- the index is an entry of the table, and the characters and the entry at it are within the bounds
  obtain ⟨j', hloop, rfl, -⟩ := C.exists_loop
    (p := fun j : ℤ => if 0 < j then do return (← C.get x (k + 1 : ℕ)) != (← C.get x j) else some false)
    (f := fun j => C.get MP_next j) (R := fun (j : ℤ) (j' : ℕ) => j = j' ∧ j' ≤ k)
    (by
      rintro _ j ⟨rfl, hjk⟩
      rcases Nat.eq_zero_or_pos j with rfl | hpos
      · simp
      · rw [if_pos (by omega), C.get_natCast, C.get_natCast, get_chars (by omega), get_chars (by omega)]
        simp [hpos])
    (by
      rintro _ j j' ⟨rfl, hjk⟩ htest hnext
      cases hnext
      have hpos : 0 < j := by
        simp only [Bool.and_eq_true, decide_eq_true_eq] at htest
        exact htest.1
      have hlt := table_lt x hpos (show j ≤ k + 1 by omega)
      refine ⟨_, ?_, rfl, by omega⟩
      rw [C.get_natCast, h j hpos (by omega)])
    ⟨rfl, by omega⟩ (by omega : k + 2 ≤ fuel) hj
  have hsum : ((table x (k + 1)).2 : ℤ) = (j : ℤ) + 1 := by
    rw [heq]
    rfl
  have hindex : (((k + 1 : ℕ) : ℤ) + 1) = ((k + 2 : ℕ) : ℤ) := by omega
  rw [computeMPNext.round, hloop, C.some_bind, C.int_of_lt (by omega) (by omega), C.some_bind, hindex,
    C.int_of_lt (by omega) (by omega), C.some_bind, C.set_of_lt (show k + 2 < MP_next.length by omega), C.some_bind,
    hsum]
  rfl

/-- **`compute_MP_next` returns**, and its accesses are within the bounds. -/
theorem exists_computeMPNext {MP_next : List ℤ} {fuel : ℕ} (hx : m < x.length) (hT : m + 1 < MP_next.length)
    (hm : m + 1 < 2 ^ 31) (hfuel : m < fuel) : ∃ T, computeMPNext fuel x MP_next m = some T ∧ Holds x T m := by
  have hfirst : C.set MP_next 1 0 = some (MP_next.set 1 0) := C.set_of_lt (show 1 < MP_next.length by omega) 0
  have hloop : ∃ s, C.forLoop m (computeMPNext.round fuel x) fuel 1 (MP_next.set 1 0, 0) = some s ∧
      ∃ k, m + 1 = k + 1 ∧ s.1.length = MP_next.length ∧ Holds x s.1 k ∧ s.2 = (table x k).2 := by
    apply C.exists_forLoop (I := fun i (s : List ℤ × ℤ) =>
      ∃ k, i = k + 1 ∧ s.1.length = MP_next.length ∧ Holds x s.1 k ∧ s.2 = (table x k).2) hm ?_ hfuel
    · refine ⟨0, rfl, List.length_set, fun i h₁ hi => ?_, rfl⟩
      obtain rfl : i = 1 := by omega
      rw [List.getElem?_set_self (by omega)]
      rfl
    · rintro _ ⟨T, _⟩ - hi ⟨k, rfl, hlen, hold, rfl⟩
      rw [exists_computeMPNext_round hx (by omega) hm hfuel hi hold]
      exact ⟨_, rfl, k + 1, rfl, by rw [List.length_set, hlen], hold.set (by omega), rfl⟩
  obtain ⟨s, hs, k, hk, -, hold, -⟩ := hloop
  obtain rfl : m = k := by omega
  refine ⟨s.1, ?_, hold⟩
  rw [computeMPNext, hfirst, C.some_bind, hs, C.some_bind]
  rfl

/-! ## `compute_borders` -/

/-- The array holds the entries of the table, moved by one place and less one, up to the index `k`. -/
def HoldsBorders (x : List (BitVec 8)) (border : List ℤ) (k : ℕ) : Prop :=
  ∀ i, i ≤ k → border[i]? = some (((table x k).1 (i + 1) : ℤ) - 1)

/-- One more entry. -/
lemma HoldsBorders.set {border : List ℤ} {k : ℕ} (h : HoldsBorders x border k) (hlen : k + 1 < border.length) :
    HoldsBorders x (border.set (k + 1) (((table x (k + 1)).2 : ℤ) - 1)) (k + 1) := by
  intro i hi
  rcases Nat.lt_or_eq_of_le hi with hlt | rfl
  · rw [List.getElem?_set_ne (by omega), h i (by omega), table_succ_of_le x (by omega)]
  · rw [List.getElem?_set_self (by omega), table_last]

/-- A round of `compute_borders` follows the inner loop of the other function, with `j` less by one. -/
lemma exists_computeBorders_round {border : List ℤ} {fuel k : ℕ} (hx : m < x.length) (hb : m < border.length)
    (hm : m + 1 < 2 ^ 31) (hfuel : m < fuel) (hk : k + 1 ≤ m) (h : HoldsBorders x border k) :
    computeBorders.round fuel x (k + 1 : ℕ) border =
      some (border.set (k + 1) (((table x (k + 1)).2 : ℤ) - 1)) := by
  obtain ⟨-, -, hlast⟩ := computeMPNext_table x k
  obtain ⟨-, -, hlast'⟩ := computeMPNext_table x (k + 1)
  obtain ⟨j, hj, heq⟩ := table_succ x k
  obtain ⟨j', hloop, rfl, -⟩ := C.exists_loop
    (p := fun j : ℤ =>
      if 0 ≤ j then do return (← C.get x (k + 1 : ℕ)) != (← C.get x (← C.int (j + 1))) else some false)
    (f := fun j => C.get border j) (R := fun (j : ℤ) (j' : ℕ) => j = j' - 1 ∧ j' ≤ k)
    (by
      rintro _ j ⟨rfl, hjk⟩
      rcases Nat.eq_zero_or_pos j with rfl | hpos
      · simp
      · rw [if_pos (by omega), C.get_natCast, get_chars (by omega), C.some_bind, Int.sub_add_cancel,
          C.int_of_lt (by omega) (by omega), C.some_bind, C.get_natCast, get_chars (by omega), C.some_bind,
          decide_eq_true hpos, Bool.true_and]
        rfl)
    (by
      rintro _ j j' ⟨rfl, hjk⟩ htest hnext
      cases hnext
      have hpos : 0 < j := by
        simp only [Bool.and_eq_true, decide_eq_true_eq] at htest
        exact htest.1
      have hlt := table_lt x hpos (show j ≤ k + 1 by omega)
      have hpred : (j : ℤ) - 1 = (j - 1 : ℕ) := by omega
      refine ⟨_, ?_, rfl, by omega⟩
      rw [hpred, C.get_natCast, h (j - 1) (by omega), Nat.sub_add_cancel hpos])
    ⟨rfl, by omega⟩ (by omega : k + 2 ≤ fuel) hj
  have hsum : ((table x (k + 1)).2 : ℤ) - 1 = (j : ℤ) := by
    rw [heq]
    push_cast
    omega
  have hindex : ((k + 1 : ℕ) : ℤ) - 1 = (k : ℕ) := by omega
  have hentry : C.get border (k : ℕ) = some (((table x k).2 : ℤ) - 1) := by
    rw [C.get_natCast, h k le_rfl, table_last]
  rw [computeBorders.round, hindex, hentry, C.some_bind, hloop, C.some_bind, Int.sub_add_cancel,
    C.int_of_lt (by omega) (by omega), C.some_bind, C.set_of_lt (by omega), hsum]

/-- **`compute_borders` returns**, and its accesses are within the bounds. -/
theorem exists_computeBorders {border : List ℤ} {fuel : ℕ} (hx : m < x.length) (hb : m < border.length)
    (hm : m + 1 < 2 ^ 31) (hfuel : m < fuel) :
    ∃ B, computeBorders fuel x border m = some B ∧ HoldsBorders x B m := by
  have hfirst : C.set border 0 (-1) = some (border.set 0 (-1)) := C.set_of_lt (show 0 < border.length by omega) _
  have hloop : ∃ B, C.forLoop m (computeBorders.round fuel x) fuel 1 (border.set 0 (-1)) = some B ∧
      ∃ k, m + 1 = k + 1 ∧ B.length = border.length ∧ HoldsBorders x B k := by
    apply C.exists_forLoop (I := fun i (B : List ℤ) =>
      ∃ k, i = k + 1 ∧ B.length = border.length ∧ HoldsBorders x B k) hm ?_ hfuel
    · refine ⟨0, rfl, List.length_set, fun i hi => ?_⟩
      obtain rfl : i = 0 := by omega
      rw [List.getElem?_set_self (by omega)]
      rfl
    · rintro _ B - hi ⟨k, rfl, hlen, hold⟩
      rw [exists_computeBorders_round hx (by omega) hm hfuel hi hold]
      exact ⟨_, rfl, k + 1, rfl, by rw [List.length_set, hlen], hold.set (by omega)⟩
  obtain ⟨B, hB, k, hk, -, hold⟩ := hloop
  obtain rfl : m = k := by omega
  exact ⟨B, by rw [computeBorders, hfirst, C.some_bind, hB], hold⟩

/-! ## The two tables -/

/-- **The two tables agree.** -/
theorem borders_agree {border MP_next : List ℤ} {fuel : ℕ} (hx : m < x.length) (hb : m < border.length)
    (hT : m + 1 < MP_next.length) (hm : m + 1 < 2 ^ 31) (hfuel : m < fuel) :
    ∃ B T, computeBorders fuel x border m = some B ∧ computeMPNext fuel x MP_next m = some T ∧
      (∀ i : ℕ, 1 ≤ i → i ≤ m + 1 → ∃ b, B[i - 1]? = some b ∧ T[i]? = some (b + 1)) ∧
      ∀ i : ℕ, i ≤ m → ∃ b, B[i]? = some b ∧ -1 ≤ b ∧ b < i := by
  obtain ⟨B, hB, hborders⟩ := exists_computeBorders hx hb hm hfuel
  obtain ⟨T, hT, htable⟩ := exists_computeMPNext hx hT hm hfuel
  refine ⟨B, T, hB, hT, fun i h₁ hi => ?_, fun i hi => ⟨_, hborders i hi, by omega, ?_⟩⟩
  · refine ⟨_, hborders (i - 1) (by omega), ?_⟩
    rw [htable i h₁ hi, Nat.sub_add_cancel h₁, Int.sub_add_cancel]
  · have hlt := table_lt x (show 1 ≤ i + 1 by omega) (show i + 1 ≤ m + 1 by omega)
    omega

/-- The tables of `abab`. -/
theorem borders_agree_abab :
    ∃ B T, computeBorders 5 [97, 98, 97, 98, 0] [0, 0, 0, 0, 0] (4 : ℕ) = some B ∧
      computeMPNext 5 [97, 98, 97, 98, 0] [0, 0, 0, 0, 0, 0] (4 : ℕ) = some T ∧
      (∀ i : ℕ, 1 ≤ i → i ≤ 4 + 1 → ∃ b, B[i - 1]? = some b ∧ T[i]? = some (b + 1)) ∧
      ∀ i : ℕ, i ≤ 4 → ∃ b, B[i]? = some b ∧ -1 ≤ b ∧ b < i :=
  borders_agree (m := 4) (by decide) (by decide) (by decide) (by decide) (by decide)

/-- With the largest `int` as length both functions count on without end. -/
theorem not_borders_agree_largest :
    (∀ fuel, computeBorders fuel (List.replicate (2 ^ 31) 0) (List.replicate (2 ^ 31) 0) (2 ^ 31 - 1) = none) ∧
      ∀ fuel, computeMPNext fuel (List.replicate (2 ^ 31) 0) (List.replicate (2 ^ 31 + 1) 0) (2 ^ 31 - 1) = none := by
  constructor
  · intro fuel
    rw [computeBorders, Option.bind_eq_bind, Option.bind_eq_none_iff]
    intro border _
    exact C.forLoop_eq_none _ _ (by omega) _
  · intro fuel
    rw [computeMPNext, Option.bind_eq_bind, Option.bind_eq_none_iff]
    intro MP_next _
    rw [C.forLoop_eq_none _ _ (by omega)]
    rfl

end Xbsv.Arrays
