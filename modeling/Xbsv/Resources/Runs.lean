import Mathlib.Data.List.Range
import Mathlib.Tactic.Common
import Mathlib.Tactic.Ring

set_option relaxedAutoImplicit false
set_option autoImplicit false

/-!
# Runs of consecutive cells

A run `(b, n)` stands for the cells `b, b + 1, …, b + n - 1`. A list of runs is read from the first run to the last.

## Main definitions

* `Runs.cells` — the cells of a list of runs, in order.
* `Runs.locate` — the first cell of the run that holds the cell number `k`, and the place of the cell in its run.

## Main results

* `Runs.drop_cells_of_le`, `Runs.drop_cells_of_lt` — what is left of the cells after the first ones.
* `Runs.getElem?_cells` — the cell number `k` is the one that `locate` finds.
* `Runs.getElem?_cells_scale` — cells that are made of smaller ones.
-/

namespace Runs

variable {runs : List (ℕ × ℕ)} {b n k : ℕ}

/-- The cells of the runs. -/
def cells (runs : List (ℕ × ℕ)) : List ℕ := runs.flatMap fun r => List.range' r.1 r.2

/-- The run of the cell number `k`, and its place in the run. -/
def locate : List (ℕ × ℕ) → ℕ → Option (ℕ × ℕ)
  | [], _ => none
  | (b, n) :: runs, k => if k < n then some (b, k) else locate runs (k - n)

/-- Every cell becomes `m` smaller ones. -/
def scale (m : ℕ) (r : ℕ × ℕ) : ℕ × ℕ := (r.1 * m, r.2 * m)

@[simp] lemma cells_nil : cells [] = [] := rfl

lemma cells_cons (b n : ℕ) (runs : List (ℕ × ℕ)) : cells ((b, n) :: runs) = List.range' b n ++ cells runs := rfl

lemma length_cells_cons : (cells ((b, n) :: runs)).length = n + (cells runs).length := by
  rw [cells_cons, List.length_append, List.length_range']

/-- The first cells of a run. -/
lemma take_run (b n k : ℕ) : (List.range' b n).take k = List.range' b (min n k) := by
  rcases Nat.le_total n k with h | h
  · rw [List.take_range'_of_length_le h, Nat.min_eq_left h]
  · rw [List.take_range'_of_length_ge h, Nat.min_eq_right h]

/-- The first run is dropped. -/
lemma drop_cells_of_le (h : n ≤ k) : (cells ((b, n) :: runs)).drop k = (cells runs).drop (k - n) := by
  rw [cells_cons, List.drop_append, List.drop_eq_nil_of_le (by rwa [List.length_range']), List.length_range',
    List.nil_append]

/-- A part of the first run is dropped. -/
lemma drop_cells_of_lt (h : k < n) : (cells ((b, n) :: runs)).drop k = List.range' (b + k) (n - k) ++ cells runs := by
  rw [cells_cons, List.drop_append_of_le_length (by rw [List.length_range']; omega), List.drop_range', Nat.mul_one]

/-- A cell of the first run. -/
lemma getElem?_cells_of_lt (h : k < n) : (cells ((b, n) :: runs))[k]? = some (b + k) := by
  rw [cells_cons, List.getElem?_append_left (by rwa [List.length_range']), List.getElem?_range' h, Nat.one_mul]

/-- A cell of another run. -/
lemma getElem?_cells_of_le (h : n ≤ k) : (cells ((b, n) :: runs))[k]? = (cells runs)[k - n]? := by
  rw [cells_cons, List.getElem?_append_right (by rwa [List.length_range']), List.length_range']

/-- The cell number `k`. -/
lemma getElem?_cells (runs : List (ℕ × ℕ)) (k : ℕ) : (cells runs)[k]? = (locate runs k).map fun p => p.1 + p.2 := by
  induction runs generalizing k with
  | nil => rfl
  | cons r runs ih =>
    obtain ⟨b, n⟩ := r
    rw [locate]
    split
    case isTrue h => exact getElem?_cells_of_lt h
    case isFalse h => rw [getElem?_cells_of_le (by omega), ih]

/-- The place lies in the run. -/
lemma exists_of_locate {r : ℕ} (h : locate runs k = some (b, r)) : ∃ n, (b, n) ∈ runs ∧ r < n := by
  induction runs generalizing k with
  | nil => cases h
  | cons run runs ih =>
    obtain ⟨b', n'⟩ := run
    rw [locate] at h
    split at h
    case isTrue hlt =>
      obtain ⟨rfl, rfl⟩ := Prod.mk.inj (Option.some.inj h)
      exact ⟨n', List.mem_cons_self, hlt⟩
    case isFalse =>
      obtain ⟨n, hmem, hlt⟩ := ih h
      exact ⟨n, List.mem_cons_of_mem _ hmem, hlt⟩

/-- The cells of the scaled runs. -/
lemma getElem?_cells_scale {m : ℕ} (hm : 0 < m) (runs : List (ℕ × ℕ)) (k : ℕ) :
    (cells (runs.map (scale m)))[k]? = ((cells runs)[k / m]?).map fun c => c * m + k % m := by
  induction runs generalizing k with
  | nil => rfl
  | cons r runs ih =>
    obtain ⟨b, n⟩ := r
    show (cells ((b * m, n * m) :: runs.map (scale m)))[k]? = _
    by_cases h : k < n * m
    · have hdiv : k / m < n := Nat.div_lt_of_lt_mul (by rwa [Nat.mul_comm])
      have hk := Nat.div_add_mod' k m
      rw [getElem?_cells_of_lt h, getElem?_cells_of_lt hdiv, Option.map_some, Nat.add_mul, Nat.add_assoc, hk]
    · have hdiv : n ≤ k / m := (Nat.le_div_iff_mul_le hm).mpr (by omega)
      rw [getElem?_cells_of_le (by omega), getElem?_cells_of_le hdiv, ih, Nat.mul_comm n m, Nat.sub_mul_div,
        Nat.sub_mul_mod (by rw [Nat.mul_comm]; omega)]

end Runs
