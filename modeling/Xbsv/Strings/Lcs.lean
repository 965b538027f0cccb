import Mathlib.Data.List.Basic
import Mathlib.Order.Bounds.Basic
import Mathlib.Tactic.Common

set_option relaxedAutoImplicit false
set_option autoImplicit false

/-!
# Longest common subsequences

The length of the longest lists that can be had from two lists by leaving elements out; it can be computed from either
end, and from a table of the lengths for the beginnings of the lists.

## Main definitions

* `Strings.lcs` — the length.
* `Strings.IsLcs` — a longest common subsequence.

## Main results

* `Strings.isGreatest_lcs` — the length is the greatest one.
* `Strings.lcs_concat_same`, `Strings.lcs_concat_of_ne` — one more element at the end.
* `Strings.lcs_take_succ` — an entry of the table.
-/

namespace Strings

variable {α : Type*} [DecidableEq α] {x y : α} {a a₁ a₂ b b₁ b₂ l l₁ l₂ : List α}

/-- The length of the longest common subsequences of two lists. -/
def lcs : List α → List α → ℕ
  | [], _ => 0
  | _ :: _, [] => 0
  | x :: a, y :: b => if x = y then lcs a b + 1 else max (lcs (x :: a) b) (lcs a (y :: b))
  termination_by a b => a.length + b.length

/-- A longest common subsequence. -/
structure IsLcs (l a b : List α) : Prop where
  left : l.Sublist a
  right : l.Sublist b
  length_eq : l.length = lcs a b

/-! ## The greatest length -/

lemma lcs_nil_left (b : List α) : lcs [] b = 0 := by rw [lcs]

lemma lcs_nil_right (a : List α) : lcs a [] = 0 := by
  cases a with
  | nil => exact lcs_nil_left _
  | cons x a => rw [lcs]

lemma lcs_cons_same (x : α) (a b : List α) : lcs (x :: a) (x :: b) = lcs a b + 1 := by rw [lcs, if_pos rfl]

lemma lcs_cons_of_ne (h : x ≠ y) (a b : List α) :
    lcs (x :: a) (y :: b) = max (lcs (x :: a) b) (lcs a (y :: b)) := by rw [lcs, if_neg h]

/-- No common subsequence is longer. -/
theorem length_le_lcs (ha : l.Sublist a) (hb : l.Sublist b) : l.length ≤ lcs a b := by
  induction a, b using lcs.induct generalizing l with
  | case1 b =>
    rw [List.sublist_nil.mp ha]
    exact Nat.zero_le _
  | case2 x a =>
    rw [List.sublist_nil.mp hb]
    exact Nat.zero_le _
  | case3 a x b ih =>
    rw [lcs_cons_same]
    -- the first element may be left out on either side; otherwise it is that of the subsequence
    cases l with
    | nil => exact Nat.zero_le _
    | cons z l =>
      have hta := List.Sublist.tail ha
      have htb := List.Sublist.tail hb
      exact Nat.succ_le_succ (ih hta htb)
  | case4 x a y b hne ihb iha =>
    rw [lcs_cons_of_ne hne]
    cases ha with
    | cons _ ha => exact Nat.le_trans (iha ha hb) (Nat.le_max_right _ _)
    | cons_cons _ ha =>
      cases hb with
      | cons _ hb => exact Nat.le_trans (ihb (ha.cons_cons x) hb) (Nat.le_max_left _ _)
      | cons_cons _ hb => exact absurd rfl hne

/-- There is a common subsequence of that length. -/
theorem exists_isLcs (a b : List α) : ∃ l, IsLcs l a b := by
  induction a, b using lcs.induct with
  | case1 b => exact ⟨[], List.Sublist.refl _, List.nil_sublist _, (lcs_nil_left b).symm⟩
  | case2 x a => exact ⟨[], List.nil_sublist _, List.Sublist.refl _, (lcs_nil_right _).symm⟩
  | case3 a x b ih =>
    obtain ⟨l, hl⟩ := ih
    exact ⟨x :: l, hl.left.cons_cons x, hl.right.cons_cons x, by rw [lcs_cons_same, List.length_cons, hl.length_eq]⟩
  | case4 x a y b hne ihb iha =>
    obtain ⟨l₁, h₁⟩ := ihb
    obtain ⟨l₂, h₂⟩ := iha
    rcases Nat.le_total (lcs (x :: a) b) (lcs a (y :: b)) with hle | hle
    · exact ⟨l₂, h₂.left.cons x, h₂.right, by rw [lcs_cons_of_ne hne, Nat.max_eq_right hle, h₂.length_eq]⟩
    · exact ⟨l₁, h₁.left, h₁.right.cons y, by rw [lcs_cons_of_ne hne, Nat.max_eq_left hle, h₁.length_eq]⟩

/-- A bound on all common subsequences is a bound on the length. -/
lemma lcs_le {n : ℕ} (h : ∀ l : List α, l.Sublist a → l.Sublist b → l.length ≤ n) : lcs a b ≤ n := by
  obtain ⟨l, hl⟩ := exists_isLcs a b
  rw [← hl.length_eq]
  exact h l hl.left hl.right

lemma lcs_le_length_left (a b : List α) : lcs a b ≤ a.length := lcs_le fun _ ha _ => ha.length_le

/-- **The length is the greatest one.** -/
theorem isGreatest_lcs (a b : List α) :
    IsGreatest {n | ∃ l : List α, l.Sublist a ∧ l.Sublist b ∧ l.length = n} (lcs a b) := by
  constructor
  · obtain ⟨l, hl⟩ := exists_isLcs a b
    exact ⟨l, hl.left, hl.right, hl.length_eq⟩
  · rintro n ⟨l, ha, hb, rfl⟩
    exact length_le_lcs ha hb

/-! ## From the other end -/

lemma lcs_reverse_le (a b : List α) : lcs a b ≤ lcs a.reverse b.reverse :=
  lcs_le fun l ha hb => by
    rw [← List.length_reverse]
    exact length_le_lcs ha.reverse hb.reverse

lemma lcs_reverse (a b : List α) : lcs a.reverse b.reverse = lcs a b := by
  refine Nat.le_antisymm ?_ (lcs_reverse_le a b)
  have h := lcs_reverse_le a.reverse b.reverse
  rwa [List.reverse_reverse, List.reverse_reverse] at h

lemma lcs_concat_same (a b : List α) (x : α) : lcs (a ++ [x]) (b ++ [x]) = lcs a b + 1 := by
  rw [← lcs_reverse, List.reverse_concat, List.reverse_concat, lcs_cons_same, lcs_reverse]

lemma lcs_concat_of_ne (h : x ≠ y) (a b : List α) :
    lcs (a ++ [x]) (b ++ [y]) = max (lcs (a ++ [x]) b) (lcs a (b ++ [y])) := by
  rw [← lcs_reverse, List.reverse_concat, List.reverse_concat, lcs_cons_of_ne h, ← List.reverse_concat,
    ← List.reverse_concat, lcs_reverse, lcs_reverse]

/-! ## The table -/

/-- An entry of the table of the lengths for the beginnings of two lists, from the entries before. -/
lemma lcs_take_succ {i j : ℕ} (hi : i < a.length) (hj : j < b.length) :
    lcs (a.take (i + 1)) (b.take (j + 1)) = if a[i] = b[j] then lcs (a.take i) (b.take j) + 1
      else max (lcs (a.take i) (b.take (j + 1))) (lcs (a.take (i + 1)) (b.take j)) := by
  rw [List.take_succ_eq_append_getElem hi, List.take_succ_eq_append_getElem hj]
  split
  case isTrue heq => rw [heq, lcs_concat_same]
  case isFalse hne => rw [lcs_concat_of_ne hne, Nat.max_comm]

end Strings
