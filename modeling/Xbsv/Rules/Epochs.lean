import Mathlib.Data.BitVec
import Mathlib.Tactic.Common

set_option relaxedAutoImplicit false
set_option autoImplicit false

/-!
# Running ahead

Requests are made ahead of time for the index after the last one, each with the number of the epoch in which it
was made. Where the index turns out to be another one a new epoch begins, and the requests of the old one are
thrown away as they come back. Two epochs are under way at a time, so that a single bit tells them apart.

## Main definitions

* `Rules.Fresh`, `Rules.Ahead` — the requests under way.

## Main results

* `Rules.Ahead.fetch`, `Rules.Ahead.discard`, `Rules.Ahead.advance`, `Rules.Ahead.redirect` — what may be done with
  them.
-/

namespace Rules

variable {ι : Type*} {w : ℕ} {succ : ι → ι} {e : BitVec w} {a z i : ι} {q : List (BitVec w × ι)}

/-- The requests of the epoch `e` for `a`, `succ a` and so on up to but not including `z`. -/
inductive Fresh (succ : ι → ι) (e : BitVec w) : ι → List (BitVec w × ι) → ι → Prop
  | nil {a : ι} : Fresh succ e a [] a
  | cons {a z : ι} {q : List (BitVec w × ι)} : Fresh succ e (succ a) q z → Fresh succ e a ((e, a) :: q) z

/-- The requests under way in the epoch `e`: those of the epoch before, then those from `a` on. The next one is
for `z`. -/
inductive Ahead (succ : ι → ι) (e : BitVec w) (a : ι) : List (BitVec w × ι) → ι → Prop
  | fresh {z : ι} {q : List (BitVec w × ι)} : Fresh succ e a q z → Ahead succ e a q z
  | stale {z : ι} {q : List (BitVec w × ι)} (i : ι) : Ahead succ e a q z → Ahead succ e a ((e - 1, i) :: q) z

namespace Fresh

lemma concat (h : Fresh succ e a q z) : Fresh succ e a (q ++ [(e, z)]) (succ z) := by
  induction h with
  | nil => exact .cons .nil
  | cons _ ih => exact .cons ih

lemma fst_eq (h : Fresh succ e a q z) {p : BitVec w × ι} (hp : p ∈ q) : p.1 = e := by
  induction h with
  | nil => cases hp
  | cons _ ih =>
    rcases List.mem_cons.mp hp with rfl | hmem
    · rfl
    · exact ih hmem

end Fresh

namespace Ahead

/-- Nothing is under way. -/
lemma nil : Ahead succ e a [] a := .fresh .nil

/-- The next request. -/
lemma fetch (h : Ahead succ e a q z) : Ahead succ e a (q ++ [(e, z)]) (succ z) := by
  induction h with
  | fresh hf => exact .fresh hf.concat
  | stale i _ ih => exact .stale i ih

/-- A request of another epoch is thrown away. -/
lemma discard {e' : BitVec w} (h : Ahead succ e a ((e', i) :: q) z) (hne : e' ≠ e) : Ahead succ e a q z := by
  cases h with
  | fresh hf =>
    cases hf
    exact absurd rfl hne
  | stale _ hq => exact hq

/-- A request of this epoch is for the index that is wanted, and everything behind it is of this epoch. -/
lemma head (hw : 0 < w) (h : Ahead succ e a ((e, i) :: q) z) : i = a ∧ Fresh succ e (succ a) q z := by
  generalize he : (e, i) :: q = l at h
  cases h with
  | fresh hf =>
    cases hf with
    | nil => cases he
    | cons hf =>
      cases he
      exact ⟨rfl, hf⟩
  | stale _ _ =>
    have hone : e = e - 1 := by
      injection he with h₁ _
      injection h₁
    have hzero : (1 : BitVec w) = 0 := by
      rw [eq_comm, BitVec.sub_eq_iff_eq_add] at hone
      exact BitVec.add_right_eq_self.mp hone.symm
    have hlt : 1 < 2 ^ w := Nat.one_lt_two_pow hw.ne'
    have hnat := congrArg BitVec.toNat hzero
    simp [Nat.mod_eq_of_lt hlt] at hnat

/-- The index was right. -/
lemma advance (hw : 0 < w) (h : Ahead succ e a ((e, i) :: q) z) : Ahead succ e (succ a) q z :=
  .fresh (h.head hw).2

/-- All requests of an epoch are those of the epoch before the next. -/
lemma of_fresh {b c : ι} (h : Fresh succ e b q z) : Ahead succ (e + 1) c q c := by
  induction h with
  | nil => exact nil
  | @cons b z q _ ih =>
    have he : e = e + 1 - 1 := (BitVec.add_sub_cancel e 1).symm
    conv in (e, b) => rw [he]
    exact .stale b ih

/-- The index was wrong: a new epoch begins. -/
lemma redirect (hw : 0 < w) (h : Ahead succ e a ((e, i) :: q) z) (b : ι) : Ahead succ (e + 1) b q b :=
  of_fresh (h.head hw).2

end Ahead

end Rules
