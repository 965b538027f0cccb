import Mathlib.Data.BitVec
import Mathlib.Logic.Function.Basic
import Mathlib.Tactic.Ring
import Xbsv.Loops.While

set_option relaxedAutoImplicit false
set_option autoImplicit false

/-!
# `mp.h`

The string search that the software runs itself, and the table that it hands to the engine. Characters of the
needle `x` and of the haystack `t` are numbered from 1 as `i` and `j`; position 0 of a string is its first
character.

## Main definitions

* `Xbsv.computeMPNext`, `Xbsv.MP` — the functions of the source.
* `Xbsv.Falls` — a table whose entries are below their index.
* `Xbsv.MP.Reports` — what is reported from the head of the inner loop on.
* `Xbsv.MP.EndsInMatch` — the last character of the haystack completes the needle.
* `Xbsv.MP.Finds` — what is found when the tests are made in the order of the engine.

## Main results

* `Xbsv.exists_computeMPNext` — the table that the software computes falls.
* `Xbsv.exists_MP` — with a table that falls the search returns.
* `Xbsv.MP.Reports.mem_iff` — the position `n - m` is reported if and only if the haystack ends in a match.
* `Xbsv.MP.Reports.toFinds` — in the order of the engine all other positions are found.
-/

namespace Xbsv

open Loops

/-! ## The source -/

/-- One round of the `for` loop of `compute_MP_next`. -/
def computeMPNext.round (x : ℕ → BitVec 8) (i : ℕ) (s : (ℕ → ℕ) × ℕ) : Option ((ℕ → ℕ) × ℕ) := do
  let j ← whileLoop (fun j => decide (0 < j) && x i != x j) (fun j => some (s.1 j)) (i + 1) s.2
  return (Function.update s.1 (i + 1) (j + 1), j + 1)

/-- `compute_MP_next`: the rounds for `1, …, m`, from what was in the array before. -/
def computeMPNext (x : ℕ → BitVec 8) (MP_next : ℕ → ℕ) : ℕ → Option ((ℕ → ℕ) × ℕ)
  | 0 => some (Function.update MP_next 1 0, 0)
  | m + 1 => (computeMPNext x MP_next m).bind (computeMPNext.round x (m + 1))

section Source

variable (x t : ℕ → BitVec 8) (MP_next : ℕ → ℕ) (m : ℕ)

/-- The test of the inner loop of `MP`. -/
def MP.fallsBack (i j : ℕ) : Bool := i == m + 1 || (decide (0 < i) && x (i - 1) != t (j - 1))

/-- The inner loop of `MP`. -/
def MP.fallBack (j i : ℕ) : Option ℕ :=
  whileLoop (fun i => MP.fallsBack x t m i j) (fun i => some (MP_next i)) (m + 2) i

/-- The variables `i` and `j` of `MP`, and the positions that it has printed. -/
structure MP.State where
  i : ℕ
  j : ℕ
  positions : List ℤ

/-- One round of the outer loop of `MP`. -/
def MP.round (s : MP.State) : Option MP.State := do
  let i ← MP.fallBack x t MP_next m s.j s.i
  let i := i + 1
  let j := s.j + 1
  return if i == m + 1 then ⟨1, j, s.positions ++ [(j : ℤ) - i]⟩ else ⟨i, j, s.positions⟩

/-- One iteration of `MP`: the positions that it prints, as many as it adds to `match_cnt`. -/
def MP (n : ℕ) : Option (List ℤ) := do
  let s ← whileLoop (fun s => decide (s.j ≤ n)) (MP.round x t MP_next m) (n + 1) ⟨1, 1, []⟩
  return s.positions

end Source

/-! ## The table -/

/-- The entries of a table are below their index. -/
def Falls (MP_next : ℕ → ℕ) (m : ℕ) : Prop := ∀ i, 1 ≤ i → i ≤ m → MP_next i < i

/-- A round of `compute_MP_next`. -/
lemma exists_computeMPNext_round {x : ℕ → BitVec 8} {i : ℕ} {s : (ℕ → ℕ) × ℕ} (hT : Falls s.1 i) (hj : s.2 < i) :
    ∃ s', computeMPNext.round x i s = some s' ∧ Falls s'.1 (i + 1) ∧ s'.2 < i + 1 := by
  have hround : ∀ j, j < i → (decide (0 < j) && x i != x j) = true →
      ∃ j', some (s.1 j) = some j' ∧ j' < i ∧ j' < j := by
    intro j hji htest
    have hpos : 0 < j := by
      simp only [Bool.and_eq_true, decide_eq_true_eq] at htest
      exact htest.1
    have hlt := hT j hpos hji.le
    exact ⟨s.1 j, rfl, hlt.trans hji, hlt⟩
  obtain ⟨j, hloop, hji, -⟩ := exists_whileLoop hround hj (Nat.lt_succ_of_lt hj)
  refine ⟨_, by rw [computeMPNext.round, hloop]; rfl, fun k hk hki => ?_, Nat.succ_lt_succ hji⟩
  show Function.update s.1 (i + 1) (j + 1) k < k
  by_cases heq : k = i + 1
  · subst heq
    rw [Function.update_self]
    exact Nat.succ_lt_succ hji
  · rw [Function.update_of_ne heq]
    exact hT k hk (by omega)

/-- **`compute_MP_next` returns, and the table falls.** -/
theorem exists_computeMPNext (x : ℕ → BitVec 8) (MP_next : ℕ → ℕ) (m : ℕ) :
    ∃ s, computeMPNext x MP_next m = some s ∧ Falls s.1 (m + 1) ∧ s.2 < m + 1 := by
  induction m with
  | zero =>
    refine ⟨_, rfl, fun i hi hi' => ?_, Nat.zero_lt_one⟩
    obtain rfl : i = 1 := by omega
    show Function.update MP_next 1 0 1 < 1
    rw [Function.update_self]
    exact Nat.zero_lt_one
  | succ m ih =>
    obtain ⟨s, hs, hT, hj⟩ := ih
    obtain ⟨s', hs', hT', hj'⟩ := exists_computeMPNext_round hT hj
    exact ⟨s', by rw [computeMPNext, hs, Option.bind_some, hs'], hT', hj'⟩

/-! ## The search -/

namespace MP

variable {x t : ℕ → BitVec 8} {T : ℕ → ℕ} {m n : ℕ}

lemma fallsBack_eq_true {i j : ℕ} :
    fallsBack x t m i j = true ↔ i = m + 1 ∨ 0 < i ∧ x (i - 1) ≠ t (j - 1) := by
  simp [fallsBack]

lemma fallsBack_eq_false {i j : ℕ} :
    fallsBack x t m i j = false ↔ i ≠ m + 1 ∧ (0 < i → x (i - 1) = t (j - 1)) := by
  simp [fallsBack]

/-- What is reported from the head of the inner loop on, with the index `i` at the character `j`. -/
inductive Reports (x t : ℕ → BitVec 8) (T : ℕ → ℕ) (m n : ℕ) : ℕ → ℕ → List ℤ → Prop
  /-- The haystack has been read. -/
  | returns {i j : ℕ} : n < j → Reports x t T m n i j []
  /-- The table gives a smaller index. -/
  | falls {i j : ℕ} {ps : List ℤ} :
    j ≤ n → fallsBack x t m i j = true → Reports x t T m n (T i) j ps → Reports x t T m n i j ps
  /-- The next characters. -/
  | reads {i j : ℕ} {ps : List ℤ} :
    j ≤ n → fallsBack x t m i j = false → i ≠ m → Reports x t T m n (i + 1) (j + 1) ps →
    Reports x t T m n i j ps
  /-- The needle is complete. -/
  | finds {i j : ℕ} {ps : List ℤ} :
    j ≤ n → fallsBack x t m i j = false → i = m → Reports x t T m n 1 (j + 1) ps →
    Reports x t T m n i j (((j : ℤ) - m) :: ps)

/-- With a table that falls the inner loop ends, with an index that is not larger. -/
lemma exists_fallBack (hT : Falls T m) {i : ℕ} (hi : i ≤ m) (j : ℕ) :
    ∃ i', fallBack x t T m j i = some i' ∧ i' ≤ m ∧ fallsBack x t m i' j = false := by
  have hround : ∀ k, k ≤ m → fallsBack x t m k j = true →
      ∃ k', some (T k) = some k' ∧ k' ≤ m ∧ k' < k := by
    intro k hk htest
    have hpos : 0 < k := by
      rcases fallsBack_eq_true.mp htest with h | h <;> omega
    have hlt := hT k hpos hk
    exact ⟨T k, rfl, by omega, hlt⟩
  exact exists_whileLoop hround hi (by omega)

/-- What is reported after the inner loop is what is reported before. -/
lemma Reports.of_fallBack {i i' j : ℕ} {ps : List ℤ} (hj : j ≤ n) (h : fallBack x t T m j i = some i')
    (hr : Reports x t T m n i' j ps) : Reports x t T m n i j ps := by
  have hback : Reports x t T m n i' j ps → Reports x t T m n i j ps := by
    refine whileLoop_rule (R := fun i i' => Reports x t T m n i' j ps → Reports x t T m n i j ps) ?_ ?_ h
    · intro i _ hi
      exact hi
    · intro i i₁ i₂ htest hnext hrest hi
      cases hnext
      exact .falls hj htest (hrest hi)
  exact hback hr

/-- A round of the outer loop. -/
lemma exists_round (hT : Falls T m) (hm : 1 ≤ m) {s : State} (hi : s.i ≤ m) :
    ∃ s', round x t T m s = some s' ∧ s'.i ≤ m ∧ s'.j = s.j + 1 := by
  obtain ⟨i, hloop, hle, -⟩ := exists_fallBack (x := x) (t := t) hT hi s.j
  by_cases heq : i + 1 = m + 1
  · refine ⟨⟨1, s.j + 1, s.positions ++ [((s.j + 1 : ℕ) : ℤ) - (i + 1 : ℕ)]⟩, ?_, hm, rfl⟩
    obtain rfl : i = m := by omega
    rw [round, hloop]
    simp
  · refine ⟨⟨i + 1, s.j + 1, s.positions⟩, ?_, by simp only; omega, rfl⟩
    rw [round, hloop]
    simpa using heq

/-- The outer loop adds the positions that are reported. -/
lemma reports_of_whileLoop {fuel : ℕ} {s s' : State}
    (h : whileLoop (fun s => decide (s.j ≤ n)) (round x t T m) fuel s = some s') :
    ∃ ps, s'.positions = s.positions ++ ps ∧ Reports x t T m n s.i s.j ps := by
  refine whileLoop_rule (R := fun s s' => ∃ ps, s'.positions = s.positions ++ ps ∧ Reports x t T m n s.i s.j ps)
    ?_ ?_ h
  · intro s hs
    exact ⟨[], (List.append_nil _).symm, .returns (by simpa using hs)⟩
  · intro s s₁ s₂ hs hround hrest
    have hj : s.j ≤ n := by simpa using hs
    obtain ⟨ps, hps, hr⟩ := hrest
    simp only [round, Option.bind_eq_bind, Option.bind_eq_some_iff, pure, Option.some.injEq] at hround
    obtain ⟨i, hloop, rfl⟩ := hround
    have hout : fallsBack x t m i s.j = false :=
      (whileLoop_rule (R := fun _ i => fallsBack x t m i s.j = false) (fun _ hi => hi)
        (fun _ _ _ _ _ hi => hi) hloop)
    by_cases heq : i = m
    · rw [if_pos (by simp [heq])] at hps hr
      refine ⟨((s.j : ℤ) - m) :: ps, ?_, Reports.of_fallBack hj hloop (.finds hj hout heq hr)⟩
      rw [hps, List.append_assoc, List.singleton_append]
      congr 2
      push_cast
      omega
    · rw [if_neg (by simpa using heq)] at hps hr
      exact ⟨ps, hps, Reports.of_fallBack hj hloop (.reads hj hout heq hr)⟩

/-- The index when the first `k` characters have been read. -/
def index (x t : ℕ → BitVec 8) (T : ℕ → ℕ) (m : ℕ) : ℕ → Option ℕ
  | 0 => some 1
  | k + 1 => (index x t T m k).bind fun i =>
    (fallBack x t T m (k + 1) i).map fun i => if i = m then 1 else i + 1

/-- The last character of the haystack is compared with the last one of the needle, and they are equal. -/
def EndsInMatch (x t : ℕ → BitVec 8) (T : ℕ → ℕ) (m n : ℕ) : Prop :=
  0 < n ∧ (index x t T m (n - 1)).bind (fallBack x t T m n) = some m

instance : Decidable (EndsInMatch x t T m n) := inferInstanceAs (Decidable (_ ∧ _))

/-- A position is reported when the character that completes the needle has been read. -/
lemma Reports.le_of_mem {i j : ℕ} {ps : List ℤ} (h : Reports x t T m n i j ps) {p : ℤ} (hp : p ∈ ps) :
    (j : ℤ) ≤ p + m ∧ p + m ≤ n := by
  induction h with
  | returns _ => cases hp
  | falls _ _ _ ih => exact ih hp
  | reads _ _ _ _ ih =>
    have hle := ih hp
    push_cast at hle
    omega
  | @finds i j ps hj _ _ _ ih =>
    rcases List.mem_cons.mp hp with rfl | hmem
    · omega
    · have hle := ih hmem
      push_cast at hle
      omega

/-- What is reported from the head of the outer loop on, in terms of the inner loop. -/
lemma Reports.exists_fallBack (hT : Falls T m) {i j : ℕ} {ps : List ℤ} (h : Reports x t T m n i j ps)
    (hi : i ≤ m) : ∃ i', fallBack x t T m j i = some i' ∧ i' ≤ m ∧ fallsBack x t m i' j = false ∧
      Reports x t T m n i' j ps := by
  obtain ⟨i', hloop, hle, hout⟩ := MP.exists_fallBack (x := x) (t := t) hT hi j
  refine ⟨i', hloop, hle, hout, ?_⟩
  have hback : Reports x t T m n i j ps → Reports x t T m n i' j ps := by
    refine whileLoop_rule (R := fun i i' => Reports x t T m n i j ps → Reports x t T m n i' j ps) ?_ ?_ hloop
    · intro i _ hr
      exact hr
    · intro i i₁ i₂ htest hnext hrest hr
      cases hnext
      refine hrest ?_
      cases hr with
      | returns hlt => exact .returns hlt
      | falls _ _ hr => exact hr
      | reads _ hno => rw [htest] at hno; cases hno
      | finds _ hno => rw [htest] at hno; cases hno
  exact hback h

/-- **The last position is reported if and only if the haystack ends in a match.** -/
theorem Reports.mem_iff (hT : Falls T m) (hm : 1 ≤ m) {k i : ℕ} {ps : List ℤ} (hk : k < n)
    (hi : index x t T m k = some i) (hle : i ≤ m) (h : Reports x t T m n i (k + 1) ps) :
    (n : ℤ) - m ∈ ps ↔ EndsInMatch x t T m n := by
  obtain ⟨d, hd⟩ := Nat.exists_eq_add_of_lt hk
  induction d generalizing k i ps with
  | zero =>
    obtain ⟨i', hloop, -, hout, hr⟩ := h.exists_fallBack hT hle
    have hkn : n - 1 = k := by omega
    have hn : k + 1 = n := by omega
    have hends : EndsInMatch x t T m n ↔ i' = m := by
      rw [EndsInMatch, hkn, hi, Option.bind_some, ← hn, hloop, Option.some.injEq]
      exact and_iff_right k.succ_pos
    rw [hends]
    cases hr with
    | returns hlt => omega
    | falls _ hno => rw [hout] at hno; cases hno
    | reads _ _ hne hr =>
      refine iff_of_false (fun hmem => ?_) hne
      have := hr.le_of_mem hmem
      omega
    | finds _ _ heq hr =>
      refine iff_of_true ?_ heq
      rw [hn]
      exact List.mem_cons_self
  | succ d ih =>
    obtain ⟨i', hloop, hle', hout, hr⟩ := h.exists_fallBack hT hle
    have hindex : index x t T m (k + 1) = some (if i' = m then 1 else i' + 1) := by
      rw [index, hi, Option.bind_some, hloop, Option.map_some]
    cases hr with
    | returns hlt => omega
    | falls _ hno => rw [hout] at hno; cases hno
    | reads _ _ hne hr =>
      rw [if_neg hne] at hindex
      exact ih (by omega) hindex (by omega) hr (by omega)
    | finds _ _ heq hr =>
      rw [if_pos heq] at hindex
      -- this position is not the last one
      have hne : (n : ℤ) - m ≠ ((k + 1 : ℕ) : ℤ) - m := by omega
      rw [List.mem_cons, or_iff_right hne]
      exact ih (by omega) hindex hm hr (by omega)

/-! ## The order of the engine's tests -/

/-- What is found from the index `i` at the character `j` on when the end of the haystack is looked for first, and
then the end of the needle. -/
inductive Finds (x t : ℕ → BitVec 8) (T : ℕ → ℕ) (m n : ℕ) : ℕ → ℕ → List ℤ → Prop
  /-- The haystack has been read. -/
  | ends {i j : ℕ} : n < j → Finds x t T m n i j []
  /-- The needle is complete. -/
  | found {j : ℕ} {ps : List ℤ} :
    j ≤ n → Finds x t T m n 1 j ps → Finds x t T m n (m + 1) j (((j : ℤ) - (m + 1)) :: ps)
  /-- The table gives a smaller index. -/
  | falls {i j : ℕ} {ps : List ℤ} :
    j ≤ n → i ≠ m + 1 → 0 < i → x (i - 1) ≠ t (j - 1) → Finds x t T m n (T i) j ps → Finds x t T m n i j ps
  /-- The next characters. -/
  | reads {i j : ℕ} {ps : List ℤ} :
    j ≤ n → i ≠ m + 1 → (0 < i → x (i - 1) = t (j - 1)) → Finds x t T m n (i + 1) (j + 1) ps →
    Finds x t T m n i j ps

/-- **In that order everything is found but a match at the end of the haystack.** -/
theorem Reports.toFinds (hT : Falls T m) (hm : 1 ≤ m) {i j : ℕ} {ps : List ℤ} (h : Reports x t T m n i j ps)
    (hi : i ≤ m) : Finds x t T m n i j (ps.filter fun p => p + m ≠ n) := by
  induction h with
  | returns hlt => exact .ends hlt
  | @falls i j ps hj htest _ ih =>
    have hne : i ≠ m + 1 := by omega
    obtain ⟨hpos, hchar⟩ := (fallsBack_eq_true.mp htest).resolve_left hne
    have hlt := hT i hpos hi
    exact .falls hj hne hpos hchar (ih (by omega))
  | reads hj htest hne _ ih =>
    obtain ⟨hne', hchar⟩ := fallsBack_eq_false.mp htest
    exact .reads hj hne' hchar (ih (by omega))
  | @finds i j ps hj htest heq hr ih =>
    obtain ⟨hne, hchar⟩ := fallsBack_eq_false.mp htest
    subst heq
    refine .reads hj hne hchar ?_
    rcases Nat.lt_or_ge n (j + 1) with hlt | hge
    · -- the last character: the haystack ends before the match is seen
      have hnil : ps = [] := by
        cases hr with
        | returns _ => rfl
        | falls hj' => omega
        | reads hj' => omega
        | finds hj' => omega
      have hlast : (j : ℤ) - i + i = n := by omega
      rw [hnil, List.filter_cons_of_neg (by simpa using hlast), List.filter_nil]
      exact .ends hlt
    · have hkept : (j : ℤ) - i + i ≠ n := by omega
      have hpos : (j : ℤ) - i = ((j + 1 : ℕ) : ℤ) - (i + 1) := by push_cast; ring
      rw [List.filter_cons_of_pos (by simpa using hkept), hpos]
      exact .found hge (ih hm)

end MP

/-- **With a table that falls `MP` returns**, and what it prints is what is reported. -/
theorem exists_MP {x t : ℕ → BitVec 8} {T : ℕ → ℕ} {m : ℕ} (hm : 1 ≤ m) (hT : Falls T m) (n : ℕ) :
    ∃ ps, MP x t T m n = some ps ∧ MP.Reports x t T m n 1 1 ps := by
  have hround : ∀ s : MP.State, s.i ≤ m → decide (s.j ≤ n) = true →
      ∃ s', MP.round x t T m s = some s' ∧ s'.i ≤ m ∧ n + 1 - s'.j < n + 1 - s.j := by
    intro s hi hj
    obtain ⟨s', hs', hi', hj'⟩ := MP.exists_round (x := x) (t := t) hT hm hi
    have hle : s.j ≤ n := by simpa using hj
    exact ⟨s', hs', hi', by omega⟩
  obtain ⟨s, hloop, -, -⟩ := exists_whileLoop (s := ⟨1, 1, []⟩) hround hm (show n + 1 - 1 < n + 1 by omega)
  obtain ⟨ps, hps, hr⟩ := MP.reports_of_whileLoop hloop
  refine ⟨ps, ?_, hr⟩
  rw [MP, hloop]
  exact congrArg some hps

end Xbsv
