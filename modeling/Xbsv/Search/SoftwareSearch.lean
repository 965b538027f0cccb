import Xbsv.Search.Borders
import Xbsv.Strings.Restart

set_option relaxedAutoImplicit false
set_option autoImplicit false

/-!
# The software search

`MP` over arrays, with the table that `compute_MP_next` makes of the same string. The table is made of the
characters from 1 on, as in the pseudo-code, while the search compares those from 0 on. So every entry refers to a
place with the character that has just been found to differ, and the search starts again wherever it goes back.

## Main definitions

* `Xbsv.Arrays.MP` — the function of the source.
* `Xbsv.Arrays.Searches` — one iteration finds the occurrences from left to right.

## Main results

* `Xbsv.Arrays.exists_MP` — within the bounds and the range of `int`, the search is `Xbsv.MP`.
* `Xbsv.Arrays.reports_eq_scan` — with this table the search is the one that starts again.
* `Xbsv.Arrays.searches_iff` — the needles for which the search is right.
-/

namespace Xbsv.Arrays

open Loops Strings

/-! ## The source -/

section Source

variable (fuel : ℕ) (x t : List (BitVec 8)) (MP_next : List ℤ) (m : ℤ)

/-- The test of the inner loop of `MP`. -/
def MP.fallsBack (i j : ℤ) : Option Bool := do
  if i = (← C.int (m + 1)) then return true
  else if 0 < i then return (← C.get x (i - 1)) != (← C.get t (j - 1))
  else return false

/-- The variables `i` and `j` of `MP`, and the positions that it has printed. -/
structure MP.State where
  i : ℤ
  j : ℤ
  positions : List ℤ

/-- One round of the outer loop of `MP`. -/
def MP.round (s : MP.State) : Option MP.State := do
  let i ← C.loop (fun i => MP.fallsBack x t m i s.j) (fun i => C.get MP_next i) fuel s.i
  let i ← C.int (i + 1)
  let j ← C.int (s.j + 1)
  if i = (← C.int (m + 1)) then return ⟨1, j, s.positions ++ [← C.int (j - i)]⟩
  else return ⟨i, j, s.positions⟩

/-- One iteration of `MP`: the positions that it prints, as many as it adds to `match_cnt`. -/
def MP (n : ℤ) : Option (List ℤ) := do
  let s ← C.loop (fun s => some (decide (s.j ≤ n))) (MP.round fuel x t MP_next m) fuel ⟨1, 1, []⟩
  return s.positions

end Source

/-! ## The bounds -/

variable {x t : List (BitVec 8)} {MP_next : List ℤ} {T : ℕ → ℕ} {m n fuel : ℕ}

/-- The test of the inner loop. -/
lemma fallsBack_eq (hx : m ≤ x.length) (ht : n ≤ t.length) (hm : m + 1 < 2 ^ 31) {i j : ℕ} (hi : i ≤ m)
    (hj : 1 ≤ j) (hjn : j ≤ n) :
    MP.fallsBack x t m i j = some (Xbsv.MP.fallsBack (chars x) (chars t) m i j) := by
  have hne : ¬(i : ℤ) = (m : ℤ) + 1 := by omega
  have hne' : (i == m + 1) = false := by
    rw [beq_eq_false_iff_ne]
    omega
  rw [MP.fallsBack, C.int_of_lt (by omega) (by omega), C.some_bind, if_neg hne, Xbsv.MP.fallsBack, hne',
    Bool.false_or]
  rcases Nat.eq_zero_or_pos i with rfl | hpos
  · rfl
  · have hpred : (i : ℤ) - 1 = (i - 1 : ℕ) := by omega
    have hpred' : (j : ℤ) - 1 = (j - 1 : ℕ) := by omega
    rw [if_pos (by omega), hpred, C.get_natCast, get_chars (by omega), C.some_bind, hpred', C.get_natCast,
      get_chars (by omega), C.some_bind, decide_eq_true hpos, Bool.true_and]
    rfl

/-- The states with the bounds and those without. -/
structure Same (m n : ℕ) (s : MP.State) (s' : Xbsv.MP.State) : Prop where
  i : s.i = s'.i
  j : s.j = s'.j
  positions : s.positions = s'.positions
  i_le : s'.i ≤ m
  one_le_j : 1 ≤ s'.j
  i_le_j : s'.i ≤ s'.j

/-- A round of the outer loop. -/
lemma Same.round (hx : m ≤ x.length) (ht : n ≤ t.length) (hm : m + 1 < 2 ^ 31) (hn : n + 1 < 2 ^ 31)
    (h₁ : 1 ≤ m) (hT : Falls T m) (hnext : ∀ i, 1 ≤ i → i ≤ m → MP_next[i]? = some (T i : ℤ)) (hfuel : m + 1 < fuel)
    {s : MP.State} {s' s₁' : Xbsv.MP.State} (hs : Same m n s s') (hj : s'.j ≤ n)
    (hround : Xbsv.MP.round (chars x) (chars t) T m s' = some s₁') :
    ∃ s₁, MP.round fuel x t MP_next m s = some s₁ ∧ Same m n s₁ s₁' := by
  obtain ⟨i, hloop, heq⟩ := Option.bind_eq_some_iff.mp hround
  obtain ⟨_, hi, rfl, hle, hij⟩ := C.exists_loop (R := fun (i : ℤ) (i' : ℕ) => i = i' ∧ i' ≤ m ∧ i' ≤ s'.j)
    (p := fun i => MP.fallsBack x t m i s'.j) (f := fun i => C.get MP_next i)
    (by
      rintro _ i ⟨rfl, hi, -⟩
      exact fallsBack_eq hx ht hm hi hs.one_le_j hj)
    (by
      rintro _ i i' ⟨rfl, hi, hij⟩ htest hnext'
      cases hnext'
      have hpos : 0 < i := by
        rcases Xbsv.MP.fallsBack_eq_true.mp htest with h | h <;> omega
      have hlt := hT i hpos hi
      refine ⟨_, ?_, rfl, by omega, by omega⟩
      rw [C.get_natCast, hnext i hpos hi])
    ⟨rfl, hs.i_le, hs.i_le_j⟩ (by omega : m + 2 ≤ fuel) hloop
  have hcases : s₁' = if i + 1 = m + 1 then ⟨1, s'.j + 1, s'.positions ++ [((s'.j + 1 : ℕ) : ℤ) - (i + 1 : ℕ)]⟩
      else ⟨i + 1, s'.j + 1, s'.positions⟩ := by
    rw [← Option.some.inj heq]
    by_cases him : i = m <;> simp [him]
  have hnexti : C.int ((i : ℤ) + 1) = some ((i : ℤ) + 1) := C.int_of_lt (by omega) (by omega)
  have hnextj : C.int ((s'.j : ℤ) + 1) = some ((s'.j : ℤ) + 1) := C.int_of_lt (by omega) (by omega)
  have hend : C.int ((m : ℤ) + 1) = some ((m : ℤ) + 1) := C.int_of_lt (by omega) (by omega)
  rw [MP.round, hs.i, hs.j, hi, C.some_bind, hnexti, C.some_bind, hnextj, C.some_bind, hend, C.some_bind, hcases,
    hs.positions]
  have hsucc : ((i : ℤ) + 1 = m + 1) ↔ i + 1 = m + 1 := by omega
  by_cases him : i + 1 = m + 1
  · have hstart : C.int ((s'.j : ℤ) + 1 - (i + 1)) = some ((s'.j : ℤ) + 1 - (i + 1)) :=
      C.int_of_lt (by omega) (by omega)
    rw [if_pos (hsucc.mpr him), if_pos him, hstart, C.some_bind]
    refine ⟨_, rfl, rfl, ?_, ?_, by simp only; omega, by simp only; omega, by simp only; omega⟩
    · push_cast
      rfl
    · push_cast
      rfl
  · rw [if_neg (fun h => him (hsucc.mp h)), if_neg him]
    refine ⟨_, rfl, ?_, ?_, rfl, by simp only; omega, by simp only; omega, by simp only; omega⟩
    · push_cast
      rfl
    · push_cast
      rfl

/-- **`MP` returns**, and its accesses are within the bounds. -/
theorem exists_MP (hx : m ≤ x.length) (ht : n ≤ t.length) (hm : m + 1 < 2 ^ 31) (hn : n + 1 < 2 ^ 31) (h₁ : 1 ≤ m)
    (hT : Falls T m) (hnext : ∀ i, 1 ≤ i → i ≤ m → MP_next[i]? = some (T i : ℤ)) (hfuel : m + 1 < fuel)
    (hfuel' : n < fuel) :
    ∃ ps, MP fuel x t MP_next m n = some ps ∧ Xbsv.MP.Reports (chars x) (chars t) T m n 1 1 ps := by
  obtain ⟨ps, hps, hreports⟩ := Xbsv.exists_MP (x := chars x) (t := chars t) h₁ hT n
  refine ⟨ps, ?_, hreports⟩
  obtain ⟨s', hs', hpos⟩ := Option.bind_eq_some_iff.mp hps
  cases hpos
  obtain ⟨s, hs, hsame⟩ := C.exists_loop (R := Same m n) (p := fun s => some (decide (s.j ≤ (n : ℤ))))
    (f := MP.round fuel x t MP_next m)
    (by
      intro s s' hsame
      rw [hsame.j]
      simp)
    (by
      intro s s' s₁' hsame hj hround
      exact hsame.round hx ht hm hn h₁ hT hnext hfuel (by simpa using hj) hround)
    (s := ⟨1, 1, []⟩) ⟨rfl, rfl, rfl, h₁, le_rfl, le_rfl⟩ (by omega : n + 1 ≤ fuel) hs'
  rw [MP, hs, C.some_bind, hsame.positions]
  rfl

/-! ## Where the search goes back -/

/-- Every entry refers to the beginning, or to a place with the character that has been found to differ. -/
lemma table_char (x : List (BitVec 8)) {k i : ℕ} (h₂ : 2 ≤ i) (hi : i ≤ k + 1) :
    1 ≤ (table x k).1 i ∧ ((table x k).1 i = 1 ∨ chars x ((table x k).1 i - 1) = chars x (i - 1)) := by
  induction k with
  | zero => omega
  | succ k ih =>
    rcases Nat.lt_or_eq_of_le hi with hlt | rfl
    · rw [table_succ_of_le x (by omega)]
      exact ih (by omega)
    · obtain ⟨j, hloop, heq⟩ := table_succ x k
      have hentry : (table x (k + 1)).1 (k + 1 + 1) = j + 1 := by
        rw [heq]
        exact Function.update_self ..
      have hout : (decide (0 < j) && chars x (k + 1) != chars x j) = false :=
        whileLoop_rule (R := fun _ j => (decide (0 < j) && chars x (k + 1) != chars x j) = false) (fun _ h => h)
          (fun _ _ _ _ _ h => h) hloop
      rw [hentry]
      refine ⟨by omega, ?_⟩
      rcases Nat.eq_zero_or_pos j with rfl | hpos
      · exact .inl rfl
      · right
        rw [decide_eq_true hpos, Bool.true_and, bne_eq_false_iff_eq] at hout
        rw [Nat.add_sub_cancel, Nat.add_sub_cancel, hout]

/-- The first entry. -/
lemma table_one (x : List (BitVec 8)) (k : ℕ) : (table x k).1 1 = 0 := by
  have hlt := table_lt x (show 1 ≤ 1 by omega) (show 1 ≤ k + 1 by omega)
  omega

/-- What the search that starts again finds from the head of the inner loop on. -/
def after (x t : List (BitVec 8)) (i j : ℕ) : List ℕ :=
  if i = 0 then scan x 0 j (t.drop j) else scan x (i - 1) (j - 1) (t.drop (j - 1))

lemma after_pos {i : ℕ} (hi : 0 < i) (j : ℕ) : after x t i j = scan x (i - 1) (j - 1) (t.drop (j - 1)) :=
  if_neg (by omega)

variable {i j : ℕ}

/-- The character at `j` is the next one of the text. -/
lemma drop_pred (hj : 1 ≤ j) (hjn : j ≤ t.length) : t.drop (j - 1) = chars t (j - 1) :: t.drop j := by
  have hlt : j - 1 < t.length := by omega
  have hchar : chars t (j - 1) = t[j - 1] := by
    rw [chars, List.getD_eq_getElem t 0 hlt]
  rw [List.drop_eq_getElem_cons hlt, hchar, Nat.sub_add_cancel hj]

/-- Going back is starting again. -/
lemma after_table {y : List (BitVec 8)} (hy : ∀ k < x.length, chars y k = chars x k) (hi : 0 < i) (him : i ≤ x.length)
    (hj : 1 ≤ j) (hjn : j ≤ t.length) (hne : chars x (i - 1) ≠ chars t (j - 1)) :
    after x t ((table y x.length).1 i) j = after x t i j := by
  have hchar : ∀ k < x.length, x[k]? = some (chars x k) := fun k hk => get_chars hk
  have hdiff : x[i - 1]? ≠ some (chars t (j - 1)) := by
    rw [hchar (i - 1) (by omega)]
    exact fun h => hne (Option.some.inj h)
  rw [after_pos hi, drop_pred hj hjn, scan_cons_ne hdiff, Nat.sub_add_cancel hj]
  rcases Nat.lt_or_ge i 2 with hone | htwo
  · obtain rfl : i = 1 := by omega
    rw [table_one, after, if_pos rfl, if_neg hdiff]
  · obtain ⟨hpos, hentry⟩ := table_char y htwo (show i ≤ x.length + 1 by omega)
    have hlt := table_lt y (show 1 ≤ i by omega) (show i ≤ x.length + 1 by omega)
    rw [after_pos (by omega), drop_pred hj hjn]
    generalize (table y x.length).1 i = k at *
    rcases hentry with rfl | hsame
    · -- the beginning of the needle is compared with the same character
      by_cases hfirst : x[0]? = some (chars t (j - 1))
      · rw [scan_cons_eq hfirst, if_pos hfirst, if_neg (by omega), Nat.sub_add_cancel hj]
      · rw [scan_cons_ne hfirst, if_neg hfirst, Nat.sub_add_cancel hj]
    · rw [hy _ (by omega), hy _ (by omega)] at hsame
      have hdiff' : x[k - 1]? ≠ some (chars t (j - 1)) := by
        rw [hchar (k - 1) (by omega), hsame]
        exact fun h => hne (Option.some.inj h)
      rw [scan_cons_ne hdiff', Nat.sub_add_cancel hj]

/-- **With its table the search is the one that starts again.** -/
theorem reports_eq_scan {y : List (BitVec 8)} (h₁ : 1 ≤ x.length)
    (hy : ∀ k < x.length, chars y k = chars x k) {ps : List ℤ}
    (h : Xbsv.MP.Reports (chars y) (chars t) (table y x.length).1 x.length t.length i j ps) (hi : i ≤ x.length)
    (hj : 1 ≤ j) (hij : i ≤ j) : ps = (after x t i j).map Nat.cast := by
  induction h with
  | @returns i j hlt =>
    unfold after
    split
    · rw [List.drop_eq_nil_of_le (by omega)]
      rfl
    · rw [List.drop_eq_nil_of_le (by omega)]
      rfl
  | @falls i j ps hjn htest _ ih =>
    obtain ⟨hpos, hne⟩ := (Xbsv.MP.fallsBack_eq_true.mp htest).resolve_left (by omega)
    have hlt := table_lt y hpos (show i ≤ x.length + 1 by omega)
    rw [hy _ (by omega)] at hne
    rw [ih (by omega) hj (by omega), after_table hy hpos hi hj hjn hne]
  | @reads i j ps hjn htest hne _ ih =>
    obtain ⟨-, hchar⟩ := Xbsv.MP.fallsBack_eq_false.mp htest
    rw [ih (by omega) (by omega) (by omega), after_pos (by omega), Nat.add_sub_cancel, Nat.add_sub_cancel]
    congr 1
    rcases Nat.eq_zero_or_pos i with rfl | hpos
    · rw [after, if_pos rfl]
    · have heq : x[i - 1]? = some (chars t (j - 1)) := by
        rw [get_chars (by omega), ← hy _ (by omega), hchar hpos]
      rw [after_pos hpos, drop_pred hj hjn, scan_cons_eq heq, if_neg (by omega), Nat.sub_add_cancel hpos,
        Nat.sub_add_cancel hj]
  | @finds i j ps hjn htest heq _ ih =>
    obtain ⟨-, hchar⟩ := Xbsv.MP.fallsBack_eq_false.mp htest
    have hpos : 0 < i := by omega
    have heq' : x[i - 1]? = some (chars t (j - 1)) := by
      rw [get_chars (by omega), ← hy _ (by omega), hchar hpos]
    have hstart : (j : ℤ) - x.length = ((j - 1 - (i - 1) : ℕ) : ℤ) := by omega
    rw [ih (by omega) (by omega) (by omega), after_pos hpos, drop_pred hj hjn, scan_cons_eq heq', if_pos (by omega),
      List.map_cons, hstart, Nat.sub_add_cancel hj]
    rfl

/-! ## The needles for which the search is right -/

/-- One iteration of `MP` for the string `x`, which ends in a NUL, with the table of `compute_MP_next`: it returns, and
reports the occurrences from left to right. -/
def Searches (x t : List (BitVec 8)) : Prop :=
  ∃ ps, LeftmostFirst x t 0 ps ∧ ∃ k, ∀ fuel, k < fuel → ∀ MP_next : List ℤ, MP_next.length = x.length + 2 →
    ∃ T, computeMPNext fuel (x ++ [0]) MP_next x.length = some T ∧
      MP fuel (x ++ [0]) t T x.length t.length = some (ps.map Nat.cast)

/-- The search returns, and finds what the search that starts again finds. -/
theorem exists_search (h₁ : 1 ≤ x.length) (hx : x.length + 1 < 2 ^ 31) (ht : t.length + 1 < 2 ^ 31)
    (hfuel : x.length + 1 < fuel) (hfuel' : t.length < fuel) (hlen : MP_next.length = x.length + 2) :
    ∃ T, computeMPNext fuel (x ++ [0]) MP_next x.length = some T ∧
      MP fuel (x ++ [0]) t T x.length t.length = some ((scan x 0 0 t).map Nat.cast) := by
  have hstring : (x ++ [0]).length = x.length + 1 := by
    rw [List.length_append, List.length_singleton]
  obtain ⟨T, hT, hentries⟩ := exists_computeMPNext (by omega : x.length < (x ++ [0]).length)
    (by omega : x.length + 1 < MP_next.length) hx (by omega : x.length < fuel)
  have hfalls : Falls (table (x ++ [0]) x.length).1 x.length := fun i hi him =>
    table_lt _ hi (by omega)
  obtain ⟨ps, hps, hreports⟩ := exists_MP (x := x ++ [0]) (by omega) (Nat.le_refl t.length) hx ht h₁ hfalls
    (fun i hi him => hentries i hi (by omega)) hfuel hfuel'
  have hchars : ∀ k < x.length, chars (x ++ [0]) k = chars x k := by
    intro k hk
    rw [chars, chars, List.getD_append _ _ _ _ hk]
  refine ⟨T, hT, ?_⟩
  rw [hps, reports_eq_scan h₁ hchars hreports h₁ le_rfl le_rfl, after_pos Nat.one_pos]
  rfl

/-- The text is longer than the variable `j` can count. -/
lemma MP_eq_none (x t : List (BitVec 8)) (T : List ℤ) (m : ℤ) (fuel : ℕ) :
    MP fuel x t T m (2 ^ 31 - 1) = none := by
  rw [MP, Option.bind_eq_bind, Option.bind_eq_none_iff]
  intro s hs
  have hround : ∀ s s' : MP.State, s.j < 2 ^ 31 → some (decide (s.j ≤ 2 ^ 31 - 1)) = some true →
      MP.round fuel x t T m s = some s' → s'.j < 2 ^ 31 := by
    intro s s' _ _ hs'
    obtain ⟨i, -, hs'⟩ := Option.bind_eq_some_iff.mp hs'
    obtain ⟨i', -, hs'⟩ := Option.bind_eq_some_iff.mp hs'
    obtain ⟨j, hj, hs'⟩ := Option.bind_eq_some_iff.mp hs'
    obtain ⟨m', -, hs'⟩ := Option.bind_eq_some_iff.mp hs'
    obtain ⟨⟨-, hlt⟩, rfl⟩ := C.int_eq_some.mp hj
    split at hs'
    · obtain ⟨p, -, hs'⟩ := Option.bind_eq_some_iff.mp hs'
      cases hs'
      exact hlt
    · cases hs'
      exact hlt
  obtain ⟨hlt, hout⟩ := C.loop_invariant hround (by decide) hs
  have hgt : ¬s.j ≤ 2 ^ 31 - 1 := by simpa using hout
  omega

/-- **The needles for which the search is right.** The haystacks of a length are all searched rightly if and only if
the lengths can be counted and the needle repeats itself wherever its first character comes back.

**Proof sketch.** Where the search goes back it starts again at the character that differs (`reports_eq_scan`). What
this finds is right for the needles that repeat themselves, and wrong for some haystack for every other needle. -/
theorem searches_iff {x : List (BitVec 8)} (h₁ : 1 ≤ x.length) (hx : x.length < 2 ^ 31) {n : ℕ} (hn : n < 2 ^ 31) :
    (∀ t, t.length = n → Searches x t) ↔ x.length + 1 < 2 ^ 31 ∧ n + 1 < 2 ^ 31 ∧ Repeats x n := by
  constructor
  · intro hall
    have hcounts : x.length + 1 < 2 ^ 31 ∧ n + 1 < 2 ^ 31 := by
      obtain ⟨ps, -, k, hk⟩ := hall (List.replicate n 0) List.length_replicate
      obtain ⟨T, hT, hMP⟩ := hk (k + 1) (by omega) (List.replicate (x.length + 2) 0) List.length_replicate
      constructor
      · by_contra hlarge
        have hmax : (x.length : ℤ) = 2 ^ 31 - 1 := by omega
        rw [hmax, computeMPNext, Option.bind_eq_bind] at hT
        obtain ⟨T₀, -, hT⟩ := Option.bind_eq_some_iff.mp hT
        rw [C.forLoop_eq_none _ _ (by omega)] at hT
        cases hT
      · by_contra hlarge
        have hmax : ((List.replicate n (0 : BitVec 8)).length : ℤ) = 2 ^ 31 - 1 := by
          rw [List.length_replicate]
          omega
        rw [hmax, MP_eq_none] at hMP
        cases hMP
    refine ⟨hcounts.1, hcounts.2, ?_⟩
    by_contra hrep
    obtain ⟨t, ht, hwrong⟩ := exists_not_leftmostFirst_scan hrep
    obtain ⟨ps, hps, k, hk⟩ := hall t ht
    have hlen : (List.replicate (x.length + 2) (0 : ℤ)).length = x.length + 2 := List.length_replicate
    obtain ⟨T, hT, hMP⟩ := hk (k + x.length + 2 + n) (by omega) _ hlen
    obtain ⟨T', hT', hMP'⟩ := exists_search (t := t) h₁ hcounts.1 (by omega)
      (by omega : x.length + 1 < k + x.length + 2 + n) (by omega) hlen
    obtain rfl : T = T' := Option.some.inj (hT.symm.trans hT')
    have heq := Option.some.inj (hMP.symm.trans hMP')
    apply hwrong
    rw [← List.map_injective_iff.mpr Nat.cast_injective heq]
    exact hps
  · rintro ⟨hx, hn, hrep⟩ t rfl
    refine ⟨scan x 0 0 t, hrep.leftmostFirst_scan h₁ (.start h₁ 0) (Nat.zero_le _), x.length + 1 + t.length, ?_⟩
    intro fuel hfuel MP_next hlen
    exact exists_search h₁ hx hn (by omega) (by omega) hlen

/-- The needle `aba` repeats itself, and is found in `ababababa`. -/
theorem searches_aba : Searches [97, 98, 97] [97, 98, 97, 98, 97, 98, 97, 98, 97] := by
  have hall : ∀ t : List (BitVec 8), t.length = 9 → Searches [97, 98, 97] t :=
    (searches_iff (by decide) (by decide) (by decide)).mpr ⟨by decide, by decide, by decide⟩
  exact hall _ rfl

/-- The needle `aab` is not found in `aaab`. -/
theorem not_searches_aab :
    (∀ fuel, 5 ≤ fuel → ∃ T, computeMPNext fuel [97, 97, 98, 0] [0, 0, 0, 0, 0] 3 = some T ∧
      MP fuel [97, 97, 98, 0] [97, 97, 97, 98] T 3 4 = some []) ∧
    LeftmostFirst ([97, 97, 98] : List (BitVec 8)) [97, 97, 97, 98] 0 [1] ∧
    ¬Searches [97, 97, 98] [97, 97, 97, 98] := by
  have hnone : ∀ fuel, 5 ≤ fuel → ∃ T, computeMPNext fuel [97, 97, 98, 0] [0, 0, 0, 0, 0] 3 = some T ∧
      MP fuel [97, 97, 98, 0] [97, 97, 97, 98] T 3 4 = some [] := fun fuel hfuel =>
    exists_search (x := [97, 97, 98]) (t := [97, 97, 97, 98]) (by decide) (by decide) (by decide) hfuel hfuel rfl
  have hocc : OccursAt ([97, 97, 98] : List (BitVec 8)) [97, 97, 97, 98] 1 := by decide
  refine ⟨hnone, .found (by decide) hocc (by decide) (.none fun p hp h => ?_), ?_⟩
  · have hlen := h.length_le
    simp only [List.length_drop, List.length_cons, List.length_nil] at hlen hp
    omega
  · rintro ⟨ps, hps, k, hk⟩
    obtain ⟨T, hT, hMP⟩ := hk (k + 5) (by omega) [0, 0, 0, 0, 0] rfl
    obtain ⟨T', hT', hMP'⟩ := hnone (k + 5) (by omega)
    obtain rfl : T = T' := Option.some.inj (hT.symm.trans hT')
    obtain rfl : ps = [] := List.map_eq_nil_iff.mp (Option.some.inj (hMP.symm.trans hMP'))
    cases hps with
    | none hno => exact hno 1 (by decide) hocc

end Xbsv.Arrays
