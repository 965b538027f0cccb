import Mathlib.Data.List.Basic
import Mathlib.Data.Nat.Find
import Mathlib.Order.Basic
import Mathlib.Tactic.Common

set_option relaxedAutoImplicit false
set_option autoImplicit false

/-!
# Searching without a table

A search for a needle that, where a character differs, starts again at that character. In the texts of a length it
is right for the needles that come back to their first character only to repeat themselves, as far as the length
allows them to be found from there on, and for no others.

## Main definitions

* `Strings.OccursAt`, `Strings.LeftmostFirst` — the occurrences of a needle, and those that are found from left to
  right, each behind the end of the one before.
* `Strings.scan` — the search that starts again.
* `Strings.Repeats` — every suffix of the needle with the needle's first character is a prefix of it.

## Main results

* `Strings.Repeats.leftmostFirst_scan` — for these needles the search is right.
* `Strings.exists_not_leftmostFirst_scan` — for every other needle there is a text in which it is not.
-/

namespace Strings

variable {α : Type*} {x t : List α}

/-- The needle `x` occurs in `t` at the position `p`. -/
def OccursAt (x t : List α) (p : ℕ) : Prop := x <+: t.drop p

instance [DecidableEq α] (p : ℕ) : Decidable (OccursAt x t p) := inferInstanceAs (Decidable (_ <+: _))

/-- The positions from `s` on at which the needle is found from left to right, when the search goes on behind the
end of every occurrence. -/
inductive LeftmostFirst (x t : List α) : ℕ → List ℕ → Prop
  /-- There is no further occurrence. -/
  | none {s : ℕ} : (∀ p, s ≤ p → ¬OccursAt x t p) → LeftmostFirst x t s []
  /-- The next occurrence is the leftmost one. -/
  | found {s p : ℕ} {ps : List ℕ} : s ≤ p → OccursAt x t p → (∀ q, s ≤ q → q < p → ¬OccursAt x t q) →
    LeftmostFirst x t (p + x.length) ps → LeftmostFirst x t s (p :: ps)

/-- Every suffix of the needle that begins with the first character of the needle is a prefix of the needle; but for
those behind which there is no room for the needle in a text of length `n`. -/
def Repeats (x : List α) (n : ℕ) : Prop := ∀ k < x.length, x[k]? = x[0]? → x.length + k ≤ n → x.drop k <+: x

instance [DecidableEq α] (n : ℕ) : Decidable (Repeats x n) := inferInstanceAs (Decidable (∀ _ < _, _))

/-- The search: `a` characters of the needle have been matched, `k` characters of the text have been read. Where a
character differs, it may be the first one of the needle. -/
def scan [DecidableEq α] (x : List α) : ℕ → ℕ → List α → List ℕ
  | _, _, [] => []
  | a, k, c :: t =>
    if x[a]? = some c then
      if a + 1 = x.length then (k - a) :: scan x 0 (k + 1) t else scan x (a + 1) (k + 1) t
    else scan x (if x[0]? = some c then 1 else 0) (k + 1) t

/-! ## Occurrences -/

/-- An occurrence, character by character. -/
lemma occursAt_iff {p : ℕ} : OccursAt x t p ↔ ∀ i < x.length, t[p + i]? = x[i]? := by
  rw [OccursAt, List.prefix_iff_getElem?]
  constructor
  · intro h i hi
    rw [← List.getElem?_drop, h i hi, List.getElem?_eq_getElem hi]
  · intro h i hi
    rw [List.getElem?_drop, h i hi, List.getElem?_eq_getElem hi]

/-- A suffix that is a prefix, character by character. -/
lemma drop_prefix_iff {k : ℕ} : x.drop k <+: x ↔ ∀ i, k + i < x.length → x[k + i]? = x[i]? := by
  rw [List.prefix_iff_getElem?]
  constructor
  · intro h i hi
    rw [h i (by rw [List.length_drop]; omega), List.getElem_drop, List.getElem?_eq_getElem hi]
  · intro h i hi
    rw [List.length_drop] at hi
    rw [List.getElem_drop, ← h i (by omega), List.getElem?_eq_getElem]

/-! ## Needles that repeat themselves -/

/-- The candidate starts at `k - a`: its first `a` characters are in the text, and no occurrence starts between
`s` and the candidate. -/
structure Candidate (x t : List α) (s a k : ℕ) : Prop where
  lt : a < x.length
  le : s + a ≤ k
  matched : ∀ i < a, t[k - a + i]? = x[i]?
  before : ∀ q, s ≤ q → q < k - a → ¬OccursAt x t q

/-- Nothing has been matched yet. -/
lemma Candidate.start (hx : 0 < x.length) (s : ℕ) : Candidate x t s 0 s where
  lt := hx
  le := Nat.le_refl _
  matched i hi := by omega
  before q hq hlt := by omega

/-- One more character has been matched. -/
lemma Candidate.next {s a k : ℕ} (hc : Candidate x t s a k) (h : t[k]? = x[a]?) (hlt : a + 1 < x.length) :
    Candidate x t s (a + 1) (k + 1) where
  lt := hlt
  le := by
    have hle := hc.le
    omega
  matched i hi := by
    have hle := hc.le
    have hstart : k + 1 - (a + 1) = k - a := by omega
    rw [hstart]
    rcases Nat.lt_succ_iff_lt_or_eq.mp hi with hia | rfl
    · exact hc.matched i hia
    · rw [Nat.sub_add_cancel (by omega), h]
  before q hq hlt := hc.before q hq (by omega)

/-- The needle has been matched. -/
lemma Candidate.occursAt {s a k : ℕ} (hc : Candidate x t s a k) (h : t[k]? = x[a]?) (heq : a + 1 = x.length) :
    OccursAt x t (k - a) := by
  rw [occursAt_iff]
  intro i hi
  have hle := hc.le
  rcases Nat.lt_or_ge i a with hia | hia
  · exact hc.matched i hia
  · obtain rfl : i = a := by omega
    rw [Nat.sub_add_cancel (by omega), h]

/-- **Starting again.** Where a needle that repeats itself differs from the text, no occurrence starts between the
candidate and the character that differs.

**Proof sketch.** Such an occurrence starts where the candidate has the first character of the needle once more. The
candidate repeats itself from there on, so that the occurrence has the character of the candidate where the text
has another one. -/
lemma Candidate.not_occursAt {s a k : ℕ} (hc : Candidate x t s a k) (hx : Repeats x t.length) (h : t[k]? ≠ x[a]?) {q : ℕ}
    (hq : s ≤ q) (hqk : q < k) : ¬OccursAt x t q := by
  intro hocc
  have hlt := hc.lt
  have hle := hc.le
  have hchars := occursAt_iff.mp hocc
  rcases Nat.lt_or_ge q (k - a) with hbefore | hge
  · exact hc.before q hq hbefore hocc
  obtain ⟨r, rfl⟩ : ∃ r, q = k - a + r := ⟨q - (k - a), by omega⟩
  have hfirst : x[r]? = x[0]? := by
    rw [← hc.matched r (by omega), ← hchars 0 (by omega), Nat.add_zero]
  have hroom : x.length + r ≤ t.length := by
    have hlen := hocc.length_le
    rw [List.length_drop] at hlen
    omega
  have hrest : x[r + (a - r)]? = x[a - r]? :=
    drop_prefix_iff.mp (hx r (by omega) hfirst hroom) (a - r) (by omega)
  have hra : r + (a - r) = a := by omega
  have hk : k - a + r + (a - r) = k := by omega
  have hchar := hchars (a - r) (by omega)
  rw [hk, ← hrest, hra] at hchar
  exact h hchar

variable [DecidableEq α]

lemma scan_cons_eq {a k : ℕ} {c : α} (h : x[a]? = some c) :
    scan x a k (c :: t) = if a + 1 = x.length then (k - a) :: scan x 0 (k + 1) t else scan x (a + 1) (k + 1) t :=
  if_pos h

lemma scan_cons_ne {a k : ℕ} {c : α} (h : x[a]? ≠ some c) :
    scan x a k (c :: t) = scan x (if x[0]? = some c then 1 else 0) (k + 1) t :=
  if_neg h

/-- The candidate after a character that differs. -/
lemma Candidate.restart {s a k : ℕ} {c : α} (hc : Candidate x t s a k) (hx : Repeats x t.length) (htext : t[k]? = some c)
    (hne : x[a]? ≠ some c) : Candidate x t s (if x[0]? = some c then 1 else 0) (k + 1) := by
  have hle := hc.le
  have hlt := hc.lt
  have hdiff : t[k]? ≠ x[a]? := fun h => hne (h.symm.trans htext)
  have hbefore : ∀ q, s ≤ q → q < k → ¬OccursAt x t q := fun q hq hqk => hc.not_occursAt hx hdiff hq hqk
  split
  · rename_i hfirst
    refine ⟨?_, by omega, fun i hi => ?_, fun q hq hqk => hbefore q hq (by omega)⟩
    · by_contra hone
      obtain rfl : a = 0 := by omega
      exact hne hfirst
    · obtain rfl : i = 0 := by omega
      rw [Nat.add_sub_cancel, Nat.add_zero, htext, hfirst]
  · rename_i hfirst
    refine ⟨by omega, by omega, fun i hi => by omega, fun q hq hqk hocc => ?_⟩
    rcases Nat.lt_succ_iff_lt_or_eq.mp hqk with hqlt | rfl
    · exact hbefore q hq hqlt hocc
    · apply hfirst
      rw [← occursAt_iff.mp hocc 0 (by omega)]
      exact htext

/-- **For needles that repeat themselves the search is right.** -/
theorem Repeats.leftmostFirst_scan (hx : Repeats x t.length) (hpos : 0 < x.length) {s a k : ℕ} (hc : Candidate x t s a k)
    (hk : k ≤ t.length) : LeftmostFirst x t s (scan x a k (t.drop k)) := by
  obtain ⟨d, hd⟩ := Nat.exists_eq_add_of_le hk
  induction d generalizing s a k with
  | zero =>
    rw [List.drop_eq_nil_of_le (by omega), scan]
    refine .none fun p hp hocc => ?_
    have hlt := hc.lt
    rcases Nat.lt_or_ge p (k - a) with hbefore | hge
    · exact hc.before p hp hbefore hocc
    · -- the text is too short for an occurrence
      have hlen := hocc.length_le
      rw [List.length_drop] at hlen
      omega
  | succ d ih =>
    have hkt : k < t.length := by omega
    have hle := hc.le
    have htext : t[k]? = some t[k] := List.getElem?_eq_getElem hkt
    rw [List.drop_eq_getElem_cons hkt]
    by_cases heq : x[a]? = some t[k]
    · rw [scan_cons_eq heq]
      split
      · rename_i hend
        have hbehind : k - a + x.length = k + 1 := by omega
        apply LeftmostFirst.found (by omega) (hc.occursAt (htext.trans heq.symm) hend) hc.before
        rw [hbehind]
        exact ih (.start hpos _) (by omega) (by omega)
      · rename_i hend
        have hlt := hc.lt
        exact ih (hc.next (htext.trans heq.symm) (by omega)) (by omega) (by omega)
    · rw [scan_cons_ne heq]
      exact ih (hc.restart hx htext heq) (by omega) (by omega)

/-! ## Other needles -/

/-- The search finds nothing before its candidate. -/
lemma le_of_mem_scan {a k p : ℕ} (h : p ∈ scan x a k t) : k ≤ p + a := by
  induction t generalizing a k with
  | nil => cases h
  | cons c t ih =>
    by_cases heq : x[a]? = some c
    · rw [scan_cons_eq heq] at h
      split at h
      · rcases List.mem_cons.mp h with rfl | hmem
        · omega
        · have := ih hmem
          omega
      · have := ih h
        omega
    · rw [scan_cons_ne heq] at h
      have := ih h
      split at this <;> omega

/-- While the text goes on with the needle, the candidate stays. -/
lemma scan_matched {k : ℕ} (hk : k < x.length) (h : ∀ i < k, t[i]? = x[i]?) {j : ℕ} (hj : j ≤ k) :
    scan x 0 0 t = scan x j j (t.drop j) := by
  induction j with
  | zero => rfl
  | succ j ih =>
    have hchar := h j (by omega)
    have hjx : j < x.length := by omega
    rw [List.getElem?_eq_getElem hjx] at hchar
    obtain ⟨hjt, hget⟩ := List.getElem?_eq_some_iff.mp hchar
    rw [ih (by omega), List.drop_eq_getElem_cons hjt, hget, scan_cons_eq (List.getElem?_eq_getElem hjx),
      if_neg (by omega)]

/-- A needle that does not repeat itself fails to do so where its first character comes back for the first time. -/
lemma exists_first_return {n : ℕ} (hx : ¬Repeats x n) :
    ∃ p k, 0 < p ∧ p < k ∧ k < x.length ∧ x.length + p ≤ n ∧ (∀ j, 0 < j → j < p → x[j]? ≠ x[0]?) ∧
      (∀ i, p ≤ i → i < k → x[i]? = x[i - p]?) ∧ x[k]? ≠ x[k - p]? := by
  have hex : ∃ p, p < x.length ∧ x[p]? = x[0]? ∧ x.length + p ≤ n ∧ ¬x.drop p <+: x := by
    unfold Repeats at hx
    push Not at hx
    exact hx
  classical
  obtain ⟨hp, hfirst, hroom, hnot⟩ := Nat.find_spec hex
  have hmin : ∀ q < Nat.find hex, x[q]? = x[0]? → ∀ i, q + i < x.length → x[q + i]? = x[i]? := by
    intro q hq hq₀
    by_contra hno
    exact Nat.find_min hex hq ⟨by omega, hq₀, by omega, fun hpre => hno (drop_prefix_iff.mp hpre)⟩
  generalize Nat.find hex = p at *
  have hpos : 0 < p := by
    rcases Nat.eq_zero_or_pos p with rfl | h
    · exact absurd List.prefix_rfl hnot
    · exact h
  -- the first place where the suffix differs from the needle
  have hdiff : ∃ k, p ≤ k ∧ k < x.length ∧ x[k]? ≠ x[k - p]? := by
    by_contra hall
    push Not at hall
    apply hnot
    rw [drop_prefix_iff]
    intro i hi
    have heq := hall (p + i) (by omega) hi
    rwa [Nat.add_sub_cancel_left] at heq
  obtain ⟨hpk, hk, hne⟩ := Nat.find_spec hdiff
  have hkmin : ∀ i, p ≤ i → i < Nat.find hdiff → x[i]? = x[i - p]? := by
    intro i hpi hi
    by_contra hno
    exact Nat.find_min hdiff hi ⟨hpi, by omega, hno⟩
  refine ⟨p, Nat.find hdiff, hpos, ?_, hk, hroom, ?_, hkmin, hne⟩
  · rcases Nat.lt_or_eq_of_le hpk with hlt | heq
    · exact hlt
    · rw [← heq, Nat.sub_self] at hne
      exact absurd hfirst hne
  · intro q hq hqp hq₀
    -- the suffixes at `q` and at `p - q` repeat the needle, and then so does the one at `p`
    have hsplit : q + (p - q) = p := by omega
    have hback : x[p - q]? = x[0]? := by
      rw [← hmin q hqp hq₀ (p - q) (by omega), hsplit, hfirst]
    apply hnot
    rw [drop_prefix_iff]
    intro i hi
    rw [← hmin (p - q) (by omega) hback i (by omega), ← hmin q hqp hq₀ (p - q + i) (by omega), ← Nat.add_assoc,
      hsplit]

/-- **For every other needle there is a text in which the search is wrong.**

**Proof sketch.** The first character comes back at `p`, and the needle repeats itself from there on up to, but not
including, the position `k`. In the first `p` characters of the needle followed by the needle, the search
matches `k` characters and starts again at the next one. So it passes over the first occurrence, which starts
at `p`. -/
theorem exists_not_leftmostFirst_scan {n : ℕ} (hx : ¬Repeats x n) :
    ∃ t, t.length = n ∧ ¬LeftmostFirst x t 0 (scan x 0 0 t) := by
  obtain ⟨p, k, hp, hpk, hk, hroom, hreturn, hrep, hne⟩ := exists_first_return hx
  have hlen : (x.take p).length = p := List.length_take_of_le (by omega)
  have hx₀ : 0 < x.length := by omega
  refine ⟨x.take p ++ (x ++ List.replicate (n - (x.length + p)) x[0]), ?_, fun hleft => ?_⟩
  · rw [List.length_append, List.length_append, List.length_replicate]
    omega
  generalize List.replicate (n - (x.length + p)) x[0] = rest at hleft
  have hsecond : ∀ i, p ≤ i → i < p + x.length → (x.take p ++ (x ++ rest))[i]? = x[i - p]? := by
    intro i hi hlt
    rw [List.getElem?_append_right (by omega), hlen, List.getElem?_append_left (by omega)]
  have hfirst : ∀ i < k, (x.take p ++ (x ++ rest))[i]? = x[i]? := by
    intro i hi
    rcases Nat.lt_or_ge i p with hip | hip
    · rw [List.getElem?_append_left (by omega), List.getElem?_take_of_lt hip]
    · rw [hsecond i hip (by omega), hrep i hip hi]
  have hocc : OccursAt x (x.take p ++ (x ++ rest)) p := by
    rw [OccursAt, List.drop_left' hlen]
    exact List.prefix_append ..
  have hbefore : ∀ q < p, ¬OccursAt x (x.take p ++ (x ++ rest)) q := by
    intro q hq hqocc
    have hchars := occursAt_iff.mp hqocc
    rcases Nat.eq_zero_or_pos q with rfl | hpos
    · apply hne
      rw [← hchars k hk, Nat.zero_add, hsecond k (by omega) (by omega)]
    · apply hreturn q hpos hq
      rw [← hchars 0 hx₀, Nat.add_zero, hfirst q (by omega)]
  have hmem : p ∈ scan x 0 0 (x.take p ++ (x ++ rest)) := by
    generalize scan x 0 0 (x.take p ++ (x ++ rest)) = ps at hleft
    cases hleft with
    | none hno => exact absurd hocc (hno p (Nat.zero_le _))
    | @found _ q _ _ hq hleast _ =>
      obtain rfl : q = p := by
        rcases Nat.lt_trichotomy q p with hlt | heq | hgt
        · exact absurd hq (hbefore q hlt)
        · exact heq
        · exact absurd hocc (hleast p (Nat.zero_le _) hgt)
      exact List.mem_cons_self
  have hkt : k < (x.take p ++ (x ++ rest)).length := by
    rw [List.length_append, List.length_append]
    omega
  have hchar : x[k]? ≠ some (x.take p ++ (x ++ rest))[k] := by
    rw [← List.getElem?_eq_getElem hkt, hsecond k (by omega) (by omega)]
    exact hne
  rw [scan_matched hk hfirst (Nat.le_refl k), List.drop_eq_getElem_cons hkt, scan_cons_ne hchar] at hmem
  have hge := le_of_mem_scan hmem
  split at hge <;> omega

end Strings
