import Mathlib.Algebra.Group.Int.Defs
import Mathlib.Algebra.Group.Nat.Defs
import Mathlib.Data.Int.Notation
import Mathlib.Data.List.GetD
import Mathlib.Tactic.Common
import Mathlib.Tactic.Push
import Xbsv.Loops.While

set_option relaxedAutoImplicit false
set_option autoImplicit false

/-!
# Loops over arrays in C

An expression of type `int` whose value is not an `int` is undefined, and so is an access to an array outside of
its bounds. A loop runs with a bound on the number of its tests; a loop that ends does so with every bound that is
large enough.

## Main definitions

* `C.int`, `C.get`, `C.set` — values of type `int`, and accesses to an array.
* `C.loop`, `C.forLoop` — `while` and `for` loops.

## Main results

* `C.exists_loop` — a loop without checks, made with the checks.
* `C.exists_forLoop` — the rule for loops that count up to a bound.
* `C.forLoop_eq_none` — a loop that counts up to the largest `int` does not end.
-/

namespace C

open Loops

variable {α σ τ : Type*}

/-! ## Expressions -/

/-- The value of an expression of type `int`. -/
def int (v : ℤ) : Option ℤ := if -2 ^ 31 ≤ v ∧ v < 2 ^ 31 then some v else none

/-- `a[i]`. -/
def get (a : List α) (i : ℤ) : Option α := if 0 ≤ i then a[i.toNat]? else none

/-- `a[i] = v;`. -/
def set (a : List α) (i : ℤ) (v : α) : Option (List α) :=
  if 0 ≤ i ∧ i < a.length then some (a.set i.toNat v) else none

lemma int_eq_some {v w : ℤ} : int v = some w ↔ (-2 ^ 31 ≤ v ∧ v < 2 ^ 31) ∧ w = v := by
  unfold int
  split
  · rename_i h
    rw [Option.some.injEq, and_iff_right h, eq_comm]
  · rename_i h
    exact iff_of_false (fun heq => by cases heq) fun heq => h heq.1

lemma int_of_lt {v : ℤ} (h₀ : -2 ^ 31 ≤ v) (h : v < 2 ^ 31) : int v = some v := if_pos ⟨h₀, h⟩

@[simp] lemma get_natCast (a : List α) (i : ℕ) : get a i = a[i]? := by
  simp [get]

/-- A write within the bounds. -/
lemma set_of_lt {a : List α} {i : ℕ} (h : i < a.length) (v : α) : set a i v = some (a.set i v) := by
  unfold set
  rw [if_pos (by omega), Int.toNat_natCast]

/-- The next command after one with a value. Rewriting with this lemma leaves the arithmetic alone. -/
lemma some_bind {α σ : Type} (a : α) (f : α → Option σ) : (some a >>= f) = f a := by
  rw [Option.bind_eq_bind, Option.bind_some]

/-! ## `while` -/

/-- `while (p) f;`, with at most `fuel` tests. -/
def loop (p : σ → Option Bool) (f : σ → Option σ) : ℕ → σ → Option σ
  | 0, _ => none
  | fuel + 1, s => (p s).bind fun b => if b then (f s).bind (loop p f fuel) else some s

section Loop

variable {p : σ → Option Bool} {f : σ → Option σ} {q : τ → Bool} {g : τ → Option τ}

lemma loop_succ (fuel : ℕ) (s : σ) :
    loop p f (fuel + 1) s = (p s).bind fun b => if b then (f s).bind (loop p f fuel) else some s :=
  rfl

/-- What holds before the first round and survives every round holds where the loop ends. -/
lemma loop_invariant {I : σ → Prop} (hround : ∀ s s', I s → p s = some true → f s = some s' → I s') {fuel : ℕ}
    {s t : σ} (hI : I s) (h : loop p f fuel s = some t) : I t ∧ p t = some false := by
  induction fuel generalizing s with
  | zero => cases h
  | succ fuel ih =>
    rw [loop_succ] at h
    obtain ⟨b, hp, hrest⟩ := Option.bind_eq_some_iff.mp h
    cases b with
    | false =>
      simp only [Bool.false_eq_true, if_false, Option.some.injEq] at hrest
      subst hrest
      exact ⟨hI, hp⟩
    | true =>
      rw [if_pos rfl] at hrest
      obtain ⟨s', hf, hloop⟩ := Option.bind_eq_some_iff.mp hrest
      exact ih (hround s s' hI hp hf) hloop

/-- **A loop with checks.** Where the checks succeed, a loop does what the same loop without checks does, with
every bound that is as large. -/
theorem exists_loop {R : σ → τ → Prop} (htest : ∀ s t, R s t → p s = some (q t))
    (hround : ∀ s t t', R s t → q t = true → g t = some t' → ∃ s', f s = some s' ∧ R s' t') {n fuel : ℕ} {s : σ}
    {t t' : τ} (hR : R s t) (hn : n ≤ fuel) (h : whileLoop q g n t = some t') :
    ∃ s', loop p f fuel s = some s' ∧ R s' t' := by
  induction n generalizing fuel s t with
  | zero => cases h
  | succ n ih =>
    obtain ⟨fuel, rfl⟩ : ∃ k, fuel = k + 1 := ⟨fuel - 1, by omega⟩
    rw [whileLoop_succ] at h
    rw [loop_succ, htest s t hR, Option.bind_some]
    split at h
    · rename_i hq
      obtain ⟨t₁, hg, hrest⟩ := Option.bind_eq_some_iff.mp h
      obtain ⟨s₁, hf, hR₁⟩ := hround s t t₁ hR hq hg
      rw [hq, if_pos rfl, hf, Option.bind_some]
      exact ih hR₁ (by omega) hrest
    · rename_i hq
      cases h
      exact ⟨s, by rw [if_neg hq], hR⟩

end Loop

/-! ## `for` -/

/-- `for (; i <= m; i++) f;`. -/
def forLoop (m : ℤ) (f : ℤ → σ → Option σ) (fuel : ℕ) (i : ℤ) (s : σ) : Option σ :=
  (loop (fun p : ℤ × σ => some (decide (p.1 ≤ m)))
    (fun p => (f p.1 p.2).bind fun s => (int (p.1 + 1)).map (·, s)) fuel (i, s)).map Prod.snd

section ForLoop

variable {m : ℕ} {f : ℤ → σ → Option σ}

/-- **The rule for `for`.** A body that succeeds for all indices up to `m` is done for all of them, if the index
`m + 1` is an `int`. -/
theorem exists_forLoop {I : ℕ → σ → Prop} (hm : m + 1 < 2 ^ 31)
    (hround : ∀ i s, 1 ≤ i → i ≤ m → I i s → ∃ s', f i s = some s' ∧ I (i + 1) s') {fuel : ℕ} (hfuel : m < fuel)
    {s : σ} (hI : I 1 s) : ∃ t, forLoop m f fuel 1 s = some t ∧ I (m + 1) t := by
  have hrest : ∀ d i s fuel, 1 ≤ i → i + d = m + 1 → d < fuel → I i s →
      ∃ t, forLoop m f fuel i s = some t ∧ I (m + 1) t := by
    intro d
    induction d with
    | zero =>
      intro i s fuel _ hi hfuel hI
      obtain ⟨fuel, rfl⟩ : ∃ k, fuel = k + 1 := ⟨fuel - 1, by omega⟩
      obtain rfl : i = m + 1 := by omega
      refine ⟨s, ?_, hI⟩
      unfold forLoop
      have hend : ¬((m + 1 : ℕ) : ℤ) ≤ m := by omega
      rw [loop_succ, Option.bind_some, if_neg (mt of_decide_eq_true hend), Option.map_some]
    | succ d ih =>
      intro i s fuel h₁ hi hfuel hI
      obtain ⟨fuel, rfl⟩ : ∃ k, fuel = k + 1 := ⟨fuel - 1, by omega⟩
      obtain ⟨s', hs', hI'⟩ := hround i s h₁ (by omega) hI
      obtain ⟨t, ht, hIt⟩ := ih (i + 1) s' fuel (by omega) (by omega) (by omega) hI'
      refine ⟨t, ?_, hIt⟩
      unfold forLoop at ht ⊢
      rw [loop_succ, Option.bind_some, if_pos (by simp; omega)]
      rw [hs', Option.bind_some, int_of_lt (by omega) (by omega), Option.map_some, Option.bind_some]
      exact ht
  exact hrest m 1 s fuel (Nat.le_refl _) (by omega) hfuel hI

/-- A loop that counts up to the largest `int` has no value: the index that ends it is not an `int`. -/
theorem forLoop_eq_none (f : ℤ → σ → Option σ) (fuel : ℕ) {i : ℤ} (hi : i < 2 ^ 31) (s : σ) :
    forLoop (2 ^ 31 - 1) f fuel i s = none := by
  unfold forLoop
  rw [Option.map_eq_none_iff, Option.eq_none_iff_forall_ne_some]
  intro t ht
  have hround : ∀ p p' : ℤ × σ, p.1 < 2 ^ 31 → some (decide (p.1 ≤ 2 ^ 31 - 1)) = some true →
      ((f p.1 p.2).bind fun s => (int (p.1 + 1)).map (·, s)) = some p' → p'.1 < 2 ^ 31 := by
    intro p p' _ _ hp'
    obtain ⟨s', -, hint⟩ := Option.bind_eq_some_iff.mp hp'
    obtain ⟨j, hj, rfl⟩ := Option.map_eq_some_iff.mp hint
    obtain ⟨⟨-, hlt⟩, rfl⟩ := int_eq_some.mp hj
    exact hlt
  obtain ⟨hlt, hout⟩ := loop_invariant hround hi ht
  have hgt : ¬t.1 ≤ 2 ^ 31 - 1 := by simpa using hout
  omega

end ForLoop

end C
