import Mathlib.Tactic.Common

set_option relaxedAutoImplicit false
set_option autoImplicit false

/-!
# While loops

A loop runs its test and its body with a bound on the number of tests. A body may fail; so does a loop that
needs more tests than the bound allows.

## Main definitions

* `Loops.whileLoop` — the loop.

## Main results

* `Loops.whileLoop_rule` — a relation between the first state and the last one, from the end backwards.
* `Loops.exists_whileLoop` — the total rule: an invariant, and a measure that goes down.
-/

namespace Loops

variable {σ : Type*} {p : σ → Bool} {f : σ → Option σ}

/-- `while (p s) s = f s;`, with at most `fuel` tests. -/
def whileLoop (p : σ → Bool) (f : σ → Option σ) : ℕ → σ → Option σ
  | 0, _ => none
  | fuel + 1, s => if p s then (f s).bind (whileLoop p f fuel) else some s

lemma whileLoop_succ (fuel : ℕ) (s : σ) :
    whileLoop p f (fuel + 1) s = if p s then (f s).bind (whileLoop p f fuel) else some s :=
  rfl

/-- A relation that holds where the loop ends, and before a round if it holds after it, holds between the
first state and the last. -/
theorem whileLoop_rule {R : σ → σ → Prop} (hend : ∀ s, p s = false → R s s)
    (hround : ∀ s s' t, p s = true → f s = some s' → R s' t → R s t) {fuel : ℕ} {s t : σ}
    (h : whileLoop p f fuel s = some t) : R s t := by
  induction fuel generalizing s with
  | zero => cases h
  | succ fuel ih =>
    rw [whileLoop_succ] at h
    split at h
    · rename_i hp
      obtain ⟨s', hf, hrest⟩ := Option.bind_eq_some_iff.mp h
      exact hround s s' t hp hf (ih hrest)
    · rename_i hp
      cases h
      exact hend _ (by simpa using hp)

/-- **The total rule.** A loop whose rounds succeed, keep an invariant and lower a measure ends, with the
invariant, where its test fails. -/
theorem exists_whileLoop {I : σ → Prop} {μ : σ → ℕ}
    (hround : ∀ s, I s → p s = true → ∃ s', f s = some s' ∧ I s' ∧ μ s' < μ s) {fuel : ℕ} {s : σ}
    (hI : I s) (hμ : μ s < fuel) : ∃ t, whileLoop p f fuel s = some t ∧ I t ∧ p t = false := by
  induction fuel generalizing s with
  | zero => exact absurd hμ (Nat.not_lt_zero _)
  | succ fuel ih =>
    rw [whileLoop_succ]
    split
    · rename_i hp
      obtain ⟨s', hf, hI', hlt⟩ := hround s hI hp
      obtain ⟨t, ht, hIt, hpt⟩ := ih hI' (by omega)
      exact ⟨t, by rw [hf, Option.bind_some, ht], hIt, hpt⟩
    · rename_i hp
      exact ⟨s, rfl, hI, by simpa using hp⟩

end Loops
