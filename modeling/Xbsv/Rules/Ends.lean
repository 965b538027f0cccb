import Mathlib.Tactic.Common
import Xbsv.Rules.System

set_option relaxedAutoImplicit false
set_option autoImplicit false

/-!
# Runs that end

From some states only finitely many steps can be made, whichever rules are fired, and what is wanted holds when
no rule can fire any more.

## Main definitions

* `Rules.RuleSystem.Ends` — every run ends, and it ends well.

## Main results

* `Rules.RuleSystem.Ends.of_bound` — from an invariant with a bound that every step lowers.
* `Rules.RuleSystem.Ends.exists_reaches` — some run ends.
-/

namespace Rules.RuleSystem

variable {σ α ε : Type*} {M : RuleSystem σ α ε} {Q : List ε → σ → Prop}

/-- Every run from `s` ends, and `Q` holds of the state where it ends and of the events up to there, with the
events `tr` before `s`. -/
inductive Ends (M : RuleSystem σ α ε) (Q : List ε → σ → Prop) : List ε → σ → Prop
  | intro {tr : List ε} {s : σ} :
    (∀ {a : α} {s' : σ} {es : List ε}, M.step s a = some (s', es) → Ends M Q (tr ++ es) s') →
    ((∀ a, M.step s a = none) → Q tr s) → Ends M Q tr s

/-- **The rule for runs that end.** The invariant carries a bound on the steps that are left. -/
theorem Ends.of_bound {I : ℕ → List ε → σ → Prop}
    (hstep : ∀ {n tr s a s' es}, I n tr s → M.step s a = some (s', es) → ∃ n' < n, I n' (tr ++ es) s')
    (hstuck : ∀ {n tr s}, I n tr s → (∀ a, M.step s a = none) → Q tr s) {n : ℕ} {tr : List ε} {s : σ}
    (h : I n tr s) : M.Ends Q tr s := by
  induction n using Nat.strongRecOn generalizing tr s with
  | ind n ih =>
    refine .intro (fun {a s' es} hs => ?_) (hstuck h)
    obtain ⟨n', hlt, hI⟩ := hstep h hs
    exact ih n' hlt hI

/-- What follows from what holds where the runs end holds there too. -/
lemma Ends.mono {R : List ε → σ → Prop} (hQR : ∀ tr s, Q tr s → R tr s) {tr : List ε} {s : σ} (h : M.Ends Q tr s) :
    M.Ends R tr s := by
  induction h with
  | @intro tr s _ hstuck ih => exact .intro ih fun hnone => hQR tr s (hstuck hnone)

/-- If every run ends, then some run does. -/
theorem Ends.exists_reaches {tr : List ε} {s : σ} (h : M.Ends Q tr s) :
    ∃ tr' s', M.Reaches s tr' s' ∧ Q (tr ++ tr') s' := by
  induction h with
  | @intro tr s _ hstuck ih =>
    by_cases hnone : ∀ a, M.step s a = none
    · exact ⟨[], s, .refl, by rw [List.append_nil]; exact hstuck hnone⟩
    · push Not at hnone
      obtain ⟨a, ha⟩ := hnone
      obtain ⟨⟨s', es⟩, hs⟩ := Option.ne_none_iff_exists'.mp ha
      obtain ⟨tr', t, hreach, hQ⟩ := ih hs
      refine ⟨es ++ tr', t, (Reaches.single a hs).trans hreach, ?_⟩
      rw [← List.append_assoc]
      exact hQ

end Rules.RuleSystem
