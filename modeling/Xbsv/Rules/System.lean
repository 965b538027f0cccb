import Mathlib.Algebra.GroupWithZero.Nat
import Mathlib.Data.List.Basic
import Mathlib.Tactic.Common

set_option relaxedAutoImplicit false
set_option autoImplicit false

/-!
# Systems of guarded atomic rules

A system is a partial step function: `step s a` is `none` when the guard of `a` does not hold
in `s`, and otherwise the next state together with the events the firing makes visible. One
action fires at a time, in any order; nondeterminism (the scheduler, and every value the
environment supplies) sits in the choice of the action.

## Main definitions

* `Rules.RuleSystem` — the step function of a system.
* `Rules.RuleSystem.Reaches` — the runs of a system: from a start state, a trace of events and
  the state it leads to.
* `Rules.RuleSystem.exec`, `Rules.RuleSystem.run` — the run of a given list of actions, computed.
* `Rules.RuleSystem.guard` — the runs whose steps all meet a condition, as a system.
* `Rules.RuleSystem.recorded` — a system whose states carry the trace so far.
* `Rules.RuleSystem.both` — two systems side by side.

## Main results

* `Rules.RuleSystem.Reaches.invariant` — an invariant of traces and states, from one step.
* `Rules.RuleSystem.Reaches.invariant_recorded` — the same where conditions refer to the trace.
* `Rules.RuleSystem.Reaches.simulates` — runs of one system as runs of another.
* `Rules.RuleSystem.Reaches.trans`, `Rules.RuleSystem.reaches_run` — composing runs, and runs
  from computations.
* `Rules.RuleSystem.Reaches.of_both` — a run of two systems side by side is a run of each.
-/

namespace Rules

/-! ## The numbers of the parts

The parts of a system have the elements of `Fin n` as their numbers, which are literals where the system is small. -/

instance neZeroOne : NeZero 1 := ⟨by decide⟩

instance neZeroTwo : NeZero 2 := ⟨by decide⟩

instance neZeroThree : NeZero 3 := ⟨by decide⟩

instance neZeroFour : NeZero 4 := ⟨by decide⟩

/-! ## Systems and their runs -/

/-- A system of guarded atomic rules over states `σ`, actions `α` and visible events `ε`. -/
structure RuleSystem (σ α ε : Type*) where
  /-- Fire one action: `none` when its guard does not hold. -/
  step : σ → α → Option (σ × List ε)

namespace RuleSystem

variable {σ α ε : Type*} (M : RuleSystem σ α ε)

/-- `M.Reaches s₀ tr s`: some run from `s₀` makes the events `tr` visible and ends in `s`. -/
inductive Reaches (s₀ : σ) : List ε → σ → Prop
  /-- The run with no step. -/
  | refl : Reaches s₀ [] s₀
  /-- One more step. -/
  | step {tr : List ε} {s s' : σ} {es : List ε} (a : α) :
      Reaches s₀ tr s → M.step s a = some (s', es) → Reaches s₀ (tr ++ es) s'

/-- The run of a list of actions; `none` when some guard does not hold. -/
def exec (s : σ) : List α → Option (σ × List ε)
  | [] => some (s, [])
  | a :: as =>
    match M.step s a with
    | none => none
    | some (s₁, e₁) =>
      match exec s₁ as with
      | none => none
      | some (s₂, e₂) => some (s₂, e₁ ++ e₂)

/-- The state and the trace after a list of actions; nothing happens if some guard fails. -/
def run (s : σ) (as : List α) : σ × List ε := (M.exec s as).getD (s, [])

/-- The system restricted to the steps that meet the condition `C`. -/
def guard (C : σ → α → Prop) [∀ s a, Decidable (C s a)] : RuleSystem σ α ε :=
  ⟨fun s a => if C s a then M.step s a else none⟩

variable {M}

/-- **The invariant rule.** A property of the trace so far and the state that holds at the
start and survives every step holds along every run. -/
theorem Reaches.invariant {s₀ : σ} {I : List ε → σ → Prop} (h₀ : I [] s₀)
    (hstep : ∀ {tr s a s' es}, I tr s → M.step s a = some (s', es) → I (tr ++ es) s')
    {tr : List ε} {s : σ} (h : M.Reaches s₀ tr s) : I tr s := by
  induction h with
  | refl => exact h₀
  | step a _ hs ih => exact hstep ih hs

/-- Runs compose. -/
theorem Reaches.trans {s₀ s₁ s₂ : σ} {tr₁ tr₂ : List ε} (h₁ : M.Reaches s₀ tr₁ s₁)
    (h₂ : M.Reaches s₁ tr₂ s₂) : M.Reaches s₀ (tr₁ ++ tr₂) s₂ := by
  induction h₂ with
  | refl => simpa using h₁
  | step a _ hs ih =>
    rw [← List.append_assoc]
    exact ih.step a hs

/-- A single step is a run. -/
lemma Reaches.single {s s' : σ} {es : List ε} (a : α) (h : M.step s a = some (s', es)) :
    M.Reaches s es s' := by
  have h₀ : M.Reaches s [] s := .refl
  simpa using h₀.step a h

/-- **Simulation.** If every step of `M` in states with `I` is, through `φ`, a step of `N`, then so is
every run. -/
theorem Reaches.simulates {σ' α' ε' : Type*} {N : RuleSystem σ' α' ε'} {I : σ → Prop} (φ : σ → σ')
    (g : α → α') (v : ε → ε')
    (hstep : ∀ {s a s' es}, I s → M.step s a = some (s', es) →
      I s' ∧ N.step (φ s) (g a) = some (φ s', es.map v))
    {s₀ s : σ} {tr : List ε} (h₀ : I s₀) (h : M.Reaches s₀ tr s) :
    I s ∧ N.Reaches (φ s₀) (tr.map v) (φ s) := by
  induction h with
  | refl => exact ⟨h₀, .refl⟩
  | step a _ hs ih =>
    obtain ⟨hi, hn⟩ := hstep ih.1 hs
    rw [List.map_append]
    exact ⟨hi, ih.2.step (g a) hn⟩

/-- The run of `a :: as` fires `a` first. -/
lemma exec_cons {s : σ} {a : α} {as : List α} {s₂ : σ} {tr : List ε} :
    M.exec s (a :: as) = some (s₂, tr) ↔
      ∃ s₁ e₁ e₂, M.step s a = some (s₁, e₁) ∧ M.exec s₁ as = some (s₂, e₂) ∧
        tr = e₁ ++ e₂ := by
  simp only [exec]
  cases h₁ : M.step s a with
  | none => simp
  | some p =>
    obtain ⟨s₁, e₁⟩ := p
    cases h₂ : M.exec s₁ as with
    | none => simp [h₂]
    | some q =>
      obtain ⟨s₃, e₂⟩ := q
      simp only [h₂, Option.some.injEq, Prod.mk.injEq]
      constructor
      · rintro ⟨rfl, rfl⟩; exact ⟨s₁, e₁, e₂, ⟨rfl, rfl⟩, by rw [h₂], rfl⟩
      · rintro ⟨s₁', e₁', e₂', ⟨rfl, rfl⟩, h₃, rfl⟩
        rw [h₂] at h₃
        cases h₃
        exact ⟨rfl, rfl⟩

/-- A computed run is a run. -/
lemma reaches_of_exec {as : List α} {s s' : σ} {tr : List ε} (h : M.exec s as = some (s', tr)) :
    M.Reaches s tr s' := by
  induction as generalizing s tr with
  | nil =>
    cases h
    exact .refl
  | cons a as ih =>
    obtain ⟨s₁, e₁, e₂, h₁, h₂, rfl⟩ := exec_cons.mp h
    exact (Reaches.single a h₁).trans (ih h₂)

/-- A run with one more action at its end. -/
lemma exec_concat {as : List α} {a : α} {s s₁ s₂ : σ} {tr es : List ε} (h : M.exec s as = some (s₁, tr))
    (hs : M.step s₁ a = some (s₂, es)) : M.exec s (as ++ [a]) = some (s₂, tr ++ es) := by
  induction as generalizing s tr with
  | nil =>
    cases h
    exact exec_cons.mpr ⟨s₂, es, [], hs, rfl, (List.append_nil es).symm⟩
  | cons b as ih =>
    obtain ⟨s₀, e₁, e₂, hb, hrest, rfl⟩ := exec_cons.mp h
    exact exec_cons.mpr ⟨s₀, e₁, e₂ ++ es, hb, ih hrest, List.append_assoc _ _ _⟩

/-- Every run is computed from some list of actions. -/
lemma Reaches.exists_exec {s s' : σ} {tr : List ε} (h : M.Reaches s tr s') : ∃ as, M.exec s as = some (s', tr) := by
  induction h with
  | refl => exact ⟨[], rfl⟩
  | step a _ hs ih =>
    obtain ⟨as, has⟩ := ih
    exact ⟨as ++ [a], exec_concat has hs⟩

/-- Runs on concrete inputs: what `run` computes is a run, the empty one if a guard fails. -/
lemma reaches_run (s : σ) (as : List α) : M.Reaches s (M.run s as).2 (M.run s as).1 := by
  unfold run
  cases h : M.exec s as with
  | none => exact .refl
  | some p => exact reaches_of_exec h

/-- A step of the restricted system is a step of the system that meets the condition. -/
@[simp] lemma guard_step {C : σ → α → Prop} [∀ s a, Decidable (C s a)] {s s' : σ} {a : α}
    {es : List ε} : (M.guard C).step s a = some (s', es) ↔ C s a ∧ M.step s a = some (s', es) := by
  simp only [guard]
  split
  · rename_i h; simp [h]
  · rename_i h; simp [h]

/-- A weaker condition admits more runs. -/
lemma Reaches.guard_mono {C D : σ → α → Prop} [∀ s a, Decidable (C s a)] [∀ s a, Decidable (D s a)]
    (hcd : ∀ s a, C s a → D s a) {s₀ s : σ} {tr : List ε} (h : (M.guard C).Reaches s₀ tr s) :
    (M.guard D).Reaches s₀ tr s := by
  induction h with
  | refl => exact .refl
  | step a _ hs ih =>
    obtain ⟨hc, hs⟩ := guard_step.mp hs
    exact ih.step a (guard_step.mpr ⟨hcd _ a hc, hs⟩)

/-! ## Conditions on the history -/

section Recorded

/-- The system whose states carry the trace so far. -/
def recorded (M : RuleSystem σ α ε) : RuleSystem (σ × List ε) α ε where
  step s a := (M.step s.1 a).map fun r => ((r.1, s.2 ++ r.2), r.2)

@[simp] lemma recorded_step {s s' : σ × List ε} {a : α} {es : List ε} :
    M.recorded.step s a = some (s', es) ↔ M.step s.1 a = some (s'.1, es) ∧ s'.2 = s.2 ++ es := by
  simp only [recorded, Option.map_eq_some_iff, Prod.exists, Prod.mk.injEq]
  constructor
  · rintro ⟨s₁, ds, hs, rfl, rfl⟩
    exact ⟨hs, rfl⟩
  · rintro ⟨hs, heq⟩
    exact ⟨s'.1, es, hs, Prod.ext rfl heq.symm, rfl⟩

/-- **The invariant rule** where the condition on a step refers to the trace so far. -/
theorem Reaches.invariant_recorded {C : σ × List ε → α → Prop} [∀ s a, Decidable (C s a)] {s₀ : σ}
    {I : List ε → σ → Prop} (h₀ : I [] s₀)
    (hstep : ∀ {tr s a s' es}, I tr s → C (s, tr) a → M.step s a = some (s', es) → I (tr ++ es) s')
    {tr us : List ε} {s : σ} (h : (M.recorded.guard C).Reaches (s₀, []) tr (s, us)) : us = tr ∧ I tr s := by
  refine h.invariant (I := fun tr p => p.2 = tr ∧ I tr p.1) ⟨rfl, h₀⟩ fun {tr p a p' es} hp hs => ?_
  obtain ⟨hc, hs⟩ := guard_step.mp hs
  obtain ⟨hs, hhistory⟩ := recorded_step.mp hs
  obtain ⟨hp, hI⟩ := hp
  subst hp
  exact ⟨hhistory, hstep hI hc hs⟩

end Recorded

/-! ## Two systems side by side -/

section Both

variable {τ β ζ : Type*} {N : RuleSystem τ β ζ}

/-- Two systems that share nothing: one of them makes a step. -/
def both (M : RuleSystem σ α ε) (N : RuleSystem τ β ζ) : RuleSystem (σ × τ) (α ⊕ β) (ε ⊕ ζ) where
  step s
    | .inl a => (M.step s.1 a).map fun r => ((r.1, s.2), r.2.map .inl)
    | .inr b => (N.step s.2 b).map fun r => ((s.1, r.1), r.2.map .inr)

lemma both_step_inl {s s' : σ × τ} {a : α} {es : List (ε ⊕ ζ)}
    (h : (M.both N).step s (.inl a) = some (s', es)) :
    ∃ ds, M.step s.1 a = some (s'.1, ds) ∧ s'.2 = s.2 ∧ es = ds.map .inl := by
  simp only [both, Option.map_eq_some_iff, Prod.exists, Prod.mk.injEq] at h
  obtain ⟨s₁, ds, hs, rfl, rfl⟩ := h
  exact ⟨ds, hs, rfl, rfl⟩

lemma both_step_inr {s s' : σ × τ} {b : β} {es : List (ε ⊕ ζ)}
    (h : (M.both N).step s (.inr b) = some (s', es)) :
    ∃ ds, N.step s.2 b = some (s'.2, ds) ∧ s'.1 = s.1 ∧ es = ds.map .inr := by
  simp only [both, Option.map_eq_some_iff, Prod.exists, Prod.mk.injEq] at h
  obtain ⟨s₁, ds, hs, rfl, rfl⟩ := h
  exact ⟨ds, hs, rfl, rfl⟩

/-- The events of the first system. -/
def lefts (tr : List (ε ⊕ ζ)) : List ε := tr.filterMap Sum.getLeft?

/-- The events of the second system. -/
def rights (tr : List (ε ⊕ ζ)) : List ζ := tr.filterMap Sum.getRight?

@[simp] lemma lefts_append (tr es : List (ε ⊕ ζ)) : lefts (tr ++ es) = lefts tr ++ lefts es :=
  List.filterMap_append

@[simp] lemma rights_append (tr es : List (ε ⊕ ζ)) : rights (tr ++ es) = rights tr ++ rights es :=
  List.filterMap_append

@[simp] lemma lefts_inl (ds : List ε) : lefts (ds.map (Sum.inl : ε → ε ⊕ ζ)) = ds := by
  simp [lefts, List.filterMap_map, Function.comp_def]

@[simp] lemma lefts_inr (ds : List ζ) : lefts (ds.map (Sum.inr : ζ → ε ⊕ ζ)) = [] := by
  simp [lefts, List.filterMap_map, Function.comp_def]

@[simp] lemma rights_inl (ds : List ε) : rights (ds.map (Sum.inl : ε → ε ⊕ ζ)) = [] := by
  simp [rights, List.filterMap_map, Function.comp_def]

@[simp] lemma rights_inr (ds : List ζ) : rights (ds.map (Sum.inr : ζ → ε ⊕ ζ)) = ds := by
  simp [rights, List.filterMap_map, Function.comp_def]

/-- A run of both systems is a run of each of them. -/
theorem Reaches.of_both {s₀ s : σ × τ} {tr : List (ε ⊕ ζ)} (h : (M.both N).Reaches s₀ tr s) :
    M.Reaches s₀.1 (lefts tr) s.1 ∧ N.Reaches s₀.2 (rights tr) s.2 := by
  induction h with
  | refl => exact ⟨.refl, .refl⟩
  | step a _ hs ih =>
    rw [lefts_append, rights_append]
    cases a with
    | inl a =>
      obtain ⟨ds, hstep, heq, rfl⟩ := both_step_inl hs
      rw [lefts_inl, rights_inl, List.append_nil, heq]
      exact ⟨ih.1.step a hstep, ih.2⟩
    | inr b =>
      obtain ⟨ds, hstep, heq, rfl⟩ := both_step_inr hs
      rw [lefts_inr, rights_inr, List.append_nil, heq]
      exact ⟨ih.1, ih.2.step b hstep⟩

/-- Runs of the two systems, one after the other. -/
lemma Reaches.to_both {s s' : σ} {t t' : τ} {tr : List ε} {us : List ζ} (hM : M.Reaches s tr s')
    (hN : N.Reaches t us t') : (M.both N).Reaches (s, t) (tr.map .inl ++ us.map .inr) (s', t') := by
  have hleft : (M.both N).Reaches (s, t) (tr.map .inl) (s', t) := by
    induction hM with
    | refl => exact .refl
    | step a _ hs ih =>
      rw [List.map_append]
      exact ih.step (.inl a) (by simp [both, hs])
  refine hleft.trans ?_
  induction hN with
  | refl => exact .refl
  | step b _ hs ih =>
    rw [List.map_append]
    exact ih.step (.inr b) (by simp [both, hs])

end Both

end RuleSystem

end Rules
