import Mathlib.Tactic.Common
import Xbsv.Rules.System

set_option relaxedAutoImplicit false
set_option autoImplicit false

/-!
# Parts of a system

A listener is a part of a system that does nothing on its own: it takes part in the steps of the rest, by their events,
and a step can be made only when it accepts each of them. What it does along a run is then a function of the trace.

From the point of view of one part the others are an environment; when nothing is known of it, it can do anything to the
state that they share.

## Main definitions

* `Rules.Listener` — what a listener does at an event; `Rules.Listener.hears`, at a list of them.
* `Rules.Listener.comap` — the listener that hears some of the events.
* `Rules.RuleSystem.heardBy` — a system together with a listener.
* `Rules.RuleSystem.anything` — the environment of which nothing is known.

## Main results

* `Rules.RuleSystem.Reaches.of_heardBy` — a run with a listener is a run without it, and what the listener made of the
  trace.
* `Rules.Listener.hears_invariant` — the invariant rule for listeners.
-/

namespace Rules

variable {σ τ α ε δ : Type*}

/-- What a listener with states `τ` does at an event: `none` when it does not accept it, and otherwise its next state and
what it makes visible itself. -/
structure Listener (τ ε δ : Type*) where
  hear : τ → ε → Option (τ × List δ)

namespace Listener

variable {L : Listener τ ε δ} {t t' u : τ} {es fs : List ε} {ds : List δ}

/-- The events of a list, one after the other. -/
def hears (L : Listener τ ε δ) (t : τ) : List ε → Option (τ × List δ)
  | [] => some (t, [])
  | e :: es => (L.hear t e).bind fun r => (L.hears r.1 es).map fun q => (q.1, r.2 ++ q.2)

lemma hears_nil : L.hears t [] = some (u, ds) ↔ u = t ∧ ds = [] := by
  rw [hears, Option.some.injEq, Prod.mk.injEq]
  exact and_congr eq_comm eq_comm

lemma hears_cons {e : ε} : L.hears t (e :: es) = some (u, ds) ↔
    ∃ t₁ ds₁ ds₂, L.hear t e = some (t₁, ds₁) ∧ L.hears t₁ es = some (u, ds₂) ∧ ds = ds₁ ++ ds₂ := by
  simp only [hears, Option.bind_eq_some_iff, Option.map_eq_some_iff, Prod.exists, Prod.mk.injEq]
  constructor
  · rintro ⟨t₁, ds₁, he, u', ds₂, hes, rfl, rfl⟩
    exact ⟨t₁, ds₁, ds₂, he, hes, rfl⟩
  · rintro ⟨t₁, ds₁, ds₂, he, hes, rfl⟩
    exact ⟨t₁, ds₁, he, u, ds₂, hes, rfl, rfl⟩

/-- Events after others. -/
lemma hears_append {ds₁ ds₂ : List δ} (h₁ : L.hears t es = some (t', ds₁)) (h₂ : L.hears t' fs = some (u, ds₂)) :
    L.hears t (es ++ fs) = some (u, ds₁ ++ ds₂) := by
  induction es generalizing t ds₁ with
  | nil =>
    obtain ⟨rfl, rfl⟩ := hears_nil.mp h₁
    exact h₂
  | cons e es ih =>
    obtain ⟨t₁, ds₃, ds₄, he, hes, rfl⟩ := hears_cons.mp h₁
    exact hears_cons.mpr ⟨t₁, ds₃, ds₄ ++ ds₂, he, ih hes, List.append_assoc _ _ _⟩

/-- **The invariant rule.** What holds at the start and is kept at each event of the trace holds after it. -/
theorem hears_invariant {I : List ε → List δ → τ → Prop} {P : ε → Prop} (h₀ : I [] [] t)
    (hstep : ∀ {fs ds t e t' ds'}, I fs ds t → P e → L.hear t e = some (t', ds') → I (fs ++ [e]) (ds ++ ds') t')
    (hes : ∀ e ∈ es, P e) (h : L.hears t es = some (u, ds)) : I es ds u := by
  have hrun : ∀ (fs : List ε) (ds₀ ds₁ : List δ) (t : τ), I fs ds₀ t → L.hears t es = some (u, ds₁) →
      I (fs ++ es) (ds₀ ++ ds₁) u := by
    clear h h₀
    induction es with
    | nil =>
      intro fs ds₀ ds₁ t hI h
      obtain ⟨rfl, rfl⟩ := hears_nil.mp h
      rwa [List.append_nil, List.append_nil]
    | cons e es ih =>
      intro fs ds₀ ds₁ t hI h
      obtain ⟨t₁, ds₂, ds₃, he, hrest, rfl⟩ := hears_cons.mp h
      have hI' := hstep hI (hes e List.mem_cons_self) he
      have := ih (fun e' he' => hes e' (List.mem_cons_of_mem e he')) _ _ _ t₁ hI' hrest
      rwa [List.append_assoc, List.append_assoc] at this
  exact hrun [] [] ds t h₀ h

/-! ### Some of the events -/

/-- The listener that hears some of the events only, as `f` shows them. -/
def comap {ζ : Type*} (f : ζ → Option ε) (L : Listener τ ε δ) : Listener τ ζ δ where
  hear t e :=
    match f e with
    | none => some (t, [])
    | some x => L.hear t x

lemma hears_comap {ζ : Type*} (f : ζ → Option ε) (L : Listener τ ε δ) (t : τ) (es : List ζ) :
    (L.comap f).hears t es = L.hears t (es.filterMap f) := by
  induction es generalizing t with
  | nil => rfl
  | cons e es ih =>
    cases hx : f e with
    | none =>
      rw [List.filterMap_cons_none hx, ← ih, hears, comap]
      simp only [hx, Option.bind_some, List.nil_append]
      exact Option.map_id'
    | some x =>
      rw [List.filterMap_cons_some hx, hears, hears, comap]
      simp only [hx]
      exact congrArg _ (funext fun r => by rw [← ih]; rfl)

end Listener

namespace RuleSystem

/-- A system together with a listener. -/
def heardBy (M : RuleSystem σ α ε) (L : Listener τ ε δ) : RuleSystem (σ × τ) α (ε ⊕ δ) where
  step p a := (M.step p.1 a).bind fun r =>
    (L.hears p.2 r.2).map fun q => ((r.1, q.1), r.2.map .inl ++ q.2.map .inr)

variable {M : RuleSystem σ α ε} {L : Listener τ ε δ} {p p' : σ × τ} {a : α} {es : List (ε ⊕ δ)}

lemma heardBy_step : (M.heardBy L).step p a = some (p', es) ↔
    ∃ fs ds, M.step p.1 a = some (p'.1, fs) ∧ L.hears p.2 fs = some (p'.2, ds) ∧
      es = fs.map .inl ++ ds.map .inr := by
  simp only [heardBy, Option.bind_eq_some_iff, Option.map_eq_some_iff, Prod.exists, Prod.mk.injEq]
  constructor
  · rintro ⟨s', fs, hs, t', ds, hL, rfl, rfl⟩
    exact ⟨fs, ds, hs, hL, rfl⟩
  · rintro ⟨fs, ds, hs, hL, rfl⟩
    exact ⟨p'.1, fs, hs, p'.2, ds, hL, rfl, rfl⟩

/-- **A run with a listener** is a run without it, whose trace the listener has heard. -/
theorem Reaches.of_heardBy {tr : List (ε ⊕ δ)} (h : (M.heardBy L).Reaches p tr p') :
    M.Reaches p.1 (lefts tr) p'.1 ∧ L.hears p.2 (lefts tr) = some (p'.2, rights tr) := by
  induction h with
  | refl => exact ⟨.refl, rfl⟩
  | step a _ hs ih =>
    obtain ⟨fs, ds, hM, hL, rfl⟩ := heardBy_step.mp hs
    rw [lefts_append, rights_append, lefts_append, rights_append, lefts_inl, lefts_inr, rights_inl, rights_inr,
      List.append_nil, List.nil_append]
    exact ⟨ih.1.step a hM, Listener.hears_append ih.2 hL⟩

/-- The runs of the restricted system are runs. -/
lemma Reaches.of_guard {C : σ → α → Prop} [∀ s a, Decidable (C s a)] {s₀ s : σ} {tr : List ε}
    (h : (M.guard C).Reaches s₀ tr s) : M.Reaches s₀ tr s := by
  induction h with
  | refl => exact .refl
  | step a _ hs ih => exact ih.step a (guard_step.mp hs).2

/-! ## The environment -/

/-- Every state can follow. -/
def anything (σ : Type*) : RuleSystem σ σ Empty where
  step _ t := some (t, [])

end RuleSystem

end Rules
