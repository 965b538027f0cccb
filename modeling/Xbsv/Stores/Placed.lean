import Mathlib.Data.Set.Function
import Xbsv.Stores.Replay

set_option relaxedAutoImplicit false
set_option autoImplicit false

/-!
# Stores that lie in other stores

If the indices of a store have places in another one, different indices different ones, then what can be replayed at the
places can be replayed at the indices.

## Main definitions

* `Stores.Agrees` — the values at some indices are those at their places.

## Main results

* `Stores.Agrees.replay` — what can be replayed at the places can be replayed at the indices.
-/

namespace Stores

variable {ι κ β : Type*}

/-- The values at the indices `D` are those at their places. -/
def Agrees (place : ι → κ) (D : Set ι) (m : ι → β) (r : κ → β) : Prop := ∀ i ∈ D, m i = r (place i)

section Placed

variable [DecidableEq ι] [DecidableEq κ] {place : ι → κ} {D : Set ι} {m : ι → β} {r r' : κ → β} {i : ι}

/-- A store at an index is one at its place. -/
lemma Agrees.update (h : Agrees place D m r) (hinj : Set.InjOn place D) (hi : i ∈ D) (v : β) :
    Agrees place D (Function.update m i v) (Function.update r (place i) v) := by
  intro j hj
  by_cases hij : j = i
  · subst hij
    rw [Function.update_self, Function.update_self]
  · have hne : place j ≠ place i := fun he => hij (hinj hj hi he)
    rw [Function.update_of_ne hij, Function.update_of_ne hne]
    exact h j hj

/-- **What can be replayed at the places can be replayed at the indices.**

**Proof sketch.** Induction on the operations. A load shows what is at the place, which is what is at the index; a store
keeps the agreement, since no other index has that place. -/
theorem Agrees.replay [DecidableEq β] {l : List (Op ι β)} (h : Agrees place D m r) (hinj : Set.InjOn place D)
    (hl : ∀ op ∈ l, op.index ∈ D) (hr : Stores.replay r (l.map (Op.map place)) = some r') :
    ∃ m', Stores.replay m l = some m' ∧ Agrees place D m' r' := by
  induction l generalizing m r with
  | nil =>
    cases hr
    exact ⟨m, rfl, h⟩
  | cons op l ih =>
    have hop := hl op List.mem_cons_self
    have hrest : ∀ op' ∈ l, op'.index ∈ D := fun op' hop' => hl op' (List.mem_cons_of_mem op hop')
    cases op with
    | load i v =>
      rw [List.map_cons, Op.map, Stores.replay] at hr
      split at hr
      case isTrue hv =>
        obtain ⟨m', hm', hagrees⟩ := ih h hrest hr
        refine ⟨m', ?_, hagrees⟩
        rw [Stores.replay, if_pos ((h i hop).trans hv)]
        exact hm'
      case isFalse => cases hr
    | store i v => exact ih (h.update hinj hop v) hrest hr

end Placed

end Stores
