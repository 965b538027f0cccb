import Mathlib.Data.List.Count
import Mathlib.Tactic.Common

set_option relaxedAutoImplicit false
set_option autoImplicit false

/-!
# Traces of objects

What a function does with the objects that it obtains, in order.

## Main definitions

* `Resources.Event` — an object is obtained, read or released; or it could not be obtained.
* `Resources.Released` — what has been obtained has been released exactly once, and is not read afterwards.

## Main results

* `Resources.not_released_of_kept`, `Resources.not_released_of_read` — a leak, and a use after a release.
-/

namespace Resources

/-- What happens to the objects `ι`. -/
inductive Event (ι : Type*)
  | obtain (o : ι)
  | refuse (o : ι)
  | read (o : ι)
  | release (o : ι)
  deriving DecidableEq

variable {ι : Type*} [DecidableEq ι] {tr : List (Event ι)} {o : ι}

/-- Everything that has been obtained has been released exactly once, and nothing is read after its release. -/
def Released (tr : List (Event ι)) : Prop :=
  (∀ o, .obtain o ∈ tr → tr.count (.release o) = 1) ∧
    ∀ o pre post, tr = pre ++ .release o :: post → .read o ∉ post

/-- A leak. -/
lemma not_released_of_kept (hgot : .obtain o ∈ tr) (hkept : .release o ∉ tr) : ¬Released tr := by
  intro h
  have hcount := h.1 o hgot
  rw [List.count_eq_zero.mpr hkept] at hcount
  cases hcount

/-- A use after a release. -/
lemma not_released_of_read {pre post : List (Event ι)} (h : tr = pre ++ .release o :: post) (hread : .read o ∈ post) :
    ¬Released tr :=
  fun hrel => hrel.2 o pre post h hread

end Resources
