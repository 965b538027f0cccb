import Mathlib.Logic.Function.Basic
import Mathlib.Tactic.Common

set_option relaxedAutoImplicit false
set_option autoImplicit false

/-!
# Loads and stores

A store has a value at each of its indices. Loads and stores, one after the other, can be replayed: each load shows what was
stored last.

## Main definitions

* `Stores.Op` — loads and stores, with the values.
* `Stores.replay` — what a list of them makes of a store.

## Main results

* `Stores.replay_append` — one list after another.
* `Stores.replay_of_not_stored`, `Stores.replay_of_stored` — what is there at the end.
* `Stores.replay_load` — what a load shows.
-/

namespace Stores

variable {ι κ β : Type*}

/-- A load with what it showed, or a store with what it put there. -/
inductive Op (ι β : Type*)
  | load (i : ι) (v : β)
  | store (i : ι) (v : β)
  deriving DecidableEq

namespace Op

def index : Op ι β → ι
  | .load i _ => i
  | .store i _ => i

/-- The same at the place of the index. -/
def map (f : ι → κ) : Op ι β → Op κ β
  | .load i v => .load (f i) v
  | .store i v => .store (f i) v

end Op

section Replay

variable [DecidableEq ι] [DecidableEq β]

/-- The store after some operations; `none` when a load shows something else than what is there. -/
def replay (m : ι → β) : List (Op ι β) → Option (ι → β)
  | [] => some m
  | .load i v :: l => if m i = v then replay m l else none
  | .store i v :: l => replay (Function.update m i v) l

variable {m m' : ι → β} {l l' : List (Op ι β)}

lemma replay_append (h : replay m l = some m') : replay m (l ++ l') = replay m' l' := by
  induction l generalizing m with
  | nil =>
    cases h
    rfl
  | cons op l ih =>
    cases op with
    | load i v =>
      rw [replay] at h
      split at h
      case isTrue hv =>
        rw [List.cons_append, replay, if_pos hv]
        exact ih h
      case isFalse => cases h
    | store i v => exact ih h

/-- What is not stored to stays as it is. -/
lemma replay_of_not_stored {i : ι} (h : replay m l = some m') (hi : ∀ v, .store i v ∉ l) : m' i = m i := by
  induction l generalizing m with
  | nil =>
    cases h
    rfl
  | cons op l ih =>
    have hrest : ∀ v, .store i v ∉ l := fun v hv => hi v (List.mem_cons_of_mem op hv)
    cases op with
    | load j v =>
      rw [replay] at h
      split at h
      case isTrue => exact ih h hrest
      case isFalse => cases h
    | store j v =>
      have hne : i ≠ j := by
        rintro rfl
        exact hi v List.mem_cons_self
      rw [ih h hrest]
      exact Function.update_of_ne hne v m

/-- Where all stores store the same, that is what is there. -/
lemma replay_of_stored {i : ι} {v w : β} (h : replay m l = some m') (hw : .store i w ∈ l)
    (hi : ∀ u, .store i u ∈ l → u = v) : m' i = v := by
  induction l generalizing m with
  | nil => cases hw
  | cons op l ih =>
    have hrest : ∀ u, .store i u ∈ l → u = v := fun u hu => hi u (List.mem_cons_of_mem op hu)
    by_cases hmore : ∃ u, .store i u ∈ l
    · obtain ⟨u, hu⟩ := hmore
      cases op with
      | load j x =>
        rw [replay] at h
        split at h
        case isTrue =>
          have hl : .store i w ∈ l := by simpa using hw
          exact ih h hl hrest
        case isFalse => cases h
      | store j x =>
        obtain rfl : u = v := hrest u hu
        by_cases hl : .store i w ∈ l
        · exact ih h hl hrest
        · obtain rfl : w = u := hi w hw
          exact absurd hu hl
    · have hnone : ∀ u, .store i u ∉ l := fun u hu => hmore ⟨u, hu⟩
      obtain rfl : .store i w = op := (List.mem_cons.mp hw).resolve_right (hnone w)
      rw [replay] at h
      rw [replay_of_not_stored h hnone, Function.update_self]
      exact hi w hw

/-- Where nothing is stored, loads show what was there at the start. -/
lemma replay_load {i : ι} {v : β} (h : replay m l = some m') (hv : .load i v ∈ l) (hi : ∀ u, .store i u ∉ l) :
    v = m i := by
  induction l generalizing m with
  | nil => cases hv
  | cons op l ih =>
    have hrest : ∀ u, .store i u ∉ l := fun u hu => hi u (List.mem_cons_of_mem op hu)
    cases op with
    | load j u =>
      rw [replay] at h
      split at h
      case isTrue hju =>
        rcases List.mem_cons.mp hv with heq | hv
        · cases heq
          exact hju.symm
        · exact ih h hv hrest
      case isFalse => cases h
    | store j u =>
      have hne : i ≠ j := by
        rintro rfl
        exact hi u List.mem_cons_self
      have hl : .load i v ∈ l := by simpa using hv
      rw [ih h hl hrest]
      exact Function.update_of_ne hne u m

end Replay

end Stores
