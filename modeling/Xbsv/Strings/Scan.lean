import Mathlib.Data.List.Basic
import Mathlib.Tactic.Common

set_option relaxedAutoImplicit false
set_option autoImplicit false

/-!
# Searching a text

A text is a list of letters of any alphabet, with one letter `nl` that ends the lines.

## Main definitions

* `Scan.upTo` — a text is split at the first letter of a class.
* `Scan.lineStart` — a text is split at the first line, after the first line, that begins with a given letter.
* `Scan.Whole` — whole lines, of which only the first one may begin with the letter.

## Main results

* `Scan.upTo_append` — the split after a word.
* `Scan.Whole.lineStart_append`, `Scan.Whole.append` — the split after whole lines, and one more line.
-/

namespace Scan

variable {α : Type*} {nl c : α} {l s t : List α}

/-- What stands before the first letter with `p`, and after it. -/
def upTo (p : α → Bool) : List α → Option (List α × List α)
  | [] => none
  | x :: s => if p x then some ([], s) else (upTo p s).map fun (w, r) => (x :: w, r)

/-- The split after a word. -/
lemma upTo_append {p : α → Bool} {w : List α} {x : α} (hw : ∀ y ∈ w, p y = false) (hx : p x = true) (s : List α) :
    upTo p (w ++ x :: s) = some (w, s) := by
  induction w with
  | nil => rw [List.nil_append, upTo, if_pos hx]
  | cons y w ih =>
    have hy := hw y List.mem_cons_self
    rw [List.cons_append, upTo, if_neg (by rw [hy]; exact Bool.false_ne_true),
      ih fun z hz => hw z (List.mem_cons_of_mem _ hz)]
    rfl

/-- The first word of a text in which there is a letter with `p`. -/
lemma exists_upTo {p : α → Bool} {x : α} (hx : p x = true) (w s : List α) :
    ∃ r, upTo p (w ++ x :: s) = some (w.takeWhile fun y => !p y, r) := by
  induction w with
  | nil => exact ⟨s, by rw [List.nil_append, upTo, if_pos hx]; rfl⟩
  | cons y w ih =>
    rw [List.cons_append, upTo, List.takeWhile_cons]
    cases hy : p y with
    | true => exact ⟨w ++ x :: s, rfl⟩
    | false =>
      obtain ⟨r, hr⟩ := ih
      exact ⟨r, by rw [if_neg Bool.false_ne_true, hr]; rfl⟩

variable [DecidableEq α]

/-- What stands before the first `c` that follows `nl`, and after it. -/
def lineStart (nl c : α) : List α → Option (List α × List α)
  | [] => none
  | x :: s =>
    if x = nl ∧ s.head? = some c then some ([x], s.tail) else (lineStart nl c s).map fun (pre, r) => (x :: pre, r)

/-- Whole lines, none of which begins with `c`, except perhaps the first one. -/
structure Whole (nl c : α) (t : List α) : Prop where
  ends : ∃ p, t = p ++ [nl]
  none : lineStart nl c t = none

/-- Nothing is found in a line. -/
lemma lineStart_line (hl : nl ∉ l) : lineStart nl c (l ++ [nl]) = none := by
  induction l with
  | nil =>
    rw [List.nil_append, lineStart, if_neg (fun h => by cases h.2)]
    rfl
  | cons x l ih =>
    have hx : x ≠ nl := fun h => hl (h ▸ List.mem_cons_self)
    rw [List.cons_append, lineStart, if_neg (fun h => hx h.1), ih fun h => hl (List.mem_cons_of_mem _ h)]
    rfl

/-- A line. -/
lemma whole_line (hl : nl ∉ l) : Whole nl c (l ++ [nl]) := ⟨⟨l, rfl⟩, lineStart_line hl⟩

/-- Whole lines are passed over. -/
lemma lineStart_prefix {p : List α} (hp : lineStart nl c (p ++ [nl]) = none) (s : List α) :
    lineStart nl c (p ++ nl :: s) = (lineStart nl c (nl :: s)).map fun (pre, r) => (p ++ pre, r) := by
  induction p with
  | nil =>
    rw [List.nil_append]
    cases lineStart nl c (nl :: s) with
    | none => rfl
    | some r => rfl
  | cons x p ih =>
    rw [List.cons_append, lineStart] at hp
    split at hp
    case isTrue => cases hp
    case isFalse hx =>
      have hhead : (p ++ nl :: s).head? = (p ++ [nl]).head? := by
        cases p with
        | nil => rfl
        | cons y p => rfl
      rw [List.cons_append, lineStart, hhead, if_neg hx, ih (Option.map_eq_none_iff.mp hp), Option.map_map]
      rfl

/-- **The split after whole lines.** -/
theorem Whole.lineStart_append (ht : Whole nl c t) (s : List α) : lineStart nl c (t ++ c :: s) = some (t, s) := by
  obtain ⟨⟨p, rfl⟩, hnone⟩ := ht
  rw [List.append_assoc, List.singleton_append, lineStart_prefix hnone, lineStart, if_pos ⟨rfl, rfl⟩]
  rfl

/-- **One more line.** -/
theorem Whole.append (ht : Whole nl c t) (hl : nl ∉ l) (hhead : l.head? ≠ some c) (hne : nl ≠ c) :
    Whole nl c (t ++ (l ++ [nl])) := by
  refine ⟨⟨t ++ l, by rw [List.append_assoc]⟩, ?_⟩
  obtain ⟨⟨p, rfl⟩, hnone⟩ := ht
  have hfirst : (l ++ [nl]).head? ≠ some c := by
    cases l with
    | nil => exact fun h => hne (Option.some.inj h)
    | cons x l => exact hhead
  rw [List.append_assoc, List.singleton_append, lineStart_prefix hnone, lineStart, if_neg (fun h => hfirst h.2),
    lineStart_line hl]
  rfl

end Scan
