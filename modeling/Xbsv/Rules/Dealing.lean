import Mathlib.Data.Nat.Find
import Xbsv.Rules.Net
import Xbsv.Rules.Turns

set_option relaxedAutoImplicit false
set_option autoImplicit false

/-!
# Networks that take turns

A network in levels, counted from the bottom, where the nodes of each level take turns: the elements that come to a level
are dealt out to its queues, and go on in the same order. At each level the turns may be of another length. What has passed
a level is then the beginning of what has passed the one above, and the elements between them are shared out among the
queues of the level.

## Main definitions

* `Rules.Net.Level` — the queues of a level hold their shares.
* `Rules.Net.Dealt` — those of all levels do.

## Main results

* `Rules.Net.Dealt.enq`, `Rules.Net.Dealt.move`, `Rules.Net.Dealt.deq` — what the operations do, in their turns.
* `Rules.Net.Dealt.exists_lowest` — an element that can go on when it is its turn.
-/

namespace Rules

namespace Net

variable {α : Type*} {cap : ℕ × ℕ → ℕ} {slot : ℕ → ℕ → ℕ}

/-! ## Levels -/

/-- The queues of level `j` hold the shares of the elements between `out`, which have passed the level, and `inp`, which
have come to it. -/
def Level (slot : ℕ → ℕ → ℕ) (j : ℕ) (out inp : List α) (s : Net cap α) : Prop :=
  ∃ l, inp = out ++ l ∧ ∀ i, s.items (j, i) = share (slot j) i out.length l

variable {j : ℕ} {out inp : List α} {s s' : Net cap α} {x : α}

/-- Only the queues of the level matter. -/
lemma Level.congr (h : Level slot j out inp s) (hitems : ∀ i, s'.items (j, i) = s.items (j, i)) :
    Level slot j out inp s' := by
  obtain ⟨l, hl, hs⟩ := h
  exact ⟨l, hl, fun i => (hitems i).trans (hs i)⟩

/-- An element comes to a level. -/
lemma Level.enq (h : Level slot j out inp s) (henq : s.enq (j, slot j inp.length) x = some s') :
    Level slot j out (inp ++ [x]) s' := by
  obtain ⟨l, rfl, hs⟩ := h
  refine ⟨l ++ [x], List.append_assoc _ _ _, fun i => ?_⟩
  rw [(enq_eq_some henq).2, share_concat, ← hs i, ← List.length_append]
  by_cases hi : slot j (out ++ l).length = i
  · subst hi
    rw [if_pos rfl, if_pos rfl]
  · rw [if_neg (fun heq => hi (Prod.mk.inj heq).2.symm), if_neg hi, List.append_nil]

/-- The element whose turn it is passes a level. -/
lemma Level.deq (h : Level slot j out inp s) (hdeq : s.deq (j, slot j out.length) = some (x, s')) :
    Level slot j (out ++ [x]) inp s' := by
  obtain ⟨l, rfl, hs⟩ := h
  obtain ⟨hn, hne⟩ := deq_eq_some hdeq
  obtain ⟨y, l', rfl, hshare⟩ := share_head (slot j) out.length (l := l) (by
    rw [← hs, hn]
    exact List.cons_ne_nil _ _)
  rw [hs, hshare, List.cons.injEq] at hn
  obtain ⟨rfl, hrest⟩ := hn
  refine ⟨l', by rw [List.append_assoc, List.singleton_append], fun i => ?_⟩
  rw [List.length_append, List.length_singleton]
  by_cases hi : slot j out.length = i
  · subst hi
    exact hrest.symm
  · rw [hne _ (fun heq => hi (Prod.mk.inj heq).2.symm), hs, share_cons, if_neg hi]

/-! ## All levels -/

/-- The levels below `d` hold their shares: of the elements that have passed level `j + 1`, those that have not passed
level `j`. -/
structure Dealt (slot : ℕ → ℕ → ℕ) (d : ℕ) (passed : ℕ → List α) (s : Net cap α) : Prop where
  below : s.Everywhere fun n _ => n.1 < d
  level : ∀ j < d, Level slot j (passed j) (passed (j + 1)) s

variable {d : ℕ} {passed : ℕ → List α}

/-- A network without elements. -/
lemma dealt_empty (slot : ℕ → ℕ → ℕ) (d : ℕ) : Dealt slot d (fun _ => []) (empty : Net cap α) := by
  refine ⟨?_, fun j _ => ⟨[], rfl, fun i => rfl⟩⟩
  rintro n x ⟨⟩

/-- An element enters at the top. -/
lemma Dealt.enq (h : Dealt slot (d + 1) passed s) (henq : s.enq (d, slot d (passed (d + 1)).length) x = some s') :
    Dealt slot (d + 1) (Function.update passed (d + 1) (passed (d + 1) ++ [x])) s' := by
  refine ⟨h.below.enq henq (Nat.lt_succ_self d), fun j hj => ?_⟩
  rw [Function.update_of_ne hj.ne]
  by_cases hjd : j = d
  · subst hjd
    rw [Function.update_self]
    exact (h.level j hj).enq henq
  · rw [Function.update_of_ne (by omega)]
    refine (h.level j hj).congr fun i => ?_
    rw [(enq_eq_some henq).2, if_neg (fun heq => hjd (Prod.mk.inj heq).1)]

/-- The element whose turn it is leaves at the bottom. -/
lemma Dealt.deq (h : Dealt slot d passed s) (hdeq : s.deq (0, slot 0 (passed 0).length) = some (x, s')) :
    Dealt slot d (Function.update passed 0 (passed 0 ++ [x])) s' := by
  refine ⟨h.below.deq hdeq, fun j hj => ?_⟩
  rw [Function.update_of_ne (Nat.succ_ne_zero j)]
  by_cases hj0 : j = 0
  · subst hj0
    rw [Function.update_self]
    exact (h.level 0 hj).deq hdeq
  · rw [Function.update_of_ne hj0]
    refine (h.level j hj).congr fun i => ?_
    rw [(deq_eq_some hdeq).2 _ (fun heq => hj0 (Prod.mk.inj heq).1)]

/-- The element whose turn it is moves to the queue whose turn it is at the level below. -/
lemma Dealt.move {route : ℕ × ℕ → α → Option ((ℕ × ℕ) × α)} (h : Dealt slot d passed s) (hj : j + 1 < d)
    (hmove : s.move route (j + 1, slot (j + 1) (passed (j + 1)).length) = some s')
    (hroute : ∀ {x m y}, route (j + 1, slot (j + 1) (passed (j + 1)).length) x = some (m, y) →
      m = (j, slot j (passed (j + 1)).length) ∧ y = x) :
    ∃ x, Dealt slot d (Function.update passed (j + 1) (passed (j + 1) ++ [x])) s' := by
  obtain ⟨x, m, y, s₁, hdeq, hr, henq⟩ := move_eq_some hmove
  obtain ⟨rfl, rfl⟩ := hroute hr
  refine ⟨y, (h.below.deq hdeq).enq henq (by simp only; omega), fun i hi => ?_⟩
  have hother : ∀ l, i ≠ j + 1 → s₁.items (i, l) = s.items (i, l) := fun l hne =>
    (deq_eq_some hdeq).2 _ fun heq => hne (Prod.mk.inj heq).1
  have hother' : ∀ l, i ≠ j → s'.items (i, l) = s₁.items (i, l) := fun l hne => by
    rw [(enq_eq_some henq).2, if_neg fun heq => hne (Prod.mk.inj heq).1]
  by_cases hij : i = j + 1
  · -- the level that it leaves
    subst hij
    rw [Function.update_self, Function.update_of_ne (by omega)]
    exact ((h.level (j + 1) hi).deq hdeq).congr fun l => hother' l (by omega)
  · rw [Function.update_of_ne hij]
    have hlevel := (h.level i hi).congr fun l => hother l hij
    by_cases hij' : i = j
    · -- the level below
      subst hij'
      rw [Function.update_self]
      exact hlevel.enq henq
    · rw [Function.update_of_ne (by omega)]
      exact hlevel.congr fun l => hother' l hij'

/-- What has passed the bottom is the beginning of what has come in. -/
lemma Dealt.isPrefix_passed (h : Dealt slot d passed s) {e : ℕ} (he : e ≤ d) : passed 0 <+: passed e := by
  induction e with
  | zero => exact List.prefix_rfl
  | succ e ih =>
    obtain ⟨l, hl, -⟩ := h.level e he
    rw [hl]
    exact (ih (by omega)).trans (List.prefix_append _ _)

/-- All that came in has passed a network that is empty. -/
lemma Dealt.passed_eq (h : Dealt slot d passed s) (hempty : s.IsEmpty) {e : ℕ} (he : e ≤ d) : passed e = passed 0 := by
  induction e with
  | zero => rfl
  | succ e ih =>
    obtain ⟨l, hl, hs⟩ := h.level e he
    have hnil : l = [] := by
      cases l with
      | nil => rfl
      | cons x l =>
        have hfirst := hs (slot e (passed e).length)
        rw [hempty, share_cons, if_pos rfl] at hfirst
        cases hfirst
    rw [hl, hnil, List.append_nil]
    exact ih (by omega)

/-- In a network that is not empty, take the lowest level that is not empty. There is an element whose turn it is. -/
lemma Dealt.exists_lowest (h : Dealt slot d passed s) (hne : ¬s.IsEmpty) :
    ∃ j < d, s.items (j, slot j (passed j).length) ≠ [] ∧ ∀ e < j, ∀ i, s.items (e, i) = [] := by
  have hlevel : ∃ j, ∃ i, s.items (j, i) ≠ [] := by
    by_contra hall
    push Not at hall
    exact hne fun n => hall n.1 n.2
  classical
  obtain ⟨i, hi⟩ := Nat.find_spec hlevel
  obtain ⟨x, hx⟩ := List.exists_mem_of_ne_nil _ hi
  have hd := h.below _ x hx
  refine ⟨Nat.find hlevel, hd, ?_, fun e he l => ?_⟩
  · obtain ⟨l, -, hs⟩ := h.level _ hd
    cases l with
    | nil =>
      rw [hs, share_nil] at hi
      exact absurd rfl hi
    | cons y l =>
      rw [hs, share_cons, if_pos rfl]
      exact List.cons_ne_nil _ _
  · by_contra hl
    exact Nat.find_min hlevel he ⟨l, hl⟩

end Net

end Rules
