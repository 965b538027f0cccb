import Mathlib.Algebra.BigOperators.Group.Finset.Piecewise
import Mathlib.Data.Finset.Max
import Xbsv.Rules.Net
import Xbsv.Rules.System

set_option relaxedAutoImplicit false
set_option autoImplicit false

/-!
# Draining

What it takes to show that a system can always get its work done. If in every state that is not done
some step leads to a state of lesser rank, then a done state can be reached; for a network of queues the
rank is the sum of the levels of its elements, and the step is a move of an element of the lowest level
in use, above which there is always room.

## Main definitions

* `Rules.Net.weight` — the weight of the elements of a network.

## Main results

* `Rules.RuleSystem.exists_reaches`, `Rules.RuleSystem.exists_drained` — the progress rule.
* `Rules.sum_length_update` — the number of elements in several lists.
* `Rules.Net.weight_enq`, `Rules.Net.weight_deq` — what the operations do to the weight.
* `Rules.Net.exists_lowest` — the element to move.
* `Rules.Net.exists_move_down` — a network can be drained.
-/

namespace Rules

/-- The elements of several lists, when one of the lists changes. -/
lemma sum_length_update {ι α : Type*} [Fintype ι] [DecidableEq ι] (q : ι → List α) (i : ι) (l : List α) :
    ∑ j, (Function.update q i l j).length + (q i).length = ∑ j, (q j).length + l.length := by
  have hrest : ∑ j ∈ Finset.univ.erase i, (Function.update q i l j).length =
      ∑ j ∈ Finset.univ.erase i, (q j).length := by
    refine Finset.sum_congr rfl fun j hj => ?_
    rw [Function.update_of_ne (Finset.ne_of_mem_erase hj)]
  rw [← Finset.add_sum_erase _ _ (Finset.mem_univ i), ← Finset.add_sum_erase _ (fun j => (q j).length)
    (Finset.mem_univ i), hrest, Function.update_self]
  omega

namespace RuleSystem

variable {σ α ε : Type*} {M : RuleSystem σ α ε}

/-- **The progress rule.** If from every state with `I` that is not done some step leads to a state with
`I` of lesser rank, then a done state can be reached from each of them. -/
theorem exists_reaches {ι : Type*} [LT ι] [WellFoundedLT ι] {I : List ε → σ → Prop}
    {done : List ε → σ → Prop} (rank : List ε → σ → ι)
    (hprogress : ∀ tr s, I tr s → done tr s ∨ ∃ a s' es, M.step s a = some (s', es) ∧
      I (tr ++ es) s' ∧ rank (tr ++ es) s' < rank tr s)
    {tr : List ε} {s : σ} (h : I tr s) :
    ∃ tr' s', M.Reaches s tr' s' ∧ I (tr ++ tr') s' ∧ done (tr ++ tr') s' := by
  induction hr : rank tr s using WellFoundedLT.induction generalizing tr s with
  | ind r ih =>
    rcases hprogress tr s h with hdone | ⟨a, s₁, es, hstep, h₁, hlt⟩
    · exact ⟨[], s, .refl, by simpa using h, by simpa using hdone⟩
    · obtain ⟨tr', s', hreach, hI, hdone⟩ := ih _ (hr ▸ hlt) h₁ rfl
      refine ⟨es ++ tr', s', (Reaches.single a hstep).trans hreach, ?_, ?_⟩
      · rwa [← List.append_assoc]
      · rwa [← List.append_assoc]

/-- **The progress rule**, where the steps leave what `f` tells of the trace as it is, as when nothing new comes in. -/
theorem exists_drained {ι β : Type*} [LT ι] [WellFoundedLT ι] {I E : List ε → σ → Prop} (f : List ε → β)
    (rank : List ε → σ → ι) {tr : List ε} {s : σ} (h : I tr s)
    (hprogress : ∀ us s, I us s → f us = f tr → ¬E us s → ∃ a s' es, M.step s a = some (s', es) ∧
      I (us ++ es) s' ∧ f (us ++ es) = f us ∧ rank (us ++ es) s' < rank us s) :
    ∃ tr' s', M.Reaches s tr' s' ∧ I (tr ++ tr') s' ∧ f (tr ++ tr') = f tr ∧ E (tr ++ tr') s' := by
  have hsteps : ∀ us s, I us s ∧ f us = f tr → E us s ∨ ∃ a s' es, M.step s a = some (s', es) ∧
      (I (us ++ es) s' ∧ f (us ++ es) = f tr) ∧ rank (us ++ es) s' < rank us s := by
    rintro us s ⟨hI, hf⟩
    by_cases hE : E us s
    · exact .inl hE
    · obtain ⟨a, s', es, hs, hI', hf', hlt⟩ := hprogress us s hI hf hE
      exact .inr ⟨a, s', es, hs, ⟨hI', hf'.trans hf⟩, hlt⟩
  obtain ⟨tr', s', hreach, ⟨hI, hf⟩, hE⟩ := exists_reaches rank hsteps ⟨h, rfl⟩
  exact ⟨tr', s', hreach, hI, hf, hE⟩

end RuleSystem

namespace Net

variable {N α : Type*} {cap : N → ℕ}

/-- The elements of a network, each weighted by its node; `S` are the nodes in use. -/
def weight (S : Finset N) (w : N → ℕ) (s : Net cap α) : ℕ := ∑ n ∈ S, w n * (s.items n).length

variable {S : Finset N} {w : N → ℕ} {s s' : Net cap α} {n : N} {x : α}

/-- Of the nodes in use that hold elements above level 0, take one of the lowest: the elements of the
levels between it and level 0 are gone. -/
lemma exists_lowest (lvl : N → ℕ) (h : ∃ n ∈ S, 0 < lvl n ∧ s.items n ≠ []) :
    ∃ n ∈ S, 0 < lvl n ∧ s.items n ≠ [] ∧
      ∀ m ∈ S, 0 < lvl m → lvl m < lvl n → s.items m = [] := by
  classical
  obtain ⟨n, hn, hmin⟩ := Finset.exists_min_image (S.filter fun n => 0 < lvl n ∧ s.items n ≠ []) lvl
    (by
      obtain ⟨n, hnS, hn⟩ := h
      exact ⟨n, Finset.mem_filter.mpr ⟨hnS, hn⟩⟩)
  obtain ⟨hnS, hpos, hne⟩ := Finset.mem_filter.mp hn
  refine ⟨n, hnS, hpos, hne, fun m hm hmpos hlt => ?_⟩
  by_contra hmne
  have := hmin m (Finset.mem_filter.mpr ⟨hm, hmpos, hmne⟩)
  omega

variable [DecidableEq N]

/-- An element that enters adds the weight of its node. -/
lemma weight_enq (h : s.enq n x = some s') (hn : n ∈ S) : s'.weight S w = s.weight S w + w n := by
  obtain ⟨-, hitems⟩ := enq_eq_some h
  have hterm : ∀ m ∈ S, w m * (s'.items m).length =
      w m * (s.items m).length + if m = n then w n else 0 := by
    intro m _
    rw [hitems m]
    by_cases hm : m = n
    · subst hm
      simp [Nat.mul_add]
    · simp [hm]
  rw [weight, Finset.sum_congr rfl hterm, Finset.sum_add_distrib, Finset.sum_ite_eq', if_pos hn]
  rfl

/-- An element that leaves takes the weight of its node with it. -/
lemma weight_deq (h : s.deq n = some (x, s')) (hn : n ∈ S) :
    s.weight S w = s'.weight S w + w n := by
  obtain ⟨hitems, hne⟩ := deq_eq_some h
  have hterm : ∀ m ∈ S, w m * (s.items m).length =
      w m * (s'.items m).length + if m = n then w n else 0 := by
    intro m _
    by_cases hm : m = n
    · subst hm
      simp [hitems, Nat.mul_add]
    · simp [hm, hne m hm]
  rw [weight, Finset.sum_congr rfl hterm, Finset.sum_add_distrib, Finset.sum_ite_eq', if_pos hn]
  rfl

/-- An element that moves changes the weight by that of its nodes. -/
lemma weight_move {route : N → α → Option (N × α)} (h : s.move route n = some s') (hn : n ∈ S)
    (hroute : ∀ x ∈ s.items n, ∀ m y, route n x = some (m, y) → m ∈ S ∧ w n = w m + 1) :
    s.weight S w = s'.weight S w + 1 := by
  obtain ⟨x, m, y, s₁, hdeq, hr, henq⟩ := move_eq_some h
  obtain ⟨hm, hw⟩ := hroute x (by rw [(deq_eq_some hdeq).1]; exact List.mem_cons_self) m y hr
  have h₁ := weight_deq (w := w) hdeq hn
  have h₂ := weight_enq (w := w) henq hm
  omega

/-- **A network can be drained.** As long as there are elements above the bottom, and there is room at the bottom for
those that are next to it, one of them can move: elsewhere there is room below the lowest. The levels of nodes may be
weighted from any number `c` on. -/
lemma exists_move_down {route : N → α → Option (N × α)} (lvl : N → ℕ) (hS : ∀ n, s.items n ≠ [] → n ∈ S)
    (hroute : s.Everywhere fun n x => 0 < lvl n → ∃ m y, route n x = some (m, y) ∧ m ∈ S ∧ lvl n = lvl m + 1 ∧
      0 < cap m ∧ (lvl m = 0 → (s.items m).length < cap m))
    (hne : ∃ n, 0 < lvl n ∧ s.items n ≠ []) (c : ℕ) :
    ∃ n s', s.move route n = some s' ∧ s.weight S (fun n => lvl n + c) = s'.weight S (fun n => lvl n + c) + 1 := by
  obtain ⟨n₀, hpos₀, hn₀⟩ := hne
  obtain ⟨n, hn, hpos, hnn, hlow⟩ := exists_lowest (s := s) (S := S) lvl ⟨n₀, hS n₀ hn₀, hpos₀, hn₀⟩
  have hdown : ∀ x ∈ s.items n, ∀ m y, route n x = some (m, y) → m ∈ S ∧ lvl n + c = lvl m + c + 1 := by
    intro x hx m y hr
    obtain ⟨m', y', hr', hm', hlvl, -⟩ := hroute n x hx hpos
    rw [hr', Option.some.injEq, Prod.mk.injEq] at hr
    rw [← hr.1]
    exact ⟨hm', by omega⟩
  obtain ⟨x, xs, hx⟩ := List.exists_cons_of_ne_nil hnn
  obtain ⟨m, y, hr, hm, hlvl, hcap, hbottom⟩ := hroute n x (by rw [hx]; exact List.mem_cons_self) hpos
  have hroom : (s.items m).length < cap m := by
    rcases Nat.eq_zero_or_pos (lvl m) with h0 | hm0
    · exact hbottom h0
    · rw [hlow m hm hm0 (by omega)]
      exact hcap
  obtain ⟨s', hmove⟩ := exists_move hx hr (by rintro rfl; omega) hroom
  exact ⟨n, s', hmove, weight_move hmove hn hdown⟩

end Net

end Rules
