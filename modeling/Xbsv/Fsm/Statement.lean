import Mathlib.Data.List.Basic
import Mathlib.Tactic.Common
import Xbsv.Rules.Ends

set_option relaxedAutoImplicit false
set_option autoImplicit false

/-!
# Statements of actions

A machine that goes through a statement: actions one after the other or at the same time, tests and loops. An action waits
until it can be done. Actions that go on at the same time are done in any order, so that a statement has many runs.

A statement ends from a state when each of its runs does, without waiting for ever, and what is wanted holds then. The rules
for this are those of a logic of total correctness; for actions at the same time, any one order will do if no action
interferes with another.

## Main definitions

* `Fsm.Statement` — the statements.
* `Fsm.fsm` — the machine.
* `Fsm.Statement.Ends` — every run ends, and ends well.

## Main results

* `Fsm.Statement.ends_act`, `Fsm.Statement.ends_seq`, `Fsm.Statement.ends_par`, `Fsm.Statement.ends_ifte`,
  `Fsm.Statement.ends_loop`, `Fsm.Statement.ends_count` — the rules.
-/

namespace Fsm

open Rules

variable {σ : Type*}

/-- The statements over states `σ`. An action is `none` in the states in which it waits. -/
inductive Statement (σ : Type*)
  | skip
  | act (f : σ → Option σ)
  | par (fs : List (σ → Option σ))
  | seq (s t : Statement σ)
  | ifte (c : σ → Bool) (s t : Statement σ)
  | loop (c : σ → Bool) (s : Statement σ)

namespace Statement

/-- An action that never waits. -/
def set (f : σ → σ) : Statement σ := act fun x => some (f x)

/-- Statements one after the other. -/
def block : List (Statement σ) → Statement σ
  | [] => skip
  | s :: ss => seq s (block ss)

/-- `for (init; c; incr) s`. -/
def forLoop (init : σ → σ) (c : σ → Bool) (incr : σ → σ) (s : Statement σ) : Statement σ :=
  seq (set init) (loop c (seq s (set incr)))

/-- A step; `k` is the action that is done, where several go on at the same time. -/
def step (k : ℕ) : Statement σ → σ → Option (Statement σ × σ)
  | skip, _ => none
  | act f, x => (f x).map fun y => (skip, y)
  | par [], x => some (skip, x)
  | par (f :: fs), x => ((f :: fs)[k]?).bind fun g => (g x).map fun y => (par ((f :: fs).eraseIdx k), y)
  | seq skip t, x => some (t, x)
  | seq s t, x => (step k s x).map fun p => (seq p.1 t, p.2)
  | ifte c s t, x => some (if c x then s else t, x)
  | loop c s, x => some (if c x then seq s (loop c s) else skip, x)

end Statement

open Statement

/-- The machine. -/
def fsm : RuleSystem (Statement σ × σ) ℕ Empty where
  step p k := (step k p.1 p.2).map fun q => (q, [])

namespace Statement

/-- Every run of the statement from a state ends, with the statement done and `Q`. -/
def Ends (s : Statement σ) (x : σ) (Q : σ → Prop) : Prop := ∀ tr, fsm.Ends (fun _ p => p.1 = skip ∧ Q p.2) tr (s, x)

variable {s t : Statement σ} {x y : σ} {Q R : σ → Prop} {c : σ → Bool} {f g : σ → Option σ}
  {fs : List (σ → Option σ)}

/-! ## The rules -/

/-- What holds of every next state, and there is one. -/
lemma ends_of_step (hstep : ∀ k s' y, step k s x = some (s', y) → Ends s' y Q) (h : ∃ k, step k s x ≠ none) :
    Ends s x Q := by
  intro tr
  refine .intro (fun {k p es} hs => ?_) fun hnone => ?_
  · simp only [fsm, Option.map_eq_some_iff, Prod.mk.injEq] at hs
    obtain ⟨q, hq, rfl, rfl⟩ := hs
    exact hstep k q.1 q.2 hq _
  · obtain ⟨k, hk⟩ := h
    exact absurd (Option.map_eq_none_iff.mp (hnone k)) hk

/-- The same where there is one next state. -/
lemma ends_of_one {s' : Statement σ} (hstep : ∀ k, step k s x = some (s', y)) (h : Ends s' y Q) : Ends s x Q := by
  refine ends_of_step (fun k s'' y' hs => ?_) ⟨0, by rw [hstep 0]; exact Option.some_ne_none _⟩
  rw [hstep k, Option.some.injEq, Prod.mk.injEq] at hs
  obtain ⟨rfl, rfl⟩ := hs
  exact h

lemma ends_skip (h : Q x) : Ends skip x Q := by
  intro tr
  exact .intro (fun {k p es} hs => by cases hs) fun _ => ⟨rfl, h⟩

lemma ends_act (hf : f x = some y) (h : Q y) : Ends (act f) x Q :=
  ends_of_one (fun k => by rw [step, hf]; rfl) (ends_skip h)

lemma ends_set {f : σ → σ} (h : Q (f x)) : Ends (set f) x Q := ends_act rfl h

lemma step_seq (k : ℕ) (hs : s ≠ skip) : step k (seq s t) x = (step k s x).map fun p => (seq p.1 t, p.2) := by
  cases s with
  | skip => exact absurd rfl hs
  | act | par | seq | ifte | loop => rfl

/-- **One statement after another.** -/
theorem ends_seq (h : Ends s x fun y => Ends t y Q) : Ends (seq s t) x Q := by
  suffices hall : ∀ tr p, fsm.Ends (fun _ p => p.1 = skip ∧ Ends t p.2 Q) tr p → Ends (seq p.1 t) p.2 Q from
    hall [] (s, x) (h [])
  intro tr p hp
  induction hp with
  | @intro tr p hstep hstuck ih =>
    by_cases hs : p.1 = skip
    · have hnone : ∀ k, fsm.step p k = none := by
        intro k
        simp [fsm, hs, step]
      rw [hs]
      exact ends_of_one (fun k => rfl) (hstuck hnone).2
    · refine ends_of_step (fun k s' y hk => ?_) ?_
      · rw [step_seq k hs] at hk
        obtain ⟨q, hq, heq⟩ := Option.map_eq_some_iff.mp hk
        cases heq
        have hfsm : fsm.step p k = some (q, []) := by
          rw [fsm]
          simp [hq]
        exact ih hfsm
      · by_contra hnone
        push Not at hnone
        refine hs (hstuck fun k => ?_).1
        have hk := hnone k
        rw [step_seq k hs, Option.map_eq_none_iff] at hk
        rw [fsm]
        simp [hk]

lemma ends_block_nil (h : Q x) : Ends (block []) x Q := ends_skip h

lemma ends_block_cons {ss : List (Statement σ)} (h : Ends s x fun y => Ends (block ss) y Q) :
    Ends (block (s :: ss)) x Q :=
  ends_seq h

/-- What follows from what holds at the end holds there too. -/
lemma Ends.imp (h : Ends s x Q) (hQR : ∀ y, Q y → R y) : Ends s x R :=
  fun tr => (h tr).mono fun _ _ hp => ⟨hp.1, hQR _ hp.2⟩

lemma ends_ifte (ht : c x = true → Ends s x Q) (hf : c x = false → Ends t x Q) : Ends (ifte c s t) x Q := by
  cases hc : c x with
  | true => exact ends_of_one (fun k => by rw [step, hc]; rfl) (ht hc)
  | false => exact ends_of_one (fun k => by rw [step, hc]; rfl) (hf hc)

/-- **The rule for loops.** The invariant carries a bound that each turn lowers. -/
theorem ends_loop (I : ℕ → σ → Prop) (hturn : ∀ n x, I n x → c x = true → Ends s x fun y => ∃ m < n, I m y)
    (hend : ∀ n x, I n x → c x = false → Q x) {n : ℕ} (h : I n x) : Ends (loop c s) x Q := by
  induction n using Nat.strongRecOn generalizing x with
  | ind n ih =>
    cases hc : c x with
    | true =>
      refine ends_of_one (fun k => by rw [step, hc]; rfl) (ends_seq ?_)
      refine (hturn n x h hc).imp fun y hy => ?_
      obtain ⟨m, hm, hI⟩ := hy
      exact ih m hm hI
    | false => exact ends_of_one (fun k => by rw [step, hc]; rfl) (ends_skip (hend n x h hc))

/-- **The rule for loops that count.** There are `m` turns, and `I n` holds before turn `n`. -/
theorem ends_count (I : ℕ → σ → Prop) {m n : ℕ} (htest : ∀ n ≤ m, ∀ x, I n x → (c x = true ↔ n < m))
    (hturn : ∀ n < m, ∀ x, I n x → Ends s x (I (n + 1))) (hn : n ≤ m) (h : I n x) : Ends (loop c s) x (I m) := by
  refine ends_loop (fun k y => ∃ n ≤ m, I n y ∧ k = m - n) ?_ ?_ ⟨n, hn, h, rfl⟩
  · rintro _ y ⟨n, hn, hI, rfl⟩ hc
    have hlt := (htest n hn y hI).mp hc
    exact (hturn n hlt y hI).imp fun z hz => ⟨m - (n + 1), by omega, n + 1, hlt, hz, rfl⟩
  · rintro _ y ⟨n, hn, hI, rfl⟩ hc
    have hge := mt (htest n hn y hI).mpr (ne_true_of_eq_false hc)
    rwa [Nat.le_antisymm hn (Nat.le_of_not_lt hge)] at hI

/-! ## At the same time -/

/-- The actions of a list, one after the other. -/
def inTurn : List (σ → Option σ) → σ → Option σ
  | [], x => some x
  | f :: fs, x => (f x).bind (inTurn fs)

/-- Two actions do the same in either order. -/
def Commute (f g : σ → Option σ) : Prop := ∀ x, (f x).bind g = (g x).bind f

/-- An action that commutes with others may come first. -/
lemma inTurn_cons_append {as bs : List (σ → Option σ)} (h : ∀ g ∈ as, Commute g f) (x : σ) :
    inTurn (as ++ f :: bs) x = (f x).bind (inTurn (as ++ bs)) := by
  induction as generalizing x with
  | nil => rfl
  | cons g as ih =>
    have hg := h g List.mem_cons_self x
    have hrest := ih fun g' hg' => h g' (List.mem_cons_of_mem g hg')
    calc (g x).bind (inTurn (as ++ f :: bs)) = (g x).bind fun y => (f y).bind (inTurn (as ++ bs)) := by
          exact congrArg _ (funext hrest)
      _ = ((g x).bind f).bind (inTurn (as ++ bs)) := (Option.bind_assoc _ _ _).symm
      _ = ((f x).bind g).bind (inTurn (as ++ bs)) := by rw [hg]
      _ = (f x).bind (inTurn (g :: (as ++ bs))) := Option.bind_assoc _ _ _

/-- **Actions at the same time.** If no two of them interfere, then it is enough to do them one after the other. -/
theorem ends_par (hfs : fs.Pairwise Commute) (h : inTurn fs x = some y) (hQ : Q y) : Ends (par fs) x Q := by
  induction hn : fs.length generalizing fs x with
  | zero =>
    obtain rfl := List.length_eq_zero_iff.mp hn
    cases h
    exact ends_of_one (fun k => rfl) (ends_skip hQ)
  | succ n ih =>
    obtain ⟨f, gs, rfl⟩ := List.exists_cons_of_length_eq_add_one hn
    -- whichever action is done, it may as well have come first
    have hfirst : ∀ k g, (f :: gs)[k]? = some g →
        ∃ z, g x = some z ∧ inTurn ((f :: gs).eraseIdx k) z = some y ∧ ((f :: gs).eraseIdx k).Pairwise Commute := by
      intro k g hk
      obtain ⟨hlt, rfl⟩ := List.getElem?_eq_some_iff.mp hk
      have hsplit : f :: gs = (f :: gs).take k ++ (f :: gs)[k] :: (f :: gs).drop (k + 1) := by
        rw [← List.drop_eq_getElem_cons hlt, List.take_append_drop]
      have hcomm : ∀ g ∈ (f :: gs).take k, Commute g (f :: gs)[k] := by
        intro g hg
        rw [hsplit, List.pairwise_append] at hfs
        exact hfs.2.2 g hg _ List.mem_cons_self
      rw [hsplit, inTurn_cons_append hcomm, ← List.eraseIdx_eq_take_drop_succ, Option.bind_eq_some_iff] at h
      obtain ⟨z, hz, hrest⟩ := h
      exact ⟨z, hz, hrest, hfs.sublist (List.eraseIdx_sublist _ _)⟩
    refine ends_of_step (fun k s' z hs => ?_) ⟨0, ?_⟩
    · simp only [step, Option.bind_eq_some_iff, Option.map_eq_some_iff, Prod.mk.injEq] at hs
      obtain ⟨g, hg, z', hz', rfl, rfl⟩ := hs
      obtain ⟨z, hz, hrest, hpair⟩ := hfirst k g hg
      rw [hz'] at hz
      cases hz
      have hlt := (List.getElem?_eq_some_iff.mp hg).1
      exact ih hpair hrest (by rw [List.length_eraseIdx_of_lt hlt, hn]; rfl)
    · obtain ⟨z, hz, -⟩ := hfirst 0 f rfl
      simp [step, hz]

end Statement

end Fsm
