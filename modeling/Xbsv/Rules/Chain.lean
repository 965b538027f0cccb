import Mathlib.Data.List.Basic
import Mathlib.Order.Defs.PartialOrder
import Mathlib.Tactic.Common

set_option relaxedAutoImplicit false
set_option autoImplicit false

/-!
# Chains of relays

Relays in a row pass symbols on, one in each cycle. A relay has a register with the symbol that it works on; in a
cycle it passes on what it makes of this symbol, and the next one comes into the register.

What has gone over a link up to now has a meaning, to which each symbol adds something, and for which a relay has an
answer. If each relay turns meanings into their answers, symbol by symbol, then so does the chain, which is behind by
the symbols in the registers.

## Main definitions

* `Rules.Relay` — relays.
* `Rules.Relay.cycle` — a cycle of a chain.
* `Rules.Relay.Carries` — what has gone into a chain, and what has come out.

## Main results

* `Rules.Relay.Carries.cycle` — one cycle.
* `Rules.Relay.Carries.le` — what has come out is at most the answer to what has gone in.
* `Rules.Relay.Carries.eq_answers` — it is the answer when nothing is on the way.
-/

namespace Rules

/-- Relays `τ` that pass symbols `ι` on, for links whose meanings are in `μ`. -/
structure Relay (τ ι μ : Type*) [Preorder μ] where
  /-- The symbol in the register. -/
  held : τ → ι
  /-- What is passed on. -/
  out : τ → ι
  /-- The relay after a cycle in which a symbol came. -/
  clock : τ → ι → τ
  /-- The meaning with one more symbol; `none` where it must not come. -/
  read : μ → ι → Option μ
  /-- What a relay answers. -/
  answer : τ → μ → μ
  /-- Symbols without a meaning. -/
  idle : ι → Prop
  /-- The relay has worked on everything that came before the symbol in its register. -/
  Holds : τ → μ → Prop
  held_clock : ∀ t i, held (clock t i) = i
  answer_clock : ∀ t i, answer (clock t i) = answer t
  holds_clock : ∀ {t m m'} i, Holds t m → read m (held t) = some m' → Holds (clock t i) m'
  read_out : ∀ {t m m'}, Holds t m → read m (held t) = some m' → read (answer t m) (out t) = some (answer t m')
  le_read : ∀ {m m' i}, read m i = some m' → m ≤ m'
  answer_mono : ∀ {t m m'}, m ≤ m' → answer t m ≤ answer t m'
  read_idle : ∀ {m m' i}, idle i → read m i = some m' → m' = m
  idle_out : ∀ {t}, idle (held t) → idle (out t)

namespace Relay

variable {τ ι μ : Type*} [Preorder μ] (S : Relay τ ι μ)

/-- A cycle of a chain in which a symbol comes: the chain after it, and what comes out at the end. -/
def cycle : List τ → ι → List τ × ι
  | [], i => ([], i)
  | t :: ts, i => (S.clock t i :: (cycle ts (S.out t)).1, (cycle ts (S.out t)).2)

/-- The answers of all relays, one after the other. -/
def answers : List τ → μ → μ
  | [], m => m
  | t :: ts, m => answers ts (S.answer t m)

/-- The meaning of what has gone into a chain, and of what has come out. -/
inductive Carries : List τ → μ → μ → Prop
  | nil (m : μ) : Carries [] m m
  | cons {t : τ} {ts : List τ} {m m' n : μ} :
    S.Holds t m → S.read m (S.held t) = some m' → Carries ts (S.answer t m) n → Carries (t :: ts) m' n

variable {S} {ts : List τ} {m m' n : μ} {i : ι}

lemma length_cycle (ts : List τ) (i : ι) : (S.cycle ts i).1.length = ts.length := by
  induction ts generalizing i with
  | nil => rfl
  | cons t ts ih => rw [cycle, List.length_cons, List.length_cons, ih]

/-- The answers of a chain stay the same. -/
lemma answers_cycle (ts : List τ) (i : ι) (m : μ) : S.answers (S.cycle ts i).1 m = S.answers ts m := by
  induction ts generalizing i m with
  | nil => rfl
  | cons t ts ih => rw [cycle, answers, answers, S.answer_clock, ih]

/-- **One cycle.** -/
theorem Carries.cycle (h : S.Carries ts m n) (hi : S.read m i = some m') :
    ∃ n', S.read n (S.cycle ts i).2 = some n' ∧ S.Carries (S.cycle ts i).1 m' n' := by
  induction h generalizing m' i with
  | nil m => exact ⟨m', hi, .nil m'⟩
  | @cons t ts m m₁ n hholds hread _ ih =>
    obtain ⟨n', hn', hrest⟩ := ih (S.read_out hholds hread)
    have hread' : S.read m₁ (S.held (S.clock t i)) = some m' := by rw [S.held_clock, hi]
    refine ⟨n', hn', .cons (S.holds_clock i hholds hread) hread' ?_⟩
    rwa [S.answer_clock]

lemma answers_mono (h : m ≤ m') : S.answers ts m ≤ S.answers ts m' := by
  induction ts generalizing m m' with
  | nil => exact h
  | cons t ts ih => exact ih (S.answer_mono h)

/-- What has come out is at most the answer. -/
theorem Carries.le (h : S.Carries ts m n) : n ≤ S.answers ts m := by
  induction h with
  | nil m => exact le_refl m
  | cons _ hread _ ih => exact le_trans ih (answers_mono (S.answer_mono (S.le_read hread)))

/-! ## When nothing more comes -/

/-- It is the answer when no register holds anything. -/
theorem Carries.eq_answers (h : S.Carries ts m n) (hidle : ∀ t ∈ ts, S.idle (S.held t)) : n = S.answers ts m := by
  induction h with
  | nil m => rfl
  | cons _ hread _ ih =>
    rw [List.forall_mem_cons] at hidle
    rw [ih hidle.2, answers, S.read_idle hidle.1 hread]

/-- In a cycle without a symbol one more register becomes free. -/
lemma idle_cycle {k : ℕ} (hts : ∀ t ∈ ts.take k, S.idle (S.held t)) (hi : S.idle i) :
    ∀ t ∈ (S.cycle ts i).1.take (k + 1), S.idle (S.held t) := by
  induction ts generalizing i k with
  | nil =>
    intro t ht
    cases ht
  | cons t ts ih =>
    rw [cycle, List.take_succ_cons, List.forall_mem_cons, S.held_clock]
    refine ⟨hi, ?_⟩
    cases k with
    | zero =>
      intro t' ht'
      cases ht'
    | succ k =>
      rw [List.take_succ_cons, List.forall_mem_cons] at hts
      exact ih hts.2 (S.idle_out hts.1)

end Relay

end Rules
