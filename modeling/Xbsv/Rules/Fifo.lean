import Mathlib.Data.List.Basic
import Mathlib.Tactic.Common

set_option relaxedAutoImplicit false
set_option autoImplicit false

/-!
# Bounded queues

A queue of capacity `n` with guarded operations: `enq` is refused when the queue is full and
`deq` when it is empty. The capacity is part of the type and the bound is a field, so that a
queue holding more than `n` elements cannot be written down.

The operations return `Option`, `none` being a guard that does not hold. A rule that uses
several queues is then a `do` block of `Option`, and it fires exactly when every guard it
needs holds.

## Main definitions

* `Rules.Fifo` — a queue of at most `n` elements, oldest first.
* `Rules.Fifo.enq`, `Rules.Fifo.deq`, `Rules.Fifo.first` — the guarded operations.
* `Rules.Fifo.pipelined`, `Rules.Fifo.cycle` — both operations in one cycle.

## Main results

* `Rules.Fifo.enq_eq_some`, `Rules.Fifo.deq_eq_some` — what a successful operation does to the
  list of elements.
* `Rules.Fifo.exists_enq`, `Rules.Fifo.exists_deq` — when the operations succeed.
-/

namespace Rules

/-- A queue of at most `n` elements, oldest first. -/
@[ext]
structure Fifo (n : ℕ) (α : Type*) where
  /-- The elements, oldest first. -/
  items : List α
  /-- The capacity is respected. -/
  length_le : items.length ≤ n

namespace Fifo

variable {n : ℕ} {α : Type*}

/-- The empty queue. -/
def empty : Fifo n α := ⟨[], Nat.zero_le n⟩

instance : Inhabited (Fifo n α) := ⟨empty⟩

instance [DecidableEq α] : DecidableEq (Fifo n α) := fun p q =>
  decidable_of_iff (p.items = q.items) ⟨Fifo.ext, congrArg items⟩

/-- Append at the back; refused when the queue is full. -/
def enq (q : Fifo n α) (x : α) : Option (Fifo n α) :=
  if h : q.items.length < n then
    some ⟨q.items ++ [x], by rw [List.length_append]; exact h⟩
  else none

/-- Take from the front; refused when the queue is empty. -/
def deq (q : Fifo n α) : Option (α × Fifo n α) :=
  match q with
  | ⟨[], _⟩ => none
  | ⟨x :: xs, h⟩ => some (x, ⟨xs, Nat.le_of_succ_le h⟩)

/-- Append at the back if a condition holds. -/
def enqIf (q : Fifo n α) (b : Bool) (x : α) : Option (Fifo n α) := if b then q.enq x else some q

/-- Drop the oldest element if a condition holds. -/
def dropIf (q : Fifo n α) (b : Bool) : Option (Fifo n α) := if b then q.deq.map Prod.snd else some q

/-- In one cycle of a pipeline, drop the oldest element if a condition holds, and append the element if there is one:
a full queue takes an element in the cycle in which one is dropped. -/
def pipelined (q : Fifo n α) (b : Bool) (x : Option α) : Option (Fifo n α) :=
  match x with
  | none => q.dropIf b
  | some x => (q.dropIf b).bind fun q => q.enq x

/-- The same for other queues, where both are refused as the queue is at the beginning of the cycle. -/
def cycle (q : Fifo n α) (b : Bool) (x : Option α) : Option (Fifo n α) :=
  if x ≠ none → q.items.length < n then q.pipelined b x else none

/-- Look at the oldest element; refused when the queue is empty. -/
def first (q : Fifo n α) : Option α := q.items.head?

@[simp] lemma items_empty : (empty : Fifo n α).items = [] := rfl

/-- A successful `enq` found room and appended its element. -/
@[simp] lemma enq_eq_some {q q' : Fifo n α} {x : α} :
    q.enq x = some q' ↔ q.items.length < n ∧ q'.items = q.items ++ [x] := by
  unfold enq
  split
  · rename_i h
    simp only [Option.some.injEq, h, true_and]
    constructor
    · rintro rfl; rfl
    · intro he; exact Fifo.ext he.symm
  · rename_i h
    simp [h]

/-- A successful `deq` returned the oldest element and kept the others. -/
@[simp] lemma deq_eq_some {q q' : Fifo n α} {x : α} :
    q.deq = some (x, q') ↔ q.items = x :: q'.items := by
  obtain ⟨l, hl⟩ := q
  cases l with
  | nil => simp [deq]
  | cons y ys =>
    simp only [deq, Option.some.injEq, Prod.mk.injEq, List.cons.injEq]
    constructor
    · rintro ⟨rfl, rfl⟩; exact ⟨rfl, rfl⟩
    · rintro ⟨rfl, h⟩; exact ⟨rfl, Fifo.ext h⟩

/-- `deq` is refused when the queue is empty. -/
lemma deq_eq_none {q : Fifo n α} : q.deq = none ↔ q.items = [] := by
  obtain ⟨l, hl⟩ := q
  cases l with
  | nil => simp [deq]
  | cons y ys => simp [deq]

/-- A successful `enqIf` appended its element if the condition holds, and found room then. -/
lemma enqIf_eq_some {q q' : Fifo n α} {b : Bool} {x : α} :
    q.enqIf b x = some q' ↔
      (b = true → q.items.length < n) ∧ q'.items = q.items ++ if b then [x] else [] := by
  cases b with
  | false =>
    simp only [enqIf, Bool.false_eq_true, if_false, Option.some.injEq, false_implies, true_and,
      List.append_nil]
    exact ⟨fun h => h ▸ rfl, fun h => Fifo.ext h.symm⟩
  | true => simp [enqIf]

/-- A successful `dropIf` dropped the oldest element if the condition holds. -/
lemma dropIf_eq_some {q q' : Fifo n α} {b : Bool} :
    q.dropIf b = some q' ↔ if b then ∃ x, q.items = x :: q'.items else q' = q := by
  cases b with
  | false => simp [dropIf, eq_comm]
  | true => simp [dropIf]

/-- The elements that are left. -/
lemma dropIf_items {q q' : Fifo n α} {b : Bool} (h : q.dropIf b = some q') :
    (b = true → q.items ≠ []) ∧ q'.items = if b then q.items.tail else q.items := by
  rw [dropIf_eq_some] at h
  cases b with
  | false => exact ⟨fun hb => absurd hb Bool.false_ne_true, congrArg items h⟩
  | true =>
    obtain ⟨y, hy⟩ := h
    exact ⟨fun _ hnil => List.cons_ne_nil _ _ (hy.symm.trans hnil), by rw [hy]; rfl⟩

/-- What a cycle of a pipeline needs and does. -/
lemma pipelined_eq_some {q q' : Fifo n α} {b : Bool} {x : Option α} (h : q.pipelined b x = some q') :
    (b = true → q.items ≠ []) ∧ (x ≠ none → (if b then q.items.tail else q.items).length < n) ∧
      q'.items = (if b then q.items.tail else q.items) ++ x.toList := by
  cases x with
  | none =>
    obtain ⟨hne, hitems⟩ := dropIf_items h
    exact ⟨hne, fun hx => absurd rfl hx, by rw [hitems, Option.toList_none, List.append_nil]⟩
  | some x =>
    obtain ⟨q₁, hq, henq⟩ := Option.bind_eq_some_iff.mp h
    obtain ⟨hne, hitems⟩ := dropIf_items hq
    obtain ⟨hroom, hitems'⟩ := enq_eq_some.mp henq
    exact ⟨hne, fun _ => hitems ▸ hroom, by rw [hitems', hitems]; rfl⟩

/-- What a cycle needs and does. -/
lemma cycle_eq_some {q q' : Fifo n α} {b : Bool} {x : Option α} (h : q.cycle b x = some q') :
    (b = true → q.items ≠ []) ∧ (x ≠ none → q.items.length < n) ∧
      q'.items = (if b then q.items.tail else q.items) ++ x.toList := by
  rw [cycle] at h
  split at h
  case isTrue hroom =>
    obtain ⟨hne, -, hitems⟩ := pipelined_eq_some h
    exact ⟨hne, hroom, hitems⟩
  case isFalse => cases h

/-- A successful `first` returned the oldest element. -/
@[simp] lemma first_eq_some {q : Fifo n α} {x : α} :
    q.first = some x ↔ ∃ xs, q.items = x :: xs := by
  unfold first
  cases q.items with
  | nil => simp
  | cons y ys => simp [eq_comm]

/-- There is room for one more element in a queue that is not full. -/
lemma exists_enq {q : Fifo n α} (h : q.items.length < n) (x : α) :
    ∃ q', q.enq x = some q' ∧ q'.items = q.items ++ [x] := by
  refine ⟨⟨q.items ++ [x], by rw [List.length_append]; exact h⟩, ?_, rfl⟩
  rw [enq_eq_some]
  exact ⟨h, rfl⟩

/-- A queue whose first element is known can be dequeued. -/
lemma exists_deq {q : Fifo n α} {x : α} {xs : List α} (h : q.items = x :: xs) :
    ∃ q', q.deq = some (x, q') ∧ q'.items = xs := by
  have hl : xs.length ≤ n := by
    have := q.length_le
    rw [h, List.length_cons] at this
    omega
  refine ⟨⟨xs, hl⟩, ?_, rfl⟩
  rw [deq_eq_some]
  exact h

/-- `enqIf` needs room only if its condition holds. -/
lemma exists_enqIf {q : Fifo n α} {b : Bool} (h : b = true → q.items.length < n) (x : α) :
    ∃ q', q.enqIf b x = some q' := by
  cases b with
  | false => exact ⟨q, rfl⟩
  | true =>
    obtain ⟨q', hq, -⟩ := exists_enq (h rfl) x
    exact ⟨q', hq⟩

/-- `dropIf` can drop the first element of a queue that is not empty. -/
lemma exists_dropIf {q : Fifo n α} {x : α} {xs : List α} (h : q.items = x :: xs) (b : Bool) :
    ∃ q', q.dropIf b = some q' := by
  cases b with
  | false => exact ⟨q, rfl⟩
  | true =>
    obtain ⟨q', hq, -⟩ := exists_deq h
    exact ⟨q', by simp [dropIf, hq]⟩

end Fifo

end Rules
