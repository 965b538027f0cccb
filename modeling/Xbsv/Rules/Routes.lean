import Mathlib.Algebra.BigOperators.Group.Finset.Piecewise
import Mathlib.Algebra.Order.BigOperators.Group.Finset
import Mathlib.Logic.Relation
import Mathlib.Tactic.Common

set_option relaxedAutoImplicit false
set_option autoImplicit false

/-!
# Routed queues

Queues between which elements move one at a time. Each element has a key, which tells where it enters and where it goes
next from every queue. All routes go down a numbering of the queues, so that none of them meets a queue twice.

Other elements may be moved at any time, and in any order. Still the elements of one key leave in the order in which they
entered, none is lost and none is repeated.

## Main definitions

* `Rules.Routes` — where elements enter and where they go.
* `Rules.Routes.stream` — the elements of a key from some queue on, in the order in which they leave.
* `Rules.Routes.Flow` — what has entered has left, or is in the queues.
* `Rules.load` — the elements of all queues, weighted.

## Main results

* `Rules.Routes.Flow.enter`, `Rules.Routes.Flow.hop`, `Rules.Routes.Flow.leave` — what the moves do.
* `Rules.Routes.Flow.outs_prefix`, `Rules.Routes.Flow.outs_eq` — what has left.
* `Rules.sum_update` — a sum over all places, when one of them changes.
* `Rules.load_push`, `Rules.load_pop` — what the moves do to the weight.
-/

namespace Rules

/-- The routes of the elements of each key through the queues `N`. -/
structure Routes (N K : Type*) where
  /-- Where the elements enter. -/
  source : K → N
  /-- The next queue, if an element does not leave. -/
  next : K → N → Option N
  /-- The numbering of the queues. -/
  level : N → ℕ
  level_lt : ∀ {k n m}, next k n = some m → level m < level n

namespace Routes

variable {N K α : Type*} (R : Routes N K)

/-- The route of `k` goes from `n` to `m`, in any number of steps. -/
def Leads (k : K) : N → N → Prop := Relation.ReflTransGen fun n m => R.next k n = some m

/-- Every element is on its route. -/
def Confined (key : α → K) (t : N → List α) : Prop := ∀ n, ∀ x ∈ t n, R.Leads (key x) (R.source (key x)) n

/-- The elements of key `k` in a queue. -/
def lane [DecidableEq K] (key : α → K) (t : N → List α) (k : K) (n : N) : List α := (t n).filter fun x => key x = k

/-- The elements of key `k` from queue `n` on, in the order in which they leave. -/
def stream [DecidableEq K] (key : α → K) (t : N → List α) (k : K) (n : N) : List α :=
  (match _h : R.next k n with
    | none => []
    | some m => stream key t k m) ++ lane key t k n
  termination_by R.level n
  decreasing_by exact R.level_lt _h

/-- The elements of `t`, in queues that had others. -/
def push [DecidableEq N] (t : N → List α) (n : N) (x : α) : N → List α := Function.update t n (t n ++ [x])

/-- The queues after the first element of `n` was taken, and `l` is left there. -/
def pop [DecidableEq N] (t : N → List α) (n : N) (l : List α) : N → List α := Function.update t n l

section Stream

variable {R} [DecidableEq N] [DecidableEq K] {key : α → K} {t t' : N → List α} {k : K} {n m p : N} {x : α} {l : List α}

omit [DecidableEq N] in
lemma stream_last (h : R.next k n = none) : R.stream key t k n = lane key t k n := by
  rw [stream]
  split
  · rfl
  · rename_i m hm
    rw [h] at hm
    cases hm

omit [DecidableEq N] in
lemma stream_next (h : R.next k n = some m) : R.stream key t k n = R.stream key t k m ++ lane key t k n := by
  rw [stream]
  split
  · rename_i hn
    rw [h] at hn
    cases hn
  · rename_i m' hm
    rw [h, Option.some.injEq] at hm
    rw [hm]

omit [DecidableEq N] [DecidableEq K] in
/-- Routes go down. -/
lemma Leads.level_le (h : R.Leads k n m) : R.level m ≤ R.level n := by
  induction h with
  | refl => exact Nat.le_refl _
  | tail _ hstep ih => exact (R.level_lt hstep).le.trans ih

omit [DecidableEq N] [DecidableEq K] in
/-- One more step. -/
lemma Leads.step (h : R.Leads k n m) (hm : R.next k m = some p) : R.Leads k n p := Relation.ReflTransGen.tail h hm

omit [DecidableEq N] in
/-- The stream is that of the queues below. -/
lemma stream_congr (h : ∀ m, R.level m ≤ R.level n → lane key t k m = lane key t' k m) :
    R.stream key t k n = R.stream key t' k n := by
  induction hl : R.level n using Nat.strongRecOn generalizing n with
  | ind c ih =>
    subst hl
    cases hn : R.next k n with
    | none => rw [stream_last hn, stream_last hn, h n (Nat.le_refl _)]
    | some m =>
      have hlt := R.level_lt hn
      rw [stream_next hn, stream_next hn, h n (Nat.le_refl _), ih _ hlt (fun m' hm' => h m' (by omega)) rfl]

lemma lane_push_self (h : key x = k) : lane key (push t n x) k n = lane key t k n ++ [x] := by
  simp [lane, push, h]

lemma lane_push_of_ne (h : m ≠ n) : lane key (push t n x) k m = lane key t k m := by
  simp [lane, push, h]

lemma lane_push_of_key_ne (h : key x ≠ k) : lane key (push t n x) k m = lane key t k m := by
  by_cases hm : m = n
  · subst hm
    simp [lane, push, h]
  · exact lane_push_of_ne hm

lemma lane_pop_self (hx : t n = x :: l) (h : key x = k) : lane key t k n = x :: lane key (pop t n l) k n := by
  simp [lane, pop, hx, h]

lemma lane_pop_of_ne (h : m ≠ n) : lane key (pop t n l) k m = lane key t k m := by
  simp [lane, pop, h]

lemma lane_pop_of_key_ne (hx : t n = x :: l) (h : key x ≠ k) : lane key (pop t n l) k m = lane key t k m := by
  by_cases hm : m = n
  · subst hm
    simp [lane, pop, hx, h]
  · exact lane_pop_of_ne hm

/-- Elements of other keys. -/
lemma stream_push_of_key_ne (h : key x ≠ k) : R.stream key (push t n x) k p = R.stream key t k p :=
  stream_congr fun _ _ => lane_push_of_key_ne h

lemma stream_pop_of_key_ne (hx : t n = x :: l) (h : key x ≠ k) : R.stream key (pop t n l) k p = R.stream key t k p :=
  stream_congr fun _ _ => lane_pop_of_key_ne hx h

/-- An element that enters a queue is the last one from there on. -/
lemma stream_push_self (h : key x = k) : R.stream key (push t n x) k n = R.stream key t k n ++ [x] := by
  cases hn : R.next k n with
  | none => rw [stream_last hn, stream_last hn, lane_push_self h]
  | some m =>
    have hlt := R.level_lt hn
    have hbelow : R.stream key (push t n x) k m = R.stream key t k m :=
      stream_congr fun m' hm' => lane_push_of_ne (by rintro rfl; omega)
    rw [stream_next hn, stream_next hn, lane_push_self h, hbelow, List.append_assoc]

/-- An element that leaves was the first one. -/
lemma stream_pop_last (hx : t n = x :: l) (h : key x = k) (hn : R.next k n = none) (hp : R.Leads k p n) :
    R.stream key t k p = x :: R.stream key (pop t n l) k p := by
  induction hp using Relation.ReflTransGen.head_induction_on with
  | refl => rw [stream_last hn, stream_last hn, lane_pop_self hx h]
  | head hstep hrest ih =>
    rename_i q q'
    have hlt := R.level_lt hstep
    have hle := Leads.level_le hrest
    rw [stream_next hstep, stream_next hstep, ih, lane_pop_of_ne (by rintro rfl; omega), List.cons_append]

/-- An element that moves on keeps its place. -/
lemma stream_hop (hx : t n = x :: l) (h : key x = k) (hn : R.next k n = some m) (hp : R.Leads k p n) :
    R.stream key (push (pop t n l) m x) k p = R.stream key t k p := by
  have hlt := R.level_lt hn
  induction hp using Relation.ReflTransGen.head_induction_on with
  | refl =>
    have hbelow : R.stream key (pop t n l) k m = R.stream key t k m :=
      stream_congr fun m' hm' => lane_pop_of_ne (by rintro rfl; omega)
    rw [stream_next hn, stream_next hn, stream_push_self h, hbelow, lane_push_of_ne (by rintro rfl; omega), lane_pop_self hx h,
      List.append_assoc]
    rfl
  | head hstep hrest ih =>
    have hlt' := R.level_lt hstep
    have hle := Leads.level_le hrest
    rw [stream_next hstep, stream_next hstep, ih, lane_push_of_ne (by rintro rfl; omega),
      lane_pop_of_ne (by rintro rfl; omega)]

omit [DecidableEq N] in
/-- The stream of a key is empty when its queues are. -/
lemma stream_eq_nil (h : ∀ n, t n = []) : R.stream key t k n = [] := by
  induction hl : R.level n using Nat.strongRecOn generalizing n with
  | ind c ih =>
    subst hl
    have hlane : lane key t k n = [] := by rw [lane, h n, List.filter_nil]
    cases hn : R.next k n with
    | none => rw [stream_last hn, hlane]
    | some m => rw [stream_next hn, hlane, ih _ (R.level_lt hn) rfl, List.append_nil]

end Stream

/-! ## From end to end -/

section Flow

variable [DecidableEq K]

/-- Of every key, what has entered has left in this order, or is in the queues. -/
structure Flow (key : α → K) (ins outs : K → List α) (t : N → List α) : Prop where
  confined : R.Confined key t
  stream_eq : ∀ k, outs k ++ R.stream key t k (R.source k) = ins k

variable {R} {key : α → K} {ins outs : K → List α} {t : N → List α} {n m : N} {x : α} {l : List α}

lemma flow_empty : R.Flow key (fun _ => []) (fun _ => []) (fun _ => []) where
  confined := by rintro n x ⟨⟩
  stream_eq k := by rw [stream_eq_nil fun _ => rfl]; rfl

variable [DecidableEq N]

/-- An element enters. -/
lemma Flow.enter (h : R.Flow key ins outs t) (hn : R.source (key x) = n) :
    R.Flow key (Function.update ins (key x) (ins (key x) ++ [x])) outs (push t n x) := by
  subst hn
  refine ⟨fun m y hy => ?_, fun k => ?_⟩
  · rw [push, Function.update_apply] at hy
    split at hy
    · rename_i hm
      subst hm
      rcases List.mem_append.mp hy with hy | hy
      · exact h.confined _ y hy
      · rw [List.mem_singleton.mp hy]
        exact .refl
    · exact h.confined m y hy
  · rw [Function.update_apply]
    by_cases hk : k = key x
    · subst hk
      rw [if_pos rfl, stream_push_self rfl, ← List.append_assoc, h.stream_eq]
    · rw [if_neg hk, stream_push_of_key_ne (Ne.symm hk), h.stream_eq]

omit [DecidableEq K] in
/-- Elements that stay where they are. -/
lemma Confined.pop (h : R.Confined key t) (hx : t n = x :: l) : R.Confined key (pop t n l) := by
  intro m y hy
  rw [Routes.pop, Function.update_apply] at hy
  split at hy
  · rename_i hm
    subst hm
    exact h _ y (by rw [hx]; exact List.mem_cons_of_mem _ hy)
  · exact h m y hy

/-- An element moves on. -/
lemma Flow.hop (h : R.Flow key ins outs t) (hx : t n = x :: l) (hn : R.next (key x) n = some m) :
    R.Flow key ins outs (push (pop t n l) m x) := by
  have hleads : R.Leads (key x) (R.source (key x)) n := h.confined n x (by rw [hx]; exact List.mem_cons_self)
  refine ⟨fun q y hy => ?_, fun k => ?_⟩
  · rw [push, Function.update_apply] at hy
    split at hy
    · rename_i hq
      subst hq
      rcases List.mem_append.mp hy with hy | hy
      · exact (h.confined.pop hx) _ y hy
      · rw [List.mem_singleton.mp hy]
        exact hleads.step hn
    · exact (h.confined.pop hx) q y hy
  · by_cases hk : key x = k
    · subst hk
      rw [stream_hop hx rfl hn hleads, h.stream_eq]
    · rw [stream_push_of_key_ne hk, stream_pop_of_key_ne hx hk, h.stream_eq]

/-- An element leaves. -/
lemma Flow.leave (h : R.Flow key ins outs t) (hx : t n = x :: l) (hn : R.next (key x) n = none) :
    R.Flow key ins (Function.update outs (key x) (outs (key x) ++ [x])) (pop t n l) := by
  have hleads : R.Leads (key x) (R.source (key x)) n := h.confined n x (by rw [hx]; exact List.mem_cons_self)
  refine ⟨h.confined.pop hx, fun k => ?_⟩
  rw [← h.stream_eq k, Function.update_apply]
  by_cases hk : k = key x
  · subst hk
    rw [if_pos rfl, stream_pop_last hx rfl hn hleads, List.append_assoc]
    rfl
  · rw [if_neg hk, stream_pop_of_key_ne hx (Ne.symm hk)]

omit [DecidableEq N] in
/-- What has left is the beginning of what has entered. -/
lemma Flow.outs_prefix (h : R.Flow key ins outs t) (k : K) : outs k <+: ins k := ⟨_, h.stream_eq k⟩

omit [DecidableEq N] in
/-- If the queues are empty, everything has left. -/
lemma Flow.outs_eq (h : R.Flow key ins outs t) (ht : ∀ n, t n = []) (k : K) : outs k = ins k := by
  rw [← h.stream_eq k, stream_eq_nil ht, List.append_nil]

end Flow

end Routes

/-! ## Weights -/

section Load

variable {N α β : Type*} [Fintype N] [DecidableEq N]

/-- A sum over all places, when one of them changes. -/
lemma sum_update (g : N → β → ℕ) (f : N → β) (n : N) (b : β) :
    ∑ m, g m (Function.update f n b m) + g n (f n) = ∑ m, g m (f m) + g n b := by
  have hrest : ∑ m ∈ Finset.univ.erase n, g m (Function.update f n b m) = ∑ m ∈ Finset.univ.erase n, g m (f m) := by
    refine Finset.sum_congr rfl fun m hm => ?_
    rw [Function.update_of_ne (Finset.ne_of_mem_erase hm)]
  rw [← Finset.add_sum_erase _ _ (Finset.mem_univ n), ← Finset.add_sum_erase _ (fun m => g m (f m)) (Finset.mem_univ n),
    hrest, Function.update_self]
  omega

variable (c : N → ℕ) {t : N → List α} {n : N} {x : α} {l : List α}

/-- The number of the elements, each with the weight of its queue. -/
def load (t : N → List α) : ℕ := ∑ n, c n * (t n).length

lemma load_push : load c (Routes.push t n x) = load c t + c n := by
  have h := sum_update (fun m l => c m * List.length l) t n (t n ++ [x])
  simp only [List.length_append, List.length_singleton, Nat.mul_succ] at h
  rw [Routes.push, load, load]
  omega

lemma load_pop (hx : t n = x :: l) : load c (Routes.pop t n l) + c n = load c t := by
  have h := sum_update (fun m l => c m * List.length l) t n l
  simp only [hx, List.length_cons, Nat.mul_succ] at h
  rw [Routes.pop, load, load]
  omega

end Load

end Rules
