import Xbsv.Rules.Drain

set_option relaxedAutoImplicit false
set_option autoImplicit false

/-!
# Networks between pipes

A network whose elements come from pipes outside, and leave to pipes outside. What entered a stream has left it in order,
or is still in the network.

The elements of a network that merges streams need not tell where they are from. Its run is then that of a network whose
elements have labels, which nobody looks at: the elements that leave are an interleaving of the streams.

## Main definitions

* `Rules.Net.Flow` — what entered has left, or is in the network.
* `Rules.Net.Shows` — a network as one sees it without the labels.
* `Rules.Merge` — interleavings of several lists.

## Main results

* `Rules.filterMap_concat_eq_update` — an event of one of the streams of a trace.
* `Rules.Net.Flow.enq`, `Rules.Net.Flow.move`, `Rules.Net.Flow.deq` — what the operations do.
* `Rules.Net.Shows.exists_move` — moves without the labels are moves with them.
-/

namespace Rules

/-! ## Interleavings -/

/-- A list that is an interleaving of several lists: the next element is the next of one of them. -/
inductive Merge {ι α : Type*} [DecidableEq ι] : (ι → List α) → List α → Prop
  /-- Nothing is there. -/
  | nil : Merge (fun _ => []) []
  /-- One more element, from the list `i`. -/
  | concat {ins : ι → List α} {out : List α} (i : ι) (x : α) :
      Merge ins out → Merge (Function.update ins i (ins i ++ [x])) (out ++ [x])

/-! ## Streams of a trace -/

/-- An event that concerns one of the streams that are read off a trace. -/
lemma filterMap_concat_eq_update {ε K β : Type*} [DecidableEq K] (g : K → ε → Option β) (tr : List ε) {e : ε} {k : K}
    {x : β} (he : ∀ j, g j e = if k = j then some x else none) :
    (fun j => (tr ++ [e]).filterMap (g j)) =
      Function.update (fun j => tr.filterMap (g j)) k (tr.filterMap (g k) ++ [x]) := by
  funext j
  rw [List.filterMap_append, Function.update_apply, List.filterMap_cons, he]
  by_cases hj : k = j
  · rw [if_pos hj, if_pos hj.symm, hj]
    rfl
  · rw [if_neg hj, if_neg (Ne.symm hj)]
    exact List.append_nil _

namespace Net

variable {N α β K : Type*} {cap : N → ℕ} [DecidableEq N]

/-! ## Streams from end to end -/

section Flow

variable [DecidableEq K]

/-- For every stream, what came in at the top, level `d`, has gone out at the bottom or is in the network. -/
structure Flow (P : Paths N α β K) (d : ℕ) (ins outs : K → List β) (s : Net cap α) : Prop where
  confined : s.Confined P
  below : s.Everywhere fun n _ => P.level n < d
  stream_eq : ∀ k, outs k ++ s.stream P k d = ins k

variable {P : Paths N α β K} {d : ℕ} {ins outs : K → List β} {s s' : Net cap α} {n : N} {x : α}
  {route : N → α → Option (N × α)}

omit [DecidableEq N] in
/-- A network without elements. -/
lemma flow_empty (P : Paths N α β K) (d : ℕ) : Flow P d (fun _ => []) (fun _ => []) (empty : Net cap α) := by
  refine ⟨?_, ?_, fun k => ?_⟩
  · rintro n x ⟨⟩
  · rintro n x ⟨⟩
  · rw [List.nil_append, stream_eq_nil]
    rintro n x ⟨⟩

/-- An element enters at the top. -/
lemma Flow.enq (h : Flow P (d + 1) ins outs s) (hf : P.Follows route) (henq : s.enq n x = some s')
    (hn : P.pos (P.key n x) d = n) :
    Flow P (d + 1) (Function.update ins (P.key n x) (ins (P.key n x) ++ [P.pay x])) outs s' := by
  have hlevel : P.level n = d := by
    rw [← hn]
    exact hf.level_pos _ _
  refine ⟨Everywhere.enq h.confined henq (by rw [hlevel, hn]), h.below.enq henq (by omega), fun k => ?_⟩
  rw [stream_enq hf henq hn, ← List.append_assoc, h.stream_eq, Function.update_apply]
  by_cases hk : k = P.key n x
  · subst hk
    rw [if_pos rfl, if_pos rfl]
  · rw [if_neg hk, if_neg (Ne.symm hk), List.append_nil]

/-- An element moves. -/
lemma Flow.move (h : Flow P d ins outs s) (hf : P.Follows route) (hmove : s.move route n = some s') :
    Flow P d ins outs s' := by
  obtain ⟨x, m, y, s₁, hdeq, hroute, henq⟩ := move_eq_some hmove
  have hx : x ∈ s.items n := by
    rw [(deq_eq_some hdeq).1]
    exact List.mem_cons_self
  have hlevel := (hf.route_eq hroute (h.confined n x hx)).1
  have hlt := h.below n x hx
  refine ⟨h.confined.move hf hmove, (h.below.deq hdeq).enq henq (by omega), fun k => ?_⟩
  rw [stream_move hf h.confined hmove hlt, h.stream_eq]

/-- An element leaves at the bottom. -/
lemma Flow.deq (h : Flow P d ins outs s) (hf : P.Follows route) (hdeq : s.deq n = some (x, s')) (hn : P.level n = 0) :
    Flow P d ins (Function.update outs (P.key n x) (outs (P.key n x) ++ [P.pay x])) s' := by
  have hx : x ∈ s.items n := by
    rw [(deq_eq_some hdeq).1]
    exact List.mem_cons_self
  have hpos : P.pos (P.key n x) 0 = n := by
    rw [← hn]
    exact h.confined n x hx
  obtain ⟨e, rfl⟩ : ∃ e, d = e + 1 := ⟨d - 1, by have := h.below n x hx; omega⟩
  refine ⟨Everywhere.deq h.confined hdeq, h.below.deq hdeq, fun k => ?_⟩
  have hstream := stream_deq hf (k := k) e hdeq hpos
  rw [← h.stream_eq, hstream, Function.update_apply, ← List.append_assoc]
  by_cases hk : k = P.key n x
  · subst hk
    rw [if_pos rfl, if_pos rfl]
  · rw [if_neg hk, if_neg (Ne.symm hk), List.append_nil]

omit [DecidableEq N] in
/-- All that came in has gone out of a network that is empty. -/
lemma Flow.outs_eq (h : Flow P d ins outs s) (hempty : s.IsEmpty) : outs = ins := by
  funext k
  have hnone : s.Everywhere fun n x => P.key n x ≠ k := by
    intro n x hx
    rw [hempty n] at hx
    cases hx
  rw [← h.stream_eq, stream_eq_nil hnone, List.append_nil]

end Flow

/-! ## Labels -/

/-- `s` is what one sees of the network `t` without the labels. -/
def Shows (f : α → β) (t : Net cap α) (s : Net cap β) : Prop := ∀ n, s.items n = (t.items n).map f

variable {f : α → β} {t : Net cap α} {s s' : Net cap β} {n : N}

omit [DecidableEq N] in
lemma shows_empty (f : α → β) : Shows f (empty : Net cap α) empty := fun _ => rfl

/-- An element may enter with any label. -/
lemma Shows.exists_enq (h : Shows f t s) {y : α} (henq : s.enq n (f y) = some s') :
    ∃ t', t.enq n y = some t' ∧ Shows f t' s' := by
  obtain ⟨hroom, hitems⟩ := enq_eq_some henq
  rw [h n, List.length_map] at hroom
  obtain ⟨t', ht⟩ := Net.exists_enq hroom y
  refine ⟨t', ht, fun m => ?_⟩
  rw [hitems m, (enq_eq_some ht).2 m]
  split
  · rw [h n, List.map_append, List.map_singleton]
  · exact h m

/-- An element that leaves has a label. -/
lemma Shows.exists_deq (h : Shows f t s) {x : β} (hdeq : s.deq n = some (x, s')) :
    ∃ y t', t.deq n = some (y, t') ∧ f y = x ∧ Shows f t' s' := by
  obtain ⟨hn, hne⟩ := deq_eq_some hdeq
  rw [h n, List.map_eq_cons_iff] at hn
  obtain ⟨y, ys, ht, rfl, hys⟩ := hn
  obtain ⟨t', hdeq'⟩ := Net.exists_deq ht
  obtain ⟨hn', hne'⟩ := deq_eq_some hdeq'
  rw [ht, List.cons.injEq] at hn'
  refine ⟨y, t', hdeq', rfl, fun m => ?_⟩
  by_cases hm : m = n
  · rw [hm, ← hys, hn'.2]
  · rw [hne m hm, hne' m hm, h m]

/-- **Labels do not matter**: what moves without the labels moves with them. -/
lemma Shows.exists_move {route : N → β → Option (N × β)} {route' : N → α → Option (N × α)} (h : Shows f t s)
    (hroute : ∀ n y, route n (f y) = (route' n y).map fun r => (r.1, f r.2)) (hmove : s.move route n = some s') :
    ∃ t', t.move route' n = some t' ∧ Shows f t' s' := by
  obtain ⟨x, m, z, s₁, hdeq, hr, henq⟩ := move_eq_some hmove
  obtain ⟨y, t₁, hdeq', rfl, h₁⟩ := h.exists_deq hdeq
  rw [hroute, Option.map_eq_some_iff] at hr
  obtain ⟨⟨m', y'⟩, hr', heq⟩ := hr
  obtain ⟨rfl, rfl⟩ := Prod.mk.inj heq
  obtain ⟨t', henq', h'⟩ := h₁.exists_enq henq
  exact ⟨t', by simp [move, hdeq', hr', henq'], h'⟩

/-- What moves with the labels moves without them. -/
lemma Shows.move {route : N → β → Option (N × β)} {route' : N → α → Option (N × α)} (h : Shows f t s)
    (hroute : ∀ n y, route n (f y) = (route' n y).map fun r => (r.1, f r.2)) {t' : Net cap α}
    (hmove : t.move route' n = some t') : ∃ s', s.move route n = some s' ∧ Shows f t' s' := by
  obtain ⟨y, m, z, t₁, hdeq, hr, henq⟩ := move_eq_some hmove
  obtain ⟨hn, hne⟩ := deq_eq_some hdeq
  have hs : s.items n = f y :: (t₁.items n).map f := by rw [h n, hn, List.map_cons]
  obtain ⟨s₁, hdeq'⟩ := Net.exists_deq hs
  obtain ⟨hn', hne'⟩ := deq_eq_some hdeq'
  have h₁ : Shows f t₁ s₁ := by
    intro m
    by_cases hm : m = n
    · rw [hs, List.cons.injEq] at hn'
      rw [hm, ← hn'.2]
    · rw [hne' m hm, hne m hm, h m]
  obtain ⟨hroom, hitems⟩ := enq_eq_some henq
  obtain ⟨s', henq'⟩ := Net.exists_enq (s := s₁) (n := m) (by rwa [h₁ m, List.length_map]) (f z)
  refine ⟨s', by simp [Net.move, hdeq', hroute, hr, henq'], fun j => ?_⟩
  rw [(enq_eq_some henq').2 j, hitems j]
  split
  · rw [h₁ m, List.map_append, List.map_singleton]
  · exact h₁ j

omit [DecidableEq N] in
/-- Labels weigh nothing. -/
lemma Shows.weight_eq (h : Shows f t s) (S : Finset N) (w : N → ℕ) : s.weight S w = t.weight S w := by
  unfold weight
  refine Finset.sum_congr rfl fun n _ => ?_
  rw [h n, List.length_map]

end Net

end Rules
