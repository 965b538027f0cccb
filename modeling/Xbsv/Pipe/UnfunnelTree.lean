import Xbsv.Engine.Pipe
import Xbsv.Rules.Flow

set_option relaxedAutoImplicit false
set_option autoImplicit false

/-!
# Unfunnels route

`mkUnFunnelPipesPipelined` for more than one output, with a pipe at its input that offers any elements, with the numbers of
their outputs, at any times. The rule that reads the input takes an element from outside, and the outputs are the queues of
the last stage, level 1.

## Main definitions

* `Xbsv.unFunnelPipesPipelined` — the module, between its pipes.
* `Xbsv.unfunnelTreePaths` — the streams from the first stage to the last.

## Main results

* `Xbsv.UnfunnelTree.Tracks.step` — elements are on their way to their outputs.
* `Xbsv.UnfunnelTree.routes` — every output gives out its own elements in order, and in the end all of them.
-/

namespace Xbsv

open Rules

/-- The queues `buff` of an unfunnel. The input is outside, and nothing comes after level 1. -/
abbrev UnfunnelTree (k : ℕ) (α : Type) : Type := Net (unfunnelCap 0) (BitVec (tlog k) × α)

/-- The rules `xfer` between the stages. -/
def unfunnelTreeRoute {β : Type} (k bpc : ℕ) (n : Node) (x : BitVec (tlog k) × β) : Option (Node × (BitVec (tlog k) × β)) :=
  if n.1 ≤ 1 then none else unfunnelRoute k bpc n x

namespace UnfunnelTree

variable {k : ℕ} {α : Type}

/-- A rule `xfer` of the first stage fires, where the input offers `v` for output `idx`; a rule of another stage; and output
`i` is taken. -/
inductive Action (k : ℕ) (α : Type)
  | input (idx : Fin k) (v : α)
  | xfer (n : Node)
  | deq (i : ℕ)

/-- An element for output `idx` is taken from the input, and an element is taken from output `i`. -/
inductive Event (k : ℕ) (α : Type)
  | entered (idx : Fin k) (v : α)
  | delivered (i : ℕ) (v : α)

def step (bpc : ℕ) (s : UnfunnelTree k α) : Action k α → Option (UnfunnelTree k α × List (Event k α))
  | .input idx v => do
    let (m, y) ← unfunnelTreeRoute k bpc (stages k bpc + 1, 0) (BitVec.ofNat (tlog k) idx, v)
    let s' ← s.enq m y
    return (s', [.entered idx v])
  | .xfer n => (s.move (unfunnelTreeRoute k bpc) n).map fun s' => (s', [])
  | .deq i => (s.deq (1, i)).map fun r => (r.2, [.delivered i r.1.2])

end UnfunnelTree

/-- The unfunnel of `k` outputs, with elements offered and taken at any times. -/
def unFunnelPipesPipelined (k bpc : ℕ) (α : Type) :
    RuleSystem (UnfunnelTree k α) (UnfunnelTree.Action k α) (UnfunnelTree.Event k α) where
  step s a := s.step bpc a

/-! ## Paths -/

section Paths

variable {β : Type} {k bpc : ℕ}

/-- Streams of an unfunnel, from the first stage on: the elements on their way to one output, which leave at level 1. -/
def unfunnelTreePaths (k bpc : ℕ) (β : Type) : Net.Paths Node (BitVec (tlog k) × β) β ℕ where
  key n x := outputOf k bpc n x.1
  pay := Prod.snd
  level n := n.1 - 1
  pos c j := (j + 1, c / 2 ^ (tlog k - tagShift k bpc (j + 1)))

/-- An element is on the path to its output. -/
lemma unfunnelTreePaths_pos {n : Node} (hn : 0 < n.1) (x : BitVec (tlog k) × β) :
    (unfunnelTreePaths k bpc β).pos ((unfunnelTreePaths k bpc β).key n x) ((unfunnelTreePaths k bpc β).level n) = n := by
  have hlevel : n.1 - 1 + 1 = n.1 := by omega
  simp only [unfunnelTreePaths, hlevel, outputOf_div hn.ne']

/-- Elements follow the path to their output. -/
lemma unfunnelTree_follows (hk : k ≤ 1 ∨ 0 < bpc) (hb : bpc ≤ tlog k) :
    (unfunnelTreePaths k bpc β).Follows (unfunnelTreeRoute k bpc) where
  level_pos _ _ := rfl
  route_eq := by
    intro n x m y hroute _
    simp only [unfunnelTreeRoute, Option.ite_none_left_eq_some] at hroute
    obtain ⟨hn, hroute⟩ := hroute
    obtain ⟨hlevel, hkey, hpay, -⟩ := (unfunnel_follows hk hb).route_eq hroute (unfunnelPaths_pos n x)
    have hlevel' : n.1 = m.1 + 1 := hlevel
    have hkey' : (unfunnelTreePaths k bpc β).key m y = (unfunnelTreePaths k bpc β).key n x := hkey
    have hpos : (unfunnelTreePaths k bpc β).pos ((unfunnelTreePaths k bpc β).key m y)
        ((unfunnelTreePaths k bpc β).level m) = m := unfunnelTreePaths_pos (by omega) y
    rw [hkey'] at hpos
    refine ⟨?_, hkey', hpay, hpos⟩
    show n.1 - 1 = m.1 - 1 + 1
    omega

/-- At level 1 the number of the node is that of the output. -/
lemma outputOf_one (hk : k ≤ 1 ∨ 0 < bpc) (i : ℕ) (tag : BitVec (tlog k)) : outputOf k bpc (1, i) tag = i := by
  have hshift : tlog k ≤ tagShift k bpc 1 := by
    rw [tagShift, Nat.add_sub_cancel]
    exact tlog_le_stages hk
  have hzero : tag.toNat / 2 ^ tagShift k bpc 1 = 0 :=
    Nat.div_eq_of_lt (Nat.lt_of_lt_of_le tag.isLt (Nat.pow_le_pow_right (by omega) hshift))
  simp [outputOf, hzero, Nat.sub_eq_zero_of_le hshift]

/-- The number that an element comes in with is that of its output. -/
lemma outputOf_top (idx : Fin k) : outputOf k bpc (stages k bpc + 1, 0) (BitVec.ofNat (tlog k) idx) = idx := by
  have hle := le_two_pow_tlog k
  have hval : (BitVec.ofNat (tlog k) idx.val).toNat = idx := by
    rw [BitVec.toNat_ofNat, Nat.mod_eq_of_lt (by omega)]
  simp [outputOf, tagShift, hval]

end Paths

namespace UnfunnelTree

variable {k bpc : ℕ} {α : Type}

/-! ## What is delivered -/

/-- The elements for an output that were taken from the input. -/
def entered (tr : List (Event k α)) (i : ℕ) : List α :=
  tr.filterMap fun
    | .entered idx v => if idx = i then some v else none
    | .delivered _ _ => none

/-- The elements that were taken from an output. -/
def delivered (tr : List (Event k α)) (i : ℕ) : List α :=
  tr.filterMap fun
    | .entered _ _ => none
    | .delivered j v => if j = i then some v else none

section Traces

variable (tr : List (Event k α)) (idx : Fin k) (i : ℕ) (v : α)

lemma entered_entered :
    entered (tr ++ [Event.entered idx v]) = Function.update (entered tr) idx (entered tr idx ++ [v]) :=
  filterMap_concat_eq_update _ tr fun _ => rfl

lemma entered_delivered : entered (tr ++ [Event.delivered i v]) = entered tr := by
  funext j
  rw [entered, List.filterMap_append]
  exact List.append_nil _

lemma delivered_entered : delivered (tr ++ [Event.entered idx v]) = delivered tr := by
  funext j
  rw [delivered, List.filterMap_append]
  exact List.append_nil _

lemma delivered_delivered :
    delivered (tr ++ [Event.delivered i v]) = Function.update (delivered tr) i (delivered tr i ++ [v]) :=
  filterMap_concat_eq_update _ tr fun _ => rfl

end Traces

/-- What came in has gone out where it should, or is on its way there. -/
structure Tracks (bpc : ℕ) (tr : List (Event k α)) (s : UnfunnelTree k α) : Prop where
  flow : s.Flow (unfunnelTreePaths k bpc α) (stages k bpc) (entered tr) (delivered tr)
  directed : s.Everywhere fun n x => 0 < n.1 ∧ Directed k bpc n x

variable {tr es : List (Event k α)} {s s' : UnfunnelTree k α}

lemma tracks_empty : Tracks bpc ([] : List (Event k α)) (Net.empty : UnfunnelTree k α) :=
  ⟨Net.flow_empty _ _, by rintro n x ⟨⟩⟩

/-- Elements that move stay on their way. -/
lemma directed_route (hk : 0 < bpc) (hb : bpc ≤ tlog k) {n m : Node} {x y : BitVec (tlog k) × α}
    (h : 0 < n.1 ∧ Directed k bpc n x) (hr : unfunnelTreeRoute k bpc n x = some (m, y)) :
    n.1 = m.1 + 1 ∧ 0 < m.1 ∧ Directed k bpc m y := by
  simp only [unfunnelTreeRoute, Option.ite_none_left_eq_some] at hr
  obtain ⟨hlevel, hdir⟩ := h.2.route (.inr hk) hb hr.2
  exact ⟨hlevel, by omega, hdir⟩

/-- An element is taken from an output. -/
lemma flow_deq (hk : 0 < bpc) (hb : bpc ≤ tlog k) {d i : ℕ} {ins outs : ℕ → List α} {x : BitVec (tlog k) × α}
    (h : s.Flow (unfunnelTreePaths k bpc α) d ins outs) (hdeq : s.deq (1, i) = some (x, s')) :
    Net.Flow (unfunnelTreePaths k bpc α) d ins (Function.update outs i (outs i ++ [x.2])) s' := by
  have hflow := h.deq (unfunnelTree_follows (.inr hk) hb) hdeq rfl
  have hkey : (unfunnelTreePaths k bpc α).key (1, i) x = i := outputOf_one (.inr hk) i x.1
  rw [hkey] at hflow
  exact hflow

/-- **What a step does**: elements are on their way to their outputs. -/
lemma Tracks.step (h : Tracks bpc tr s) (hk : 0 < bpc) (hb : bpc ≤ tlog k) {a : Action k α}
    (hs : s.step bpc a = some (s', es)) : Tracks bpc (tr ++ es) s' := by
  have hf := unfunnelTree_follows (β := α) (.inr hk) hb
  cases a with
  | input idx v =>
    simp only [UnfunnelTree.step, bind, pure, Option.bind_eq_some_iff, Prod.exists, Option.some.injEq, Prod.mk.injEq] at hs
    obtain ⟨n₁, n₂, tag, w, hroute, s₁, henq, rfl, rfl⟩ := hs
    have htop : Directed k bpc (stages k bpc + 1, 0) (BitVec.ofNat (tlog k) idx, v) := directed_top idx.isLt v
    obtain ⟨hlevel, hpos, hdir⟩ := directed_route hk hb ⟨Nat.succ_pos _, htop⟩ hroute
    obtain ⟨-, hkey, hpay, -⟩ := hf.route_eq hroute (unfunnelTreePaths_pos (Nat.succ_pos _) _)
    obtain ⟨d, hd⟩ : ∃ d, stages k bpc = d + 1 := ⟨n₁ - 1, by simp only at hlevel hpos; omega⟩
    have hflow := h.flow
    rw [hd] at hflow
    have htopd : (unfunnelTreePaths k bpc α).pos ((unfunnelTreePaths k bpc α).key (n₁, n₂) (tag, w)) d = (n₁, n₂) := by
      have hd' : d = n₁ - 1 := by simp only at hlevel; omega
      rw [hd']
      exact unfunnelTreePaths_pos hpos (tag, w)
    have hflow' := hflow.enq hf henq htopd
    have hkey' : (unfunnelTreePaths k bpc α).key (n₁, n₂) (tag, w) = idx := hkey.trans (outputOf_top idx)
    have hpay' : (unfunnelTreePaths k bpc α).pay (tag, w) = v := hpay
    rw [hkey', hpay', ← hd] at hflow'
    refine ⟨?_, h.directed.enq henq ⟨hpos, hdir⟩⟩
    rw [entered_entered, delivered_entered]
    exact hflow'
  | xfer n =>
    simp only [UnfunnelTree.step, Option.map_eq_some_iff, Prod.mk.injEq] at hs
    obtain ⟨s₁, hmove, rfl, rfl⟩ := hs
    rw [List.append_nil]
    exact ⟨h.flow.move hf hmove, h.directed.move hmove fun hdir hr => (directed_route hk hb hdir hr).2⟩
  | deq i =>
    simp only [UnfunnelTree.step, Option.map_eq_some_iff, Prod.exists, Prod.mk.injEq] at hs
    obtain ⟨tag, v, s₁, hdeq, rfl, rfl⟩ := hs
    refine ⟨?_, h.directed.deq hdeq⟩
    rw [entered_delivered, delivered_delivered]
    exact flow_deq hk hb h.flow hdeq

/-- The nodes of an unfunnel, that of its input included. -/
def nodes (k bpc : ℕ) : Finset Node := Finset.range (stages k bpc + 2) ×ˢ Finset.range k

/-- The weight of the elements: each counts the rules that it waits for. -/
def rank (bpc : ℕ) (s : UnfunnelTree k α) : ℕ := Net.weight (nodes k bpc) (fun n => n.1 - 1 + 1) s

/-- Elements that are on their way are at the nodes in use. -/
lemma mem_nodes {n : Node} {x : BitVec (tlog k) × α} (h : Directed k bpc n x) : n ∈ nodes k bpc := by
  rw [nodes, Finset.mem_product, Finset.mem_range, Finset.mem_range]
  exact ⟨Nat.lt_succ_of_le h.level_le, h.node_lt⟩

/-- An element that is on its way can move on, or go out. -/
lemma exists_deq_or_move (hk : 0 < bpc) (hb : bpc ≤ tlog k) (h : s.Everywhere fun n x => 0 < n.1 ∧ Directed k bpc n x)
    (hne : ¬s.IsEmpty) :
    (∃ i x s', s.deq (1, i) = some (x, s') ∧ rank bpc s' < rank bpc s) ∨
      ∃ n s', s.move (unfunnelTreeRoute k bpc) n = some s' ∧ rank bpc s' < rank bpc s := by
  have hnodes : ∀ n, s.items n ≠ [] → n ∈ nodes k bpc := by
    intro n hn
    obtain ⟨x, hx⟩ := List.exists_mem_of_ne_nil _ hn
    exact mem_nodes (h n x hx).2
  by_cases hbottom : ∃ i, s.items (1, i) ≠ []
  · -- an output
    obtain ⟨i, hi⟩ := hbottom
    obtain ⟨x, xs, hx⟩ := List.exists_cons_of_ne_nil hi
    obtain ⟨s', hdeq⟩ := Net.exists_deq hx
    have hweight := Net.weight_deq (w := fun n : Node => n.1 - 1 + 1) hdeq (hnodes _ hi)
    refine .inl ⟨i, x, s', hdeq, ?_⟩
    rw [rank, rank]
    omega
  · -- there is room in the last stage
    push Not at hbottom
    have hroute : s.Everywhere fun n x => 0 < n.1 - 1 → ∃ m y, unfunnelTreeRoute k bpc n x = some (m, y) ∧
        m ∈ nodes k bpc ∧ n.1 - 1 = m.1 - 1 + 1 ∧ 0 < unfunnelCap 0 m ∧
          (m.1 - 1 = 0 → (s.items m).length < unfunnelCap 0 m) := by
      intro n x hx hpos
      have hle := (h n x hx).2.level_le
      obtain ⟨m, y, hr⟩ := (h n x hx).2.exists_route (.inr hk) hb (by omega)
      have hr' : unfunnelTreeRoute k bpc n x = some (m, y) := by rw [unfunnelTreeRoute, if_neg (by omega), hr]
      obtain ⟨hm, hm0, hdir⟩ := directed_route hk hb (h n x hx) hr'
      have hcap : unfunnelCap 0 m = 2 := if_neg hm0.ne'
      refine ⟨m, y, hr', mem_nodes hdir, by omega, by rw [hcap]; decide, fun hm1 => ?_⟩
      obtain ⟨m₁, m₂⟩ := m
      obtain rfl : m₁ = 1 := by simp only at hm0 hm1; omega
      rw [hbottom m₂, hcap]
      exact Nat.zero_lt_two
    have hitems : ∃ n : Node, 0 < n.1 - 1 ∧ s.items n ≠ [] := by
      by_contra hall
      push Not at hall
      refine hne fun n => ?_
      by_contra hn
      obtain ⟨x, hx⟩ := List.exists_mem_of_ne_nil _ hn
      obtain ⟨n₁, n₂⟩ := n
      have hpos := (h _ x hx).1
      have hone : n₁ = 1 := by
        by_contra hn1
        simp only at hpos
        exact hn (hall (n₁, n₂) (by simp only; omega))
      subst hone
      exact hn (hbottom n₂)
    obtain ⟨n, s', hmove, hweight⟩ := Net.exists_move_down (fun n : Node => n.1 - 1) hnodes hroute hitems 1
    refine .inr ⟨n, s', hmove, ?_⟩
    rw [rank, rank]
    omega

/-- An element that is in the queues can move on, or go out. -/
lemma Tracks.exists_step (h : Tracks bpc tr s) (hk : 0 < bpc) (hb : bpc ≤ tlog k) (hne : ¬s.IsEmpty) :
    ∃ a s' es, s.step bpc a = some (s', es) ∧ entered (tr ++ es) = entered tr ∧ rank bpc s' < rank bpc s := by
  rcases exists_deq_or_move hk hb h.directed hne with ⟨i, x, s', hdeq, hlt⟩ | ⟨n, s', hmove, hlt⟩
  · exact ⟨.deq i, s', [.delivered i x.2], by rw [UnfunnelTree.step, hdeq, Option.map_some], entered_delivered _ _ _, hlt⟩
  · exact ⟨.xfer n, s', [], by rw [UnfunnelTree.step, hmove, Option.map_some], by rw [List.append_nil], hlt⟩

/-- **Unfunnels route**: in every run each output gives out elements that came in for it, in order; and the run can go on
without further elements until each has given out all of them. -/
theorem routes {k bpc : ℕ} {α : Type} (hk : 0 < bpc) (hb : bpc ≤ tlog k) {tr : List (Event k α)} {s : UnfunnelTree k α}
    (h : (unFunnelPipesPipelined k bpc α).Reaches Net.empty tr s) :
    (∀ i, delivered tr i <+: entered tr i) ∧
      ∃ tr' s', (unFunnelPipesPipelined k bpc α).Reaches s tr' s' ∧ entered (tr ++ tr') = entered tr ∧
        delivered (tr ++ tr') = entered tr := by
  have htr : Tracks bpc tr s := h.invariant tracks_empty fun ht hs => ht.step hk hb hs
  have hdrain := RuleSystem.exists_drained (M := unFunnelPipesPipelined k bpc α) (I := Tracks bpc)
    (E := fun _ s => s.IsEmpty) entered (fun _ s => rank bpc s) htr ?_
  · obtain ⟨tr', s', hreach, ht', hent, hempty⟩ := hdrain
    exact ⟨fun i => ⟨_, htr.flow.stream_eq i⟩, tr', s', hreach, hent, (ht'.flow.outs_eq hempty).trans hent⟩
  · intro us s ht _ hne
    obtain ⟨a, s', es, hs, hes, hlt⟩ := ht.exists_step hk hb hne
    exact ⟨a, s', es, hs, ht.step hk hb hs, hes, hlt⟩

/-- An unfunnel of three outputs, one bit to a stage. -/
def threeOutputs :=
  (unFunnelPipesPipelined 3 1 ℕ).run Net.empty
    [.input 2 5, .input 1 6, .xfer (2, 1), .xfer (2, 0), .input 2 7, .deq 2, .xfer (2, 1), .deq 1, .deq 2]

theorem routes_threeOutputs : delivered threeOutputs.2 2 = [5, 7] ∧ delivered threeOutputs.2 1 = [6] ∧
    ∀ i, delivered threeOutputs.2 i <+: entered threeOutputs.2 i := by
  refine ⟨by decide, by decide, ?_⟩
  exact (routes (by decide) (by decide) (RuleSystem.reaches_run _ _)).1

end UnfunnelTree

end Xbsv
