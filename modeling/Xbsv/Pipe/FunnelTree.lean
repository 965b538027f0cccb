import Mathlib.Data.List.FinRange
import Xbsv.Engine.Pipe
import Xbsv.Rules.Flow

set_option relaxedAutoImplicit false
set_option autoImplicit false

/-!
# Funnels merge

`mkFunnelPipesPipelined` with pipes at its inputs that offer any elements at any times. A rule that reads an input takes an
element from outside, and puts it into a queue of the level below. Without stages, which is the instance for one input, the
output is the input.

Elements do not tell which input they are from. In the proofs they are labelled with it: the rules do the same with
labels, and what comes in with one label comes out in order.

## Main definitions

* `Xbsv.funnelPipesPipelined` — the module, between its pipes.

## Main results

* `Xbsv.FunnelTree.Tracks.step` — the output is an interleaving of elements that came in.
* `Xbsv.FunnelTree.merges` — the output of every run is an interleaving of the beginnings of the inputs, and goes on to be
  one of all that came in.
-/

namespace Xbsv

open Rules

/-- The queues `buffs` of a funnel. The inputs are outside. -/
abbrev FunnelTree (k bpc : ℕ) (α : Type) : Type := Net (funnelCap k bpc 0) α

namespace FunnelTree

variable {k bpc : ℕ} {α : Type}

/-- The connection from input `i` fires, where the input offers `v`; the connection from another node; and the output is
taken. -/
inductive Action (k : ℕ) (α : Type)
  | input (i : Fin k) (v : α)
  | xfer (n : Node)
  | deq

/-- An element is taken from input `i`, and an element is taken from the output. -/
inductive Event (k : ℕ) (α : Type)
  | entered (i : Fin k) (v : α)
  | delivered (v : α)

def step (s : FunnelTree k bpc α) : Action k α → Option (FunnelTree k bpc α × List (Event k α))
  | .input i v =>
    -- without stages the output is the input
    if stages k bpc = 0 then some (s, [.entered i v, .delivered v])
    else do
      let (m, y) ← funnelRoute k bpc (stages k bpc, i) v
      let s' ← s.enq m y
      return (s', [.entered i v])
  | .xfer n => (s.move (funnelRoute k bpc) n).map fun s' => (s', [])
  | .deq => (s.deq (0, 0)).map fun r => (r.2, [.delivered r.1])

end FunnelTree

/-- The funnel of `k` inputs, with elements offered and taken at any times. -/
def funnelPipesPipelined (k bpc : ℕ) (α : Type) :
    RuleSystem (FunnelTree k bpc α) (FunnelTree.Action k α) (FunnelTree.Event k α) where
  step s a := s.step a

namespace FunnelTree

variable {k bpc : ℕ} {α : Type}

/-- The elements that were taken from the inputs. -/
def entered (tr : List (Event k α)) (i : Fin k) : List α :=
  tr.filterMap fun
    | .entered j v => if j = i then some v else none
    | .delivered _ => none

/-- The elements that were taken from the output. -/
def delivered (tr : List (Event k α)) : List α :=
  tr.filterMap fun
    | .entered _ _ => none
    | .delivered v => some v

section Traces

variable (tr : List (Event k α)) (i : Fin k) (v : α)

lemma entered_entered : entered (tr ++ [Event.entered i v]) = Function.update (entered tr) i (entered tr i ++ [v]) :=
  filterMap_concat_eq_update _ tr fun _ => rfl

lemma entered_delivered : entered (tr ++ [Event.delivered v]) = entered tr := by
  funext j
  rw [entered, List.filterMap_append]
  exact List.append_nil _

lemma delivered_entered : delivered (tr ++ [Event.entered i v]) = delivered tr := by
  rw [delivered, List.filterMap_append]
  exact List.append_nil _

lemma delivered_delivered : delivered (tr ++ [Event.delivered v]) = delivered tr ++ [v] := List.filterMap_append

end Traces

/-- The streams of the labelled elements. -/
abbrev paths (k bpc : ℕ) (α : Type) : Net.Paths Node (Fin k × α) α (Fin k) := funnelPaths k bpc Prod.fst Prod.snd Fin.val

/-- With labels, what came in has gone out, interleaved, or is in the queues. -/
structure Tracks (tr : List (Event k α)) (s : FunnelTree k bpc α) (t : FunnelTree k bpc (Fin k × α))
    (ins : Fin k → List α) : Prop where
  shows : t.Shows Prod.snd s
  flow : t.Flow (paths k bpc α) (stages k bpc) (entered tr) ins
  merge : Merge ins (delivered tr)

variable {tr es : List (Event k α)} {s s' : FunnelTree k bpc α} {t : FunnelTree k bpc (Fin k × α)} {ins : Fin k → List α}

lemma tracks_empty : Tracks ([] : List (Event k α)) (Net.empty : FunnelTree k bpc α) Net.empty fun _ => [] :=
  ⟨Net.shows_empty _, Net.flow_empty _ _, .nil⟩

/-- Rules do not look at labels. -/
lemma funnelRoute_snd (n : Node) (y : Fin k × α) :
    funnelRoute k bpc n y.2 = (funnelRoute k bpc n y).map fun r => (r.1, r.2.2) := by
  unfold funnelRoute
  split <;> rfl

/-- An element is taken from an input. -/
lemma Tracks.input (h : Tracks tr s t ins) {i : Fin k} {v : α} (hs : s.step (.input i v) = some (s', es)) :
    ∃ t' ins', Tracks (tr ++ es) s' t' ins' := by
  simp only [FunnelTree.step] at hs
  split at hs
  · -- the output is the input
    rename_i hzero
    simp only [Option.some.injEq, Prod.mk.injEq] at hs
    obtain ⟨rfl, rfl⟩ := hs
    have hsplit : tr ++ [Event.entered i v, .delivered v] = (tr ++ [Event.entered i v]) ++ [Event.delivered v] := by
      simp
    have hins : ins = entered tr := by
      funext j
      have hj := h.flow.stream_eq j
      rw [hzero, Net.stream, List.append_nil] at hj
      exact hj
    have hmerge := h.merge.concat i v
    rw [hins] at hmerge
    refine ⟨t, Function.update (entered tr) i (entered tr i ++ [v]), h.shows, ?_, ?_⟩
    · rw [hsplit, entered_delivered, entered_entered, hzero]
      have hbelow := h.flow.below
      rw [hzero] at hbelow
      exact ⟨h.flow.confined, hbelow, fun j => List.append_nil _⟩
    · rw [hsplit, delivered_delivered, delivered_entered]
      exact hmerge
  · rename_i hstages
    simp only [bind, pure, Option.bind_eq_some_iff, Prod.exists, Option.some.injEq, Prod.mk.injEq] at hs
    obtain ⟨n₁, n₂, y, hroute, s₁, henq, rfl, rfl⟩ := hs
    obtain ⟨d, hd⟩ : ∃ d, stages k bpc = d + 1 := ⟨stages k bpc - 1, by omega⟩
    simp only [funnelRoute, Option.ite_none_right_eq_some, Option.some.injEq, Prod.mk.injEq] at hroute
    obtain ⟨-, ⟨rfl, rfl⟩, rfl⟩ := hroute
    have henq' : s.enq (stages k bpc - 1, i.val / 2 ^ bpc) (Prod.snd (i, v)) = some s₁ := henq
    obtain ⟨t', ht, hshows⟩ := h.shows.exists_enq henq'
    have hpos : (paths k bpc α).pos i d = (stages k bpc - 1, i.val / 2 ^ bpc) := by
      rw [hd, Nat.add_sub_cancel]
      show (d, i.val / 2 ^ ((stages k bpc - d) * bpc)) = _
      rw [hd, Nat.add_sub_cancel_left, Nat.one_mul]
    have hflow := h.flow
    rw [hd] at hflow
    have hflow' := hflow.enq (funnel_follows _ _ _) ht hpos
    rw [← hd] at hflow'
    refine ⟨t', ins, hshows, ?_, ?_⟩
    · rw [entered_entered]
      exact hflow'
    · rw [delivered_entered]
      exact h.merge

/-- **What a step does**: there are still labels for the elements. -/
lemma Tracks.step (h : Tracks tr s t ins) {a : Action k α} (hs : s.step a = some (s', es)) :
    ∃ t' ins', Tracks (tr ++ es) s' t' ins' := by
  cases a with
  | input i v => exact h.input hs
  | xfer n =>
    simp only [FunnelTree.step, Option.map_eq_some_iff, Prod.mk.injEq] at hs
    obtain ⟨s₁, hmove, rfl, rfl⟩ := hs
    obtain ⟨t', ht, hshows⟩ := h.shows.exists_move funnelRoute_snd hmove
    rw [List.append_nil]
    exact ⟨t', ins, hshows, h.flow.move (funnel_follows _ _ _) ht, h.merge⟩
  | deq =>
    simp only [FunnelTree.step, Option.map_eq_some_iff, Prod.exists, Prod.mk.injEq] at hs
    obtain ⟨v, s₁, hdeq, rfl, rfl⟩ := hs
    obtain ⟨⟨i, w⟩, t', ht, rfl, hshows⟩ := h.shows.exists_deq hdeq
    refine ⟨t', Function.update ins i (ins i ++ [w]), hshows, ?_, ?_⟩
    · rw [entered_delivered]
      exact h.flow.deq (funnel_follows _ _ _) ht rfl
    · rw [delivered_delivered]
      exact h.merge.concat i w

/-- In every run. -/
lemma exists_tracks (h : (funnelPipesPipelined k bpc α).Reaches Net.empty tr s) : ∃ t ins, Tracks tr s t ins := by
  refine h.invariant (I := fun tr s => ∃ t ins, Tracks tr s t ins) ⟨_, _, tracks_empty⟩ fun {tr s a s' es} ht hs => ?_
  obtain ⟨t, ins, htracks⟩ := ht
  exact htracks.step hs

/-- What has gone out of each stream is the beginning of what came in. -/
lemma Tracks.ins_prefix (h : Tracks tr s t ins) (i : Fin k) : ins i <+: entered tr i := ⟨_, h.flow.stream_eq i⟩

/-- An element that is in the queues can move on, or go out. -/
lemma Tracks.exists_step (h : Tracks tr s t ins) (hb : k ≤ 1 ∨ 0 < bpc) (hne : ¬s.IsEmpty) :
    ∃ a s' es, s.step a = some (s', es) ∧ entered (tr ++ es) = entered tr ∧
      s'.weight (funnelNodes k bpc) (fun n => n.1 + 1) < s.weight (funnelNodes k bpc) fun n => n.1 + 1 := by
  have hlevels : t.Everywhere fun n _ => n.1 ≤ stages k bpc := fun n x hx => (h.flow.below n x hx).le
  by_cases hbottom : s.items (0, 0) = []
  · have hitems : ∃ n, t.items n ≠ [] := by
      by_contra hall
      push Not at hall
      exact hne fun n => by rw [h.shows n, hall n, List.map_nil]
    have hbottom' : t.items (0, 0) = [] := by
      rw [h.shows, List.map_eq_nil_iff] at hbottom
      exact hbottom
    obtain ⟨n, t', hmove, hweight⟩ := exists_funnelMove hb h.flow.confined hlevels (fun _ x _ => x.1.isLt) hbottom' hitems 1
    obtain ⟨s', hs, hshows⟩ := h.shows.move funnelRoute_snd hmove
    refine ⟨.xfer n, s', [], by rw [FunnelTree.step, hs, Option.map_some], by rw [List.append_nil], ?_⟩
    rw [h.shows.weight_eq, hshows.weight_eq]
    omega
  · obtain ⟨v, vs, hv⟩ := List.exists_cons_of_ne_nil hbottom
    obtain ⟨s', hdeq⟩ := Net.exists_deq hv
    obtain ⟨⟨i, w⟩, t', ht, rfl, -⟩ := h.shows.exists_deq hdeq
    have hmem : (i, w) ∈ t.items (0, 0) := by
      rw [(Net.deq_eq_some ht).1]
      exact List.mem_cons_self
    have hnode := (node_of_mem_items hb h.flow.confined hlevels (fun _ x _ => x.1.isLt) hmem).1
    have hweight := Net.weight_deq (w := fun n : Node => n.1 + 1) hdeq hnode
    refine ⟨.deq, s', [.delivered w], by rw [FunnelTree.step, hdeq, Option.map_some], entered_delivered _ _, ?_⟩
    omega

/-- **Funnels merge**: in every run the output is an interleaving of elements that came in, the elements of each input in
order; and the run can go on without further elements until the output is an interleaving of all that came in. -/
theorem merges {k bpc : ℕ} {α : Type} (hb : 0 < bpc) {tr : List (Event k α)} {s : FunnelTree k bpc α}
    (h : (funnelPipesPipelined k bpc α).Reaches Net.empty tr s) :
    (∃ ins, (∀ i, ins i <+: entered tr i) ∧ Merge ins (delivered tr)) ∧
      ∃ tr' s', (funnelPipesPipelined k bpc α).Reaches s tr' s' ∧ entered (tr ++ tr') = entered tr ∧
        Merge (entered tr) (delivered (tr ++ tr')) := by
  have htracks := exists_tracks h
  have hdrain := RuleSystem.exists_drained (M := funnelPipesPipelined k bpc α)
    (I := fun us s => ∃ t ins, Tracks us s t ins) (E := fun _ s => s.IsEmpty) entered
    (fun _ s => s.weight (funnelNodes k bpc) fun n => n.1 + 1) htracks ?_
  · obtain ⟨t, ins, ht⟩ := htracks
    obtain ⟨tr', s', hreach, ⟨t', ins', ht'⟩, hent, hempty⟩ := hdrain
    refine ⟨⟨ins, ht.ins_prefix, ht.merge⟩, tr', s', hreach, hent, ?_⟩
    have hall : t'.IsEmpty := fun n => List.map_eq_nil_iff.mp ((ht'.shows n).symm.trans (hempty n))
    rw [← hent, ← ht'.flow.outs_eq hall]
    exact ht'.merge
  · rintro us s ⟨t, ins, ht⟩ - hne
    obtain ⟨a, s', es, hs, hes, hlt⟩ := ht.exists_step (.inr hb) hne
    exact ⟨a, s', es, hs, ht.step hs, hes, hlt⟩

/-- A funnel of three inputs, one bit to a stage. -/
def threeInputs :=
  (funnelPipesPipelined 3 1 ℕ).run Net.empty
    [.input 2 5, .input 0 6, .xfer (1, 1), .input 2 7, .xfer (1, 0), .deq, .xfer (1, 1), .deq]

theorem merges_threeInputs : delivered threeInputs.2 = [5, 6] ∧ entered threeInputs.2 2 = [5, 7] ∧
    ∃ ins, (∀ i, ins i <+: entered threeInputs.2 i) ∧ Merge ins (delivered threeInputs.2) := by
  refine ⟨by decide, by decide, ?_⟩
  exact (merges (by decide) (RuleSystem.reaches_run _ _)).1

end FunnelTree

end Xbsv
