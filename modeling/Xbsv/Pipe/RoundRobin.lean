import Mathlib.Data.Prod.Lex
import Xbsv.Pipe.RoundRobinFunnel
import Xbsv.Pipe.RoundRobinUnfunnel

set_option relaxedAutoImplicit false
set_option autoImplicit false

/-!
# Round robin, there and back

A funnel that takes turns with an unfunnel of the same period behind it: the rule `fill` takes its elements from the output
of the funnel. Each output gives out what came in at the input with its number.

## Main definitions

* `Xbsv.roundRobin` — the two modules.

## Main results

* `Xbsv.RoundRobin.project` — a run of the two is a run of each of them.
* `Xbsv.round_robin_inverse` — the unfunnel undoes what the funnel does.
-/

namespace Xbsv

open Rules

/-- The state of a funnel and of the unfunnel behind it. -/
structure RoundRobin (k bpc : ℕ) (α : Type) where
  funnel : FunnelRR k bpc α
  unfunnel : UnfunnelRR k α

namespace RoundRobin

variable {k bpc c : ℕ} {α : Type}

def init : RoundRobin k bpc α := ⟨.init, .init⟩

/-- A rule `xfer` of the funnel fires, the first of them where input `i` offers `v`; the rule `fill`; a rule `xfer` of the
unfunnel; and output `i` is taken. -/
inductive Action (k : ℕ) (α : Type)
  | input (i : Fin k) (v : α)
  | xfer (n : Node)
  | fill
  | xferBack (n : Node)
  | deq (i : ℕ)

/-- What goes in and out of the two modules. -/
abbrev Event (k : ℕ) (α : Type) : Type := FunnelTree.Event k α ⊕ UnfunnelRR.Event α

/-- A rule of the funnel. -/
def inFunnel (c : ℕ) (s : RoundRobin k bpc α) (a : FunnelTree.Action k α) :
    Option (RoundRobin k bpc α × List (Event k α)) :=
  (s.funnel.step c a).map fun r => ({ s with funnel := r.1 }, r.2.map .inl)

/-- A rule of the unfunnel. -/
def inUnfunnel (c : ℕ) (s : RoundRobin k bpc α) (a : UnfunnelRR.Action α) :
    Option (RoundRobin k bpc α × List (Event k α)) :=
  (s.unfunnel.step bpc c a).map fun r => ({ s with unfunnel := r.1 }, r.2.map .inr)

def step (c : ℕ) (s : RoundRobin k bpc α) : Action k α → Option (RoundRobin k bpc α × List (Event k α))
  | .input i v => s.inFunnel c (.input i v)
  | .xfer n => s.inFunnel c (.xfer n)
  | .fill => do
    let (v, buffs) ← s.funnel.buffs.deq (0, 0)
    let unfunnel ← s.unfunnel.fill bpc c v
    return ({ funnel := { s.funnel with buffs }, unfunnel }, [.inl (.delivered v), .inr (.entered v)])
  | .xferBack n => s.inUnfunnel c (.xfer n)
  | .deq i => s.inUnfunnel c (.deq i)

end RoundRobin

/-- A funnel with `k` inputs and the unfunnel behind it, which take turns with `c` elements. -/
def roundRobin (k bpc c : ℕ) (α : Type) :
    RuleSystem (RoundRobin k bpc α) (RoundRobin.Action k α) (RoundRobin.Event k α) where
  step s a := s.step c a

namespace RoundRobin

variable {k bpc c : ℕ} {α : Type} {tr es : List (Event k α)} {s s' : RoundRobin k bpc α}

/-- The elements that were taken from the inputs. -/
def entered (tr : List (Event k α)) (i : Fin k) : List α := FunnelTree.entered (RuleSystem.lefts tr) i

/-- The elements that were taken from the outputs. -/
def delivered (tr : List (Event k α)) (i : ℕ) : List α := UnfunnelRR.delivered (RuleSystem.rights tr) i

/-! ## The two modules -/

/-- A run of the two modules is a run of each of them, and what goes out of the one goes into the other. -/
structure Projects (c : ℕ) (s : RoundRobin k bpc α) (tr : List (Event k α)) (s' : RoundRobin k bpc α) : Prop where
  funnel : (funnelPipesPipelinedRR k bpc c α).Reaches s.funnel (RuleSystem.lefts tr) s'.funnel
  unfunnel : (unFunnelPipesPipelinedRR k bpc c α).Reaches s.unfunnel (RuleSystem.rights tr) s'.unfunnel
  between : UnfunnelRR.entered (RuleSystem.rights tr) = FunnelTree.delivered (RuleSystem.lefts tr)

lemma Projects.trans {s'' : RoundRobin k bpc α} {us : List (Event k α)} (h : Projects c s tr s')
    (h' : Projects c s' us s'') : Projects c s (tr ++ us) s'' where
  funnel := by
    rw [RuleSystem.lefts_append]
    exact h.funnel.trans h'.funnel
  unfunnel := by
    rw [RuleSystem.rights_append]
    exact h.unfunnel.trans h'.unfunnel
  between := by
    rw [RuleSystem.lefts_append, RuleSystem.rights_append, UnfunnelRR.entered_append, h.between, h'.between]
    exact List.filterMap_append.symm

/-- A rule of the funnel that does not take its output. -/
lemma projects_inFunnel {a : FunnelTree.Action k α} (hs : s.inFunnel c a = some (s', es))
    (hnone : ∀ f ds, s.funnel.step c a = some (f, ds) → FunnelTree.delivered ds = []) : Projects c s es s' := by
  simp only [inFunnel, Option.map_eq_some_iff, Prod.exists, Prod.mk.injEq] at hs
  obtain ⟨f, ds, hstep, rfl, rfl⟩ := hs
  refine ⟨?_, ?_, ?_⟩
  · rw [RuleSystem.lefts_inl]
    exact .single a hstep
  · rw [RuleSystem.rights_inl]
    exact .refl
  · rw [RuleSystem.rights_inl, RuleSystem.lefts_inl, hnone f ds hstep]
    rfl

/-- A rule of the unfunnel that does not take its input. -/
lemma projects_inUnfunnel {a : UnfunnelRR.Action α} (hs : s.inUnfunnel c a = some (s', es))
    (hnone : ∀ u ds, s.unfunnel.step bpc c a = some (u, ds) → UnfunnelRR.entered ds = []) : Projects c s es s' := by
  simp only [inUnfunnel, Option.map_eq_some_iff, Prod.exists, Prod.mk.injEq] at hs
  obtain ⟨u, ds, hstep, rfl, rfl⟩ := hs
  refine ⟨?_, ?_, ?_⟩
  · rw [RuleSystem.lefts_inr]
    exact .refl
  · rw [RuleSystem.rights_inr]
    exact .single a hstep
  · rw [RuleSystem.rights_inr, RuleSystem.lefts_inr, hnone u ds hstep]
    rfl

/-- Only the rule that takes the output of the funnel gives out its elements. -/
lemma delivered_eq_nil (hp : FunnelRR.Accepted k bpc c) {f f' : FunnelRR k bpc α} {a : FunnelTree.Action k α}
    {ds : List (FunnelTree.Event k α)} (ha : a ≠ .deq) (hs : f.step c a = some (f', ds)) : FunnelTree.delivered ds = [] := by
  cases a with
  | input i v =>
    simp only [FunnelRR.step, FunnelTree.step, if_neg hp.stages_pos.ne', bind, pure, Option.bind_eq_some_iff, Prod.exists,
      Option.some.injEq, Prod.mk.injEq] at hs
    obtain ⟨f₁, -, b, ds', ⟨n₁, n₂, y, -, b', -, -, rfl⟩, -, rfl⟩ := hs
    rfl
  | xfer n =>
    simp only [FunnelRR.step, FunnelTree.step, bind, pure, Option.bind_eq_some_iff, Option.map_eq_some_iff, Prod.exists,
      Option.some.injEq, Prod.mk.injEq] at hs
    obtain ⟨f₁, -, b, ds', ⟨b', -, -, rfl⟩, -, rfl⟩ := hs
    rfl
  | deq => exact absurd rfl ha

/-- The rules `xfer` of the unfunnel, and those that take its outputs, take no element from its input. -/
lemma entered_eq_nil {u u' : UnfunnelRR k α} {a : UnfunnelRR.Action α} {ds : List (UnfunnelRR.Event α)}
    (ha : ∀ v, a ≠ .fill v) (hs : u.step bpc c a = some (u', ds)) : UnfunnelRR.entered ds = [] := by
  cases a with
  | fill v => exact absurd rfl (ha v)
  | xfer n =>
    simp only [UnfunnelRR.step, Option.map_eq_some_iff, Prod.mk.injEq] at hs
    obtain ⟨q, -, -, rfl⟩ := hs
    rfl
  | deq i =>
    simp only [UnfunnelRR.step, Option.map_eq_some_iff, Prod.mk.injEq] at hs
    obtain ⟨r, -, -, rfl⟩ := hs
    rfl

/-- The rule `fill` takes an element out of the funnel and into the unfunnel. -/
lemma projects_fill {v : α} {buffs : FunnelTree k bpc α} {u : UnfunnelRR k α}
    (hdeq : s.funnel.buffs.deq (0, 0) = some (v, buffs)) (hfill : s.unfunnel.fill bpc c v = some u) :
    Projects c s [.inl (.delivered v), .inr (.entered v)] ⟨{ s.funnel with buffs }, u⟩ where
  funnel := .single .deq (by
    simp only [funnelPipesPipelinedRR, FunnelRR.step, FunnelTree.step, hdeq, bind, pure, Option.bind_some, Option.map_some]
    rfl)
  unfunnel := .single (.fill v) (by
    simp only [unFunnelPipesPipelinedRR, UnfunnelRR.step, hfill, Option.map_some]
    rfl)
  between := rfl

/-- What a rule does is what rules of the two modules do. -/
lemma projects_step (hp : FunnelRR.Accepted k bpc c) {a : Action k α} (hs : s.step c a = some (s', es)) :
    Projects c s es s' := by
  cases a with
  | input i v => exact projects_inFunnel hs fun f ds hstep => delivered_eq_nil hp (by simp) hstep
  | xfer n => exact projects_inFunnel hs fun f ds hstep => delivered_eq_nil hp (by simp) hstep
  | fill =>
    simp only [RoundRobin.step, bind, pure, Option.bind_eq_some_iff, Prod.exists, Option.some.injEq, Prod.mk.injEq] at hs
    obtain ⟨v, buffs, hdeq, u, hfill, rfl, rfl⟩ := hs
    exact projects_fill hdeq hfill
  | xferBack n => exact projects_inUnfunnel hs fun u ds hstep => entered_eq_nil (by simp) hstep
  | deq i => exact projects_inUnfunnel hs fun u ds hstep => entered_eq_nil (by simp) hstep

/-- **A run of the two modules is a run of each of them.** -/
lemma project (hp : FunnelRR.Accepted k bpc c) (h : (roundRobin k bpc c α).Reaches s tr s') : Projects c s tr s' :=
  h.invariant (I := fun tr s' => Projects c s tr s') ⟨.refl, .refl, rfl⟩ fun ht hs => ht.trans (projects_step hp hs)

/-! ## Runs -/

/-- The funnel takes turns, and the unfunnel takes turns with what goes out of it. -/
structure Tracks (c : ℕ) (tr : List (Event k α)) (s : RoundRobin k bpc α) : Prop where
  funnel : ∃ passed, FunnelRR.Tracks c (RuleSystem.lefts tr) s.funnel passed
  unfunnel : UnfunnelRR.Tracks bpc c (RuleSystem.rights tr) s.unfunnel
  between : UnfunnelRR.entered (RuleSystem.rights tr) = FunnelTree.delivered (RuleSystem.lefts tr)

/-- The unfunnel's parameters are accepted if the funnel's are. -/
lemma accepted_unfunnel (hp : FunnelRR.Accepted k bpc c) (hb : bpc ≤ tlog k) : UnfunnelRR.Accepted k bpc c := by
  refine ⟨hp.two_le, hp.pos, hp.bits, hb, ?_⟩
  have hfits := hp.fits
  rw [maxp_one hp.two_le] at hfits
  have hle := quota_le k bpc c hp.stages_pos
  rw [quota_top] at hle
  omega

/-- In every run. -/
lemma tracks (hp : FunnelRR.Accepted k bpc c) (hb : bpc ≤ tlog k) (h : (roundRobin k bpc c α).Reaches init tr s) :
    Tracks c tr s := by
  have hproj := project hp h
  exact ⟨FunnelRR.exists_tracks hp hproj.funnel, UnfunnelRR.tracks (accepted_unfunnel hp hb) hproj.unfunnel, hproj.between⟩

/-- What goes out at an output is the beginning of what came in at the input with its number. -/
lemma Tracks.delivered_isPrefix (h : Tracks c tr s) (i : Fin k) : delivered tr i <+: entered tr i := by
  obtain ⟨passed, hf⟩ := h.funnel
  have hout := h.unfunnel.delivered_isPrefix i
  rw [h.between, hf.delivered_eq] at hout
  have hin := share_prefix_of_prefix (turn (k * c) c) i 0 (hf.dealt.isPrefix_passed le_rfl)
  rw [← hf.entered_eq] at hin
  exact hout.trans hin

/-- All that came in has gone out when both modules are empty. -/
lemma Tracks.delivered_eq (h : Tracks c tr s) (hf : s.funnel.buffs.IsEmpty) (hu : s.unfunnel.queues.IsEmpty) (i : Fin k) :
    delivered tr i = entered tr i := by
  obtain ⟨passed, hfunnel⟩ := h.funnel
  rw [delivered, h.unfunnel.flow.outs_eq hu, h.between, hfunnel.delivered_of_isEmpty hf]
  exact (hfunnel.entered_eq i).symm

lemma entered_append (tr us : List (Event k α)) (i : Fin k) : entered (tr ++ us) i = entered tr i ++ entered us i := by
  rw [entered, RuleSystem.lefts_append]
  exact List.filterMap_append

lemma entered_map_inr (ds : List (UnfunnelRR.Event α)) (i : Fin k) :
    entered (ds.map Sum.inr : List (Event k α)) i = [] := by
  rw [entered, RuleSystem.lefts_inr]
  rfl

/-- What is left to do: elements in the funnel come before those in the unfunnel. -/
def rank (s : RoundRobin k bpc α) : ℕ ×ₗ ℕ := toLex (s.funnel.weight, UnfunnelTree.rank bpc s.unfunnel.queues)

/-- As long as there are elements in the queues a rule can fire, other than for new elements. -/
lemma Tracks.exists_step (h : Tracks c tr s) (hp : FunnelRR.Accepted k bpc c) (hb : bpc ≤ tlog k)
    (hne : ¬(s.funnel.buffs.IsEmpty ∧ s.unfunnel.queues.IsEmpty)) :
    ∃ a s' es, s.step c a = some (s', es) ∧ entered es = (fun _ => []) ∧ s'.rank < s.rank := by
  by_cases hu : s.unfunnel.queues.IsEmpty
  · obtain ⟨passed, hf⟩ := h.funnel
    rcases hf.exists_step hp fun hf => hne ⟨hf, hu⟩ with ⟨n, f, hs, hlt⟩ | ⟨v, f, hs, hlt⟩
    · refine ⟨.xfer n, { s with funnel := f }, [], by rw [RoundRobin.step, inFunnel, hs]; rfl, rfl, ?_⟩
      exact Prod.Lex.toLex_lt_toLex.mpr (.inl hlt)
    · -- there is room in the unfunnel
      simp only [FunnelRR.step, FunnelTree.step, bind, pure, Option.bind_some, Option.bind_eq_some_iff,
        Option.map_eq_some_iff, Prod.exists, Option.some.injEq, Prod.mk.injEq] at hs
      obtain ⟨b, es, ⟨w, buffs, hdeq, rfl, rfl⟩, rfl, -⟩ := hs
      obtain ⟨u, hfill⟩ := UnfunnelRR.exists_fill bpc c hu w
      refine ⟨.fill, ⟨{ s.funnel with buffs }, u⟩, [.inl (.delivered w), .inr (.entered w)], ?_, rfl, ?_⟩
      · simp only [RoundRobin.step, hdeq, hfill, bind, pure, Option.bind_some]
      · exact Prod.Lex.toLex_lt_toLex.mpr (.inl hlt)
  · obtain ⟨a, u, ds, hs, hnone, hlt⟩ := h.unfunnel.exists_step (accepted_unfunnel hp hb) hu
    have hrank : ({ s with unfunnel := u } : RoundRobin k bpc α).rank < s.rank :=
      Prod.Lex.toLex_lt_toLex.mpr (.inr ⟨rfl, hlt⟩)
    have hent : entered (ds.map Sum.inr : List (Event k α)) = fun _ => [] := funext fun i => entered_map_inr ds i
    cases a with
    | fill v =>
      simp only [UnfunnelRR.step, Option.map_eq_some_iff, Prod.mk.injEq] at hs
      obtain ⟨u', -, -, rfl⟩ := hs
      cases hnone
    | xfer n => exact ⟨.xferBack n, { s with unfunnel := u }, _, by rw [RoundRobin.step, inUnfunnel, hs]; rfl, hent, hrank⟩
    | deq i => exact ⟨.deq i, { s with unfunnel := u }, _, by rw [RoundRobin.step, inUnfunnel, hs]; rfl, hent, hrank⟩

/-- **The streams come out as they went in**: each output gives out the beginning of what came in at the input with its
number; the run can go on without further elements until it has given out all, and then the input whose turn it is may go
on. -/
theorem reproduces (hp : FunnelRR.Accepted k bpc c) (hb : bpc ≤ tlog k)
    (h : (roundRobin k bpc c α).Reaches init tr s) :
    (∀ i : Fin k, delivered tr i <+: entered tr i) ∧
      ∃ tr' s', (roundRobin k bpc c α).Reaches s tr' s' ∧ entered (tr ++ tr') = entered tr ∧
        (∀ i : Fin k, delivered (tr ++ tr') i = entered tr i) ∧
        ∃ i : Fin k, ∀ v, ∃ s'', s'.step c (.input i v) = some (s'', [.inl (.entered i v)]) := by
  have ht := tracks hp hb h
  have hdrain := RuleSystem.exists_drained (M := roundRobin k bpc c α) (I := (roundRobin k bpc c α).Reaches init)
    (E := fun _ s => s.funnel.buffs.IsEmpty ∧ s.unfunnel.queues.IsEmpty) entered (fun _ s => s.rank) h ?_
  · obtain ⟨tr', s', hreach, hall, hent, hf, hu⟩ := hdrain
    have ht' := tracks hp hb hall
    refine ⟨ht.delivered_isPrefix, tr', s', hreach, hent, fun i => ?_, ?_⟩
    · rw [ht'.delivered_eq hf hu, hent]
    · obtain ⟨passed, hfunnel⟩ := ht'.funnel
      have hk : 0 < k := Nat.lt_of_succ_lt hp.two_le
      obtain ⟨i, hi⟩ : ∃ i : Fin k, i.val = turn (k * c) c (passed (stages k bpc)).length := ⟨⟨_, turn_lt hk hp.pos _⟩, rfl⟩
      refine ⟨i, fun v => ?_⟩
      obtain ⟨f, hs⟩ := hfunnel.exists_input hp hf hi v
      exact ⟨{ s' with funnel := f }, by rw [RoundRobin.step, inFunnel, hs]; rfl⟩
  · intro us s hreach _ hne
    obtain ⟨a, s', es, hs, hnone, hlt⟩ := (tracks hp hb hreach).exists_step hp hb hne
    refine ⟨a, s', es, hs, hreach.step a hs, ?_, hlt⟩
    funext i
    rw [entered_append, hnone, List.append_nil]

end RoundRobin

open FunnelTree in
/-- **Round robin, there and back.** The output of the funnel takes `c` elements from the beginning of each input in turn,
and goes on to take all that came in; the unfunnel gives `c` elements to each output in turn; and behind the funnel it gives
out at each output what came in at the input with its number. None of them gets stuck. -/
theorem round_robin_inverse {k bpc c : ℕ} {α : Type} (hk : 2 ≤ k) (hc : 0 < c) (hb : 0 < bpc)
    (hfits : maxp k bpc c (1, 0) < 2 ^ 32) :
    (∀ tr s, (funnelPipesPipelinedRR k bpc c α).Reaches .init tr s →
      (∃ ins, (∀ i, ins i <+: entered tr i) ∧ InTurns k c ins (delivered tr)) ∧
        ∃ tr' s', (funnelPipesPipelinedRR k bpc c α).Reaches s tr' s' ∧ entered (tr ++ tr') = entered tr ∧
          InTurns k c (entered tr) (delivered (tr ++ tr')) ∧
          ∀ i : Fin k, i.val = (delivered (tr ++ tr')).length / c % k →
            ∀ v, ∃ s'', s'.step c (.input i v) = some (s'', [.entered i v])) ∧
    (bpc ≤ tlog k →
      (∀ tr s, (unFunnelPipesPipelinedRR k bpc c α).Reaches .init tr s →
        (∃ outs, (∀ i : Fin k, UnfunnelRR.delivered tr i <+: outs i) ∧ InTurns k c outs (UnfunnelRR.entered tr)) ∧
          ∃ tr' s', (unFunnelPipesPipelinedRR k bpc c α).Reaches s tr' s' ∧
            UnfunnelRR.entered (tr ++ tr') = UnfunnelRR.entered tr ∧
            InTurns k c (fun i => UnfunnelRR.delivered (tr ++ tr') i) (UnfunnelRR.entered tr) ∧
            ∀ v, ∃ s'', s'.step bpc c (.fill v) = some (s'', [.entered v])) ∧
      ∀ tr s, (roundRobin k bpc c α).Reaches .init tr s →
        (∀ i : Fin k, RoundRobin.delivered tr i <+: RoundRobin.entered tr i) ∧
          ∃ tr' s', (roundRobin k bpc c α).Reaches s tr' s' ∧
            RoundRobin.entered (tr ++ tr') = RoundRobin.entered tr ∧
            (∀ i : Fin k, RoundRobin.delivered (tr ++ tr') i = RoundRobin.entered tr i) ∧
            ∃ i : Fin k, ∀ v, ∃ s'', s'.step c (.input i v) = some (s'', [.inl (.entered i v)])) := by
  have hp : FunnelRR.Accepted k bpc c := ⟨hk, hc, hb, hfits⟩
  refine ⟨fun tr s h => FunnelRR.periodic hp h, fun hle => ⟨fun tr s h => ?_, fun tr s h => RoundRobin.reproduces hp hle h⟩⟩
  exact UnfunnelRR.splits (RoundRobin.accepted_unfunnel hp hle) h

/-- Three inputs and outputs, one bit to a stage, and two elements in a turn. -/
def threeInTurns :=
  (roundRobin 3 1 2 ℕ).run .init
    [.input 0 5, .input 0 6, .xfer (1, 0), .input 1 7, .xfer (1, 0), .fill, .input 1 8, .xfer (1, 0), .xferBack (3, 0),
      .fill, .xfer (1, 0), .input 2 9, .xferBack (2, 0), .deq 0, .fill, .xferBack (3, 0), .xferBack (2, 0), .deq 0,
      .xfer (1, 1), .fill, .xferBack (3, 0), .xferBack (2, 0), .deq 1]

theorem round_robin_inverse_three : RoundRobin.entered threeInTurns.2 1 = [7, 8] ∧
    RoundRobin.delivered threeInTurns.2 0 = [5, 6] ∧
    ∀ i : Fin 3, RoundRobin.delivered threeInTurns.2 i <+: RoundRobin.entered threeInTurns.2 i := by
  refine ⟨by decide, by decide, ?_⟩
  have hfits : maxp 3 1 2 (1, 0) < 2 ^ 32 := by
    rw [maxp_one (by decide)]
    decide
  exact (((round_robin_inverse (by decide) (by decide) (by decide) hfits).2 (by decide)).2 _ _
    (RuleSystem.reaches_run _ _)).1

end Xbsv
