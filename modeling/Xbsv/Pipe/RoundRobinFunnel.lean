import Xbsv.Bits.Words
import Xbsv.Pipe.FunnelTree
import Xbsv.Rules.Dealing

set_option relaxedAutoImplicit false
set_option autoImplicit false

/-!
# Funnels that take turns

`mkFunnelPipesPipelinedRR` for more than one input: the tree of queues of `mkFunnelPipesPipelined`, where the nodes of each
level take turns. A node counts the elements of its turn, and leaves a token for the next node when the turn is over; the
last node of a level takes all tokens away. Nodes of the level of the inputs take `c` elements in a turn, nodes of other
levels as many as have come from the inputs above them. If `k` is not a power of two the last turn of a level is cut short.

The numbers of elements are `Integer`s, and the compiler rejects them if they are no numbers of 32 bits: `maxp` is largest
for the first node of level 1.

## Main definitions

* `Xbsv.funnelPipesPipelinedRR` — the module, between its pipes.
* `Xbsv.FunnelRR.Control` — the registers and tokens of a level that has passed a number of elements.

## Main results

* `Xbsv.FunnelRR.Control.xferCtrl` — the rules of a level fire in turns.
* `Xbsv.FunnelRR.Tracks.step` — what a rule does.
* `Xbsv.FunnelRR.Tracks.exists_step` — all that came in can go out.
* `Xbsv.FunnelRR.periodic` — the output takes elements from the inputs in turn.
-/

namespace Xbsv

open Rules

/-! ## The source -/

section Quota

variable (k bpc c : ℕ)

/-- `maxp`, as it is first set for the nodes of a level. -/
def quota (j : ℕ) : ℕ := 2 ^ ((stages k bpc - j) * bpc) * c

/-- `last`. -/
def IsLast (n : Node) : Prop := k * c ≤ quota k bpc c n.1 * (n.2 + 1)

instance (n : Node) : Decidable (IsLast k bpc c n) := inferInstanceAs (Decidable (_ ≤ _))

/-- `maxp`. -/
def maxp (n : Node) : ℤ :=
  if k * c < quota k bpc c n.1 * (n.2 + 1) then (k * c : ℤ) - quota k bpc c n.1 * n.2 else quota k bpc c n.1

end Quota

/-- The state of `mkFunnelPipesPipelinedRR`: its queues, the registers `cnt`, and which of the one-place queues `ctrl` hold
an element. -/
structure FunnelRR (k bpc : ℕ) (α : Type) where
  buffs : FunnelTree k bpc α
  cnt : Node → BitVec 32
  ctrl : Node → Bool

namespace FunnelRR

variable {k bpc : ℕ} {α : Type}

def init : FunnelRR k bpc α := ⟨Net.empty, fun _ => 0, fun _ => false⟩

/-- The rule `xfer` of a node, less the element that it moves. -/
def xferCtrl (c : ℕ) (s : FunnelRR k bpc α) (n : Node) : Option (FunnelRR k bpc α) :=
  -- `xfer_guard`
  if (n.2 = 0 ∨ s.ctrl (n.1, n.2 - 1) = true) ∧ (IsLast k bpc c n ∨ s.ctrl n = false) then
    if s.cnt n + 1 = BitVec.ofInt 32 (maxp k bpc c n) then
      if IsLast k bpc c n then
        -- the queues `ctrl` before it are dequeued
        if ∀ ff < n.2, s.ctrl (n.1, ff) = true then
          some
            { s with
              cnt := Function.update s.cnt n 0
              ctrl := fun m => if m.1 = n.1 ∧ m.2 < n.2 then false else s.ctrl m }
        else none
      else some { s with cnt := Function.update s.cnt n 0, ctrl := Function.update s.ctrl n true }
    else some { s with cnt := Function.update s.cnt n (s.cnt n + 1) }
  else none

/-- The rules `xfer`, where an input may offer any element, and an element is taken from the output. -/
def step (c : ℕ) (s : FunnelRR k bpc α) (a : FunnelTree.Action k α) :
    Option (FunnelRR k bpc α × List (FunnelTree.Event k α)) := do
  let s₁ ← match a with
    | .input i _ => s.xferCtrl c (stages k bpc, i)
    | .xfer n => s.xferCtrl c n
    | .deq => some s
  let (buffs, es) ← s₁.buffs.step a
  return ({ s₁ with buffs := buffs }, es)

end FunnelRR

/-- The funnel of `k` inputs that takes `c` elements from each in turn, with elements offered and taken at any times. -/
def funnelPipesPipelinedRR (k bpc c : ℕ) (α : Type) :
    RuleSystem (FunnelRR k bpc α) (FunnelTree.Action k α) (FunnelTree.Event k α) where
  step s a := s.step c a

/-! ## Turns -/

/-- The node of a level whose turn it is, for an element. -/
def nodeTurn (k bpc c j t : ℕ) : ℕ := turn (k * c) (quota k bpc c j) t

section Turns

variable {k bpc c j : ℕ}

lemma quota_pos (k bpc j : ℕ) (hc : 0 < c) : 0 < quota k bpc c j := Nat.mul_pos (Nat.two_pow_pos _) hc

/-- A node of a level passes on what comes from `2 ^ bpc` nodes of the level above. -/
lemma quota_succ (hj : j < stages k bpc) : quota k bpc c (j + 1) * 2 ^ bpc = quota k bpc c j := by
  obtain ⟨d, hd⟩ : ∃ d, stages k bpc = j + 1 + d := ⟨stages k bpc - (j + 1), by omega⟩
  rw [quota, quota, hd, Nat.add_sub_cancel_left, (by omega : j + 1 + d - j = d + 1), Nat.succ_mul, Nat.pow_add,
    Nat.mul_right_comm]

lemma quota_top : quota k bpc c (stages k bpc) = c := by
  rw [quota, Nat.sub_self, Nat.zero_mul, Nat.pow_zero, Nat.one_mul]

/-- There is one node at the bottom. -/
lemma le_quota_zero (hb : 0 < bpc) : k * c ≤ quota k bpc c 0 := by
  have hle : 2 ^ tlog k ≤ 2 ^ (stages k bpc * bpc) := Nat.pow_le_pow_right (by omega) (tlog_le_stages (.inr hb))
  exact Nat.mul_le_mul_right c ((le_two_pow_tlog k).trans hle)

/-- The nodes of level 1 have the largest turns. -/
lemma quota_le (k bpc c : ℕ) (hj : 0 < j) : quota k bpc c j ≤ quota k bpc c 1 :=
  Nat.mul_le_mul_right c (Nat.pow_le_pow_right (by omega) (Nat.mul_le_mul_right bpc (by omega)))

/-- A level below the bottom is needed: a node of level 1 has no more than a round. -/
lemma maxp_one (hk : 2 ≤ k) : maxp k bpc c (1, 0) = quota k bpc c 1 := by
  refine if_neg (Nat.not_lt.mpr ?_)
  rw [Nat.zero_add, Nat.mul_one]
  refine Nat.mul_le_mul_right c ?_
  show 2 ^ ((stages k bpc - 1) * bpc) ≤ k
  rcases Nat.eq_zero_or_pos (stages k bpc) with hs | hs
  · rw [hs, Nat.zero_sub, Nat.zero_mul, Nat.pow_zero]
    omega
  · obtain ⟨-, hlt⟩ := stages_lt_tlog hs
    have hle : 2 ^ ((stages k bpc - 1) * bpc + 1) ≤ 2 ^ tlog k := Nat.pow_le_pow_right (by omega) hlt
    have hlog := two_pow_tlog_lt (n := k) hk
    rw [Nat.pow_succ] at hle
    omega

/-- An element goes on to the node whose turn it is. -/
lemma nodeTurn_div (hj : j < stages k bpc) (t : ℕ) : nodeTurn k bpc c (j + 1) t / 2 ^ bpc = nodeTurn k bpc c j t := by
  rw [nodeTurn, turn_div, quota_succ hj]
  rfl

lemma nodeTurn_zero (hk : 2 ≤ k) (hc : 0 < c) (hb : 0 < bpc) (t : ℕ) : nodeTurn k bpc c 0 t = 0 :=
  turn_eq_zero (Nat.mul_pos (by omega) hc) (le_quota_zero hb) t

lemma nodeTurn_top (t : ℕ) : nodeTurn k bpc c (stages k bpc) t = turn (k * c) c t := by
  rw [nodeTurn, quota_top]

/-- The nodes in use. -/
lemma nodeTurn_lt (hk : 2 ≤ k) (hc : 0 < c) (hb : 0 < bpc) (hj : j ≤ stages k bpc) (t : ℕ) :
    nodeTurn k bpc c j t < 2 ^ (j * bpc) ∧ nodeTurn k bpc c j t < k := by
  have hround : 0 < k * c := Nat.mul_pos (by omega) hc
  have hlt := Nat.mod_lt t hround
  constructor
  · rw [nodeTurn, turn, Nat.div_lt_iff_lt_mul (quota_pos _ _ _ hc), quota, ← Nat.mul_assoc, ← Nat.pow_add, ← Nat.add_mul,
      Nat.add_sub_of_le hj]
    exact hlt.trans_le (le_quota_zero hb)
  · rw [nodeTurn, turn, Nat.div_lt_iff_lt_mul (quota_pos _ _ _ hc)]
    exact hlt.trans_le (Nat.mul_le_mul_left k (Nat.le_mul_of_pos_left c (Nat.two_pow_pos _)))

/-- The turns of the nodes of a level. -/
lemma nodeTurn_next (bpc : ℕ) (hk : 2 ≤ k) (hc : 0 < c) (j t : ℕ) :
    (nodeTurn k bpc c j (t + 1), (t + 1) % (k * c) % quota k bpc c j) =
      if t % (k * c) % quota k bpc c j + 1 =
        min (quota k bpc c j) (k * c - quota k bpc c j * nodeTurn k bpc c j t) then
        (if IsLast k bpc c (j, nodeTurn k bpc c j t) then 0 else nodeTurn k bpc c j t + 1, 0)
      else (nodeTurn k bpc c j t, t % (k * c) % quota k bpc c j + 1) :=
  turn_next (Nat.mul_pos (by omega) hc) (quota_pos _ _ _ hc) t

/-- The number of elements at which the turn of a node ends. -/
lemma maxp_eq {i : ℕ} (hi : quota k bpc c j * i ≤ k * c) :
    maxp k bpc c (j, i) = ((min (quota k bpc c j) (k * c - quota k bpc c j * i) : ℕ) : ℤ) := by
  simp only [maxp, Nat.mul_succ]
  split
  · rw [Nat.min_eq_right (by omega)]
    push_cast [Nat.cast_sub hi]
    rfl
  · rw [Nat.min_eq_left (by omega)]

end Turns

/-! ## Control -/

namespace FunnelRR

section Control

variable {k bpc c j t : ℕ} {α : Type} {s s' : FunnelRR k bpc α} {n : Node}

/-- The control part of level `j` when `t` elements have passed it: the node whose turn it is has counted its elements, and
there are tokens from the nodes before. -/
def Control (c j t : ℕ) (s : FunnelRR k bpc α) : Prop :=
  ∀ i, s.cnt (j, i) = (if i = nodeTurn k bpc c j t then BitVec.ofNat 32 (t % (k * c) % quota k bpc c j) else 0) ∧
    s.ctrl (j, i) = decide (i < nodeTurn k bpc c j t)

lemma control_init : Control c j 0 (init : FunnelRR k bpc α) := by
  intro i
  rw [nodeTurn, turn, Nat.zero_mod, Nat.zero_div, Nat.zero_mod]
  exact ⟨(ite_self _).symm, rfl⟩

/-- Only the registers and tokens of the level matter. -/
lemma Control.congr (h : Control c j t s) (hcnt : ∀ i, s'.cnt (j, i) = s.cnt (j, i))
    (hctrl : ∀ i, s'.ctrl (j, i) = s.ctrl (j, i)) : Control c j t s' := fun i => by
  rw [hcnt, hctrl]
  exact h i

/-- A rule `xfer` concerns the control part of its level only. -/
lemma xferCtrl_other (hs : s.xferCtrl c n = some s') :
    s'.buffs = s.buffs ∧ ∀ m : Node, m.1 ≠ n.1 → s'.cnt m = s.cnt m ∧ s'.ctrl m = s.ctrl m := by
  have hne : ∀ {m : Node}, m.1 ≠ n.1 → m ≠ n := fun hm heq => hm (congrArg Prod.fst heq)
  unfold xferCtrl at hs
  split_ifs at hs
  · obtain rfl := Option.some.inj hs
    exact ⟨rfl, fun m hm => ⟨Function.update_of_ne (hne hm) _ _, if_neg fun h => hm h.1⟩⟩
  · obtain rfl := Option.some.inj hs
    exact ⟨rfl, fun m hm => ⟨Function.update_of_ne (hne hm) _ _, Function.update_of_ne (hne hm) _ _⟩⟩
  · obtain rfl := Option.some.inj hs
    exact ⟨rfl, fun m hm => ⟨Function.update_of_ne (hne hm) _ _, rfl⟩⟩

/-- The guard of a rule holds in the turn of its node. -/
lemma Control.guard_iff (h : Control c j t s) (hk : 2 ≤ k) (hc : 0 < c) (i : ℕ) :
    (i = 0 ∨ s.ctrl (j, i - 1) = true) ∧ (IsLast k bpc c (j, i) ∨ s.ctrl (j, i) = false) ↔ i = nodeTurn k bpc c j t := by
  rw [(h (i - 1)).2, (h i).2, decide_eq_true_iff, decide_eq_false_iff_not, Nat.not_lt]
  constructor
  · rintro ⟨hbefore, hafter⟩
    -- no turn comes after the last
    have hlast : IsLast k bpc c (j, i) → nodeTurn k bpc c j t ≤ i := fun hl => by
      have hlt := Nat.mod_lt t (Nat.mul_pos (by omega : 0 < k) hc)
      rw [← Nat.lt_succ_iff, nodeTurn, turn, Nat.div_lt_iff_lt_mul (quota_pos _ _ _ hc), Nat.mul_comm i.succ]
      exact hlt.trans_le hl
    have hle := hafter.elim hlast id
    omega
  · rintro rfl
    omega

/-- What the node whose turn it is has counted, and when its turn is over. -/
lemma Control.cnt_eq (h : Control c j t s) (hk : 2 ≤ k) (hc : 0 < c) (hj : 0 < j)
    (hfits : maxp k bpc c (1, 0) < 2 ^ 32) :
    s.cnt (j, nodeTurn k bpc c j t) + 1 = BitVec.ofNat 32 (t % (k * c) % quota k bpc c j + 1) ∧
      (s.cnt (j, nodeTurn k bpc c j t) + 1 = BitVec.ofInt 32 (maxp k bpc c (j, nodeTurn k bpc c j t)) ↔
        t % (k * c) % quota k bpc c j + 1 =
          min (quota k bpc c j) (k * c - quota k bpc c j * nodeTurn k bpc c j t)) := by
  have hround := Nat.mod_lt t (Nat.mul_pos (by omega : 0 < k) hc)
  have hnum := turn_add_mod (k * c) (quota k bpc c j) t
  have hle : quota k bpc c j * nodeTurn k bpc c j t ≤ k * c := by
    rw [nodeTurn]
    omega
  have hlt := Nat.mod_lt (t % (k * c)) (quota_pos k bpc j hc)
  have hbound : quota k bpc c j < 2 ^ 32 := by
    rw [maxp_one hk] at hfits
    have hq := quota_le k bpc c hj
    omega
  have hcnt : s.cnt (j, nodeTurn k bpc c j t) + 1 = BitVec.ofNat 32 (t % (k * c) % quota k bpc c j + 1) := by
    rw [(h _).1, if_pos rfl, BitVec.ofNat_add]
    rfl
  refine ⟨hcnt, ?_⟩
  rw [hcnt, maxp_eq hle, BitVec.ofInt_natCast]
  exact Bits.ofNat_inj_of_lt (by omega) ((Nat.min_le_left _ _).trans_lt hbound)

/-- When its turn is over no node has counted any elements. -/
lemma Control.cnt_update_zero (h : Control c j t s) (i : ℕ) :
    Function.update s.cnt (j, nodeTurn k bpc c j t) 0 (j, i) = 0 := by
  by_cases hi : i = nodeTurn k bpc c j t
  · rw [hi, Function.update_self]
  · rw [Function.update_of_ne (fun heq => hi (Prod.mk.inj heq).2), (h i).1, if_neg hi]

/-- **The rules of a level fire in turns.** -/
lemma Control.xferCtrl (h : Control c j t s) (hk : 2 ≤ k) (hc : 0 < c) (hj : 0 < j)
    (hfits : maxp k bpc c (1, 0) < 2 ^ 32) {i : ℕ} (hs : s.xferCtrl c (j, i) = some s') :
    i = nodeTurn k bpc c j t ∧ Control c j (t + 1) s' := by
  rw [FunnelRR.xferCtrl, Option.ite_none_right_eq_some] at hs
  obtain ⟨hguard, hs⟩ := hs
  obtain rfl := (h.guard_iff hk hc i).mp hguard
  obtain ⟨hcnt, hend⟩ := h.cnt_eq hk hc hj hfits
  have hnext := nodeTurn_next bpc hk hc j t
  refine ⟨rfl, fun i => ?_⟩
  split at hs
  case isTrue hover =>
    rw [if_pos (hend.mp hover)] at hnext
    split at hs
    case isTrue hlast =>
      -- the first node is next
      rw [if_pos hlast, Prod.mk.injEq] at hnext
      obtain rfl := Option.some.inj (Option.ite_none_right_eq_some.mp hs).2
      rw [hnext.1, hnext.2]
      refine ⟨(h.cnt_update_zero i).trans (ite_self _).symm, ?_⟩
      by_cases hi : i < nodeTurn k bpc c j t
      · exact if_pos ⟨rfl, hi⟩
      · exact (if_neg fun hlt => hi hlt.2).trans ((h i).2.trans (decide_eq_false hi))
    case isFalse hmore =>
      -- the next node is next
      rw [if_neg hmore, Prod.mk.injEq] at hnext
      obtain rfl := Option.some.inj hs
      rw [hnext.1, hnext.2]
      refine ⟨(h.cnt_update_zero i).trans (ite_self _).symm, ?_⟩
      show Function.update s.ctrl (j, nodeTurn k bpc c j t) true (j, i) = _
      by_cases hi : i = nodeTurn k bpc c j t
      · subst hi
        rw [Function.update_self]
        exact (decide_eq_true (Nat.lt_succ_self _)).symm
      · rw [Function.update_of_ne (fun heq => hi (Prod.mk.inj heq).2), (h i).2]
        exact decide_eq_decide.mpr (by omega)
  case isFalse hmore =>
    rw [if_neg fun hmin => hmore (hend.mpr hmin), Prod.mk.injEq] at hnext
    obtain rfl := Option.some.inj hs
    rw [hnext.1, hnext.2]
    refine ⟨?_, (h i).2⟩
    show Function.update s.cnt (j, nodeTurn k bpc c j t) (s.cnt (j, nodeTurn k bpc c j t) + 1) (j, i) = _
    by_cases hi : i = nodeTurn k bpc c j t
    · subst hi
      rw [Function.update_self, hcnt]
      exact (if_pos rfl).symm
    · rw [Function.update_of_ne (fun heq => hi (Prod.mk.inj heq).2), (h i).1, if_neg hi]
      exact (if_neg hi).symm

/-- The rule of the node whose turn it is can fire. -/
lemma Control.exists_xferCtrl (h : Control c j t s) (hk : 2 ≤ k) (hc : 0 < c) :
    ∃ s', s.xferCtrl c (j, nodeTurn k bpc c j t) = some s' := by
  have htokens : ∀ ff < nodeTurn k bpc c j t, s.ctrl (j, ff) = true := fun ff hff => by
    rw [(h ff).2]
    exact decide_eq_true hff
  rw [FunnelRR.xferCtrl, if_pos ((h.guard_iff hk hc _).mpr rfl)]
  split_ifs <;> exact ⟨_, rfl⟩

end Control

/-! ## Runs -/

section Runs

open FunnelTree (entered delivered)

variable {k bpc c : ℕ} {α : Type}

/-- The parameters of a funnel that the compiler accepts. -/
structure Accepted (k bpc c : ℕ) : Prop where
  two_le : 2 ≤ k
  pos : 0 < c
  bits : 0 < bpc
  fits : maxp k bpc c (1, 0) < 2 ^ 32

lemma Accepted.stages_pos (hp : Accepted k bpc c) : 0 < stages k bpc := by
  have hle : tlog k ≤ stages k bpc * bpc := tlog_le_stages (.inr hp.bits)
  have hlog := le_two_pow_tlog k
  have htwo := hp.two_le
  by_contra hzero
  rw [Nat.eq_zero_of_not_pos hzero, Nat.zero_mul, Nat.le_zero] at hle
  rw [hle, Nat.pow_zero] at hlog
  omega

/-- What has passed the levels: the elements come in at the top in turns, and every level passes them on in that order. -/
structure Tracks (c : ℕ) (tr : List (FunnelTree.Event k α)) (s : FunnelRR k bpc α) (passed : ℕ → List α) : Prop where
  dealt : s.buffs.Dealt (nodeTurn k bpc c) (stages k bpc) passed
  control : ∀ j, 0 < j → j ≤ stages k bpc → Control c j (passed j).length s
  entered_eq : ∀ i, entered tr i = share (turn (k * c) c) i 0 (passed (stages k bpc))
  delivered_eq : delivered tr = passed 0

variable {tr es : List (FunnelTree.Event k α)} {s s' : FunnelRR k bpc α} {passed : ℕ → List α}

lemma tracks_init : Tracks c ([] : List (FunnelTree.Event k α)) (init : FunnelRR k bpc α) fun _ => [] :=
  ⟨Net.dealt_empty _ _, fun _ _ _ => control_init, fun _ => rfl, rfl⟩

/-- The control parts when a rule of level `j` has fired. -/
lemma Tracks.xferCtrl (h : Tracks c tr s passed) (hp : Accepted k bpc c) {j i : ℕ} (hj : 0 < j) (hle : j ≤ stages k bpc)
    (hs : s.xferCtrl c (j, i) = some s') : i = nodeTurn k bpc c j (passed j).length ∧ s'.buffs = s.buffs ∧
      ∀ (x : α) (b : FunnelTree k bpc α) (e : ℕ), 0 < e → e ≤ stages k bpc →
        Control c e (Function.update passed j (passed j ++ [x]) e).length ({ s' with buffs := b } : FunnelRR k bpc α) := by
  obtain ⟨hturn, hnext⟩ := (h.control j hj hle).xferCtrl hp.two_le hp.pos hj hp.fits hs
  obtain ⟨hbuffs, hother⟩ := xferCtrl_other hs
  refine ⟨hturn, hbuffs, fun x b e he hel => ?_⟩
  by_cases hej : e = j
  · subst hej
    rw [Function.update_self, List.length_append, List.length_singleton]
    exact hnext
  · rw [Function.update_of_ne hej]
    exact (h.control e he hel).congr (fun i => (hother (e, i) hej).1) fun i => (hother (e, i) hej).2

/-- An element is taken from an input. -/
lemma Tracks.input (h : Tracks c tr s passed) (hp : Accepted k bpc c) {i : Fin k} {v : α}
    (hs : s.step c (.input i v) = some (s', es)) :
    ∃ passed', Tracks c (tr ++ es) s' passed' := by
  obtain ⟨d, hd⟩ : ∃ d, stages k bpc = d + 1 := ⟨stages k bpc - 1, by have := hp.stages_pos; omega⟩
  simp only [FunnelRR.step, FunnelTree.step, bind, pure, Option.bind_eq_some_iff, Prod.exists, Option.some.injEq,
    Prod.mk.injEq, if_neg hp.stages_pos.ne'] at hs
  obtain ⟨s₁, hctrl, b, es', ⟨n₁, n₂, y, hroute, b', henq, rfl, rfl⟩, rfl, rfl⟩ := hs
  obtain ⟨hturn, hbuffs, hcontrol⟩ := h.xferCtrl hp hp.stages_pos le_rfl hctrl
  simp only [funnelRoute, Option.ite_none_right_eq_some, Option.some.injEq, Prod.mk.injEq] at hroute
  obtain ⟨-, ⟨rfl, rfl⟩, rfl⟩ := hroute
  have htarget : (stages k bpc - 1, i.val / 2 ^ bpc) = (d, nodeTurn k bpc c d (passed (d + 1)).length) := by
    rw [hturn, hd, Nat.add_sub_cancel, nodeTurn_div (by omega)]
  rw [hbuffs, htarget] at henq
  have hdealt := h.dealt
  rw [hd] at hdealt
  have hdealt' := hdealt.enq henq
  rw [← hd] at hdealt'
  refine ⟨_, hdealt', hcontrol v b', fun j => ?_, ?_⟩
  · rw [FunnelTree.entered_entered, Function.update_self, share_concat, ← h.entered_eq, Nat.zero_add, ← nodeTurn_top,
      ← hturn, Function.update_apply]
    by_cases hj : j = i
    · subst hj
      rw [if_pos rfl, if_pos rfl]
    · rw [if_neg hj, if_neg (fun heq => hj (Fin.ext heq.symm)), List.append_nil]
  · rw [FunnelTree.delivered_entered, Function.update_of_ne hp.stages_pos.ne]
    exact h.delivered_eq

/-- An element moves on. -/
lemma Tracks.xfer (h : Tracks c tr s passed) (hp : Accepted k bpc c) {n : Node}
    (hs : s.step c (.xfer n) = some (s', es)) : es = [] ∧ ∃ passed', Tracks c (tr ++ es) s' passed' := by
  simp only [FunnelRR.step, FunnelTree.step, bind, pure, Option.bind_eq_some_iff, Prod.exists, Option.some.injEq,
    Prod.mk.injEq, Option.map_eq_some_iff] at hs
  obtain ⟨s₁, hctrl, b, es', ⟨b', hmove, rfl, rfl⟩, rfl, rfl⟩ := hs
  obtain ⟨hbuffs, -⟩ := xferCtrl_other hctrl
  rw [hbuffs] at hmove
  obtain ⟨x, m, y, b₁, hdeq, hroute, henq⟩ := Net.move_eq_some hmove
  have hlt : n.1 < stages k bpc := h.dealt.below n x (by
    rw [(Net.deq_eq_some hdeq).1]
    exact List.mem_cons_self)
  simp only [funnelRoute, Option.ite_none_right_eq_some] at hroute
  obtain ⟨j, i⟩ := n
  obtain ⟨j, rfl⟩ : ∃ e, j = e + 1 := ⟨j - 1, by have := hroute.1.1; simp only at this; omega⟩
  obtain ⟨rfl, -, hcontrol⟩ := h.xferCtrl hp (Nat.succ_pos j) hlt.le hctrl
  obtain ⟨z, hdealt⟩ := h.dealt.move hlt hmove fun {x m y} hr => by
    simp only [funnelRoute, Option.ite_none_right_eq_some, Option.some.injEq, Prod.mk.injEq, Nat.add_sub_cancel] at hr
    obtain ⟨-, rfl, rfl⟩ := hr
    exact ⟨by rw [nodeTurn_div (by simp only at hlt; omega)], rfl⟩
  refine ⟨rfl, _, hdealt, hcontrol z b', ?_, ?_⟩
  · rw [List.append_nil, Function.update_of_ne hlt.ne']
    exact h.entered_eq
  · rw [List.append_nil, Function.update_of_ne (Nat.succ_ne_zero j).symm]
    exact h.delivered_eq

/-- An element is taken from the output. -/
lemma Tracks.deq (h : Tracks c tr s passed) (hp : Accepted k bpc c) (hs : s.step c .deq = some (s', es)) :
    ∃ passed', Tracks c (tr ++ es) s' passed' := by
  simp only [FunnelRR.step, FunnelTree.step, bind, pure, Option.bind_eq_some_iff, Prod.exists, Option.some.injEq,
    Prod.mk.injEq, Option.map_eq_some_iff] at hs
  obtain ⟨s₁, rfl, b, es', ⟨x, b', hdeq, rfl, rfl⟩, rfl, rfl⟩ := hs
  have hzero : nodeTurn k bpc c 0 (passed 0).length = 0 := nodeTurn_zero hp.two_le hp.pos hp.bits _
  have hdealt := h.dealt.deq (by rw [hzero]; exact hdeq)
  refine ⟨_, hdealt, fun j hj hle => ?_, ?_, ?_⟩
  · rw [Function.update_of_ne hj.ne']
    exact (h.control j hj hle).congr (fun _ => rfl) fun _ => rfl
  · intro i
    rw [FunnelTree.entered_delivered, Function.update_of_ne hp.stages_pos.ne']
    exact h.entered_eq i
  · rw [FunnelTree.delivered_delivered, Function.update_self, h.delivered_eq]

/-- **What a step does**: the levels still pass on the elements in the order in which they came in. -/
lemma Tracks.step (h : Tracks c tr s passed) (hp : Accepted k bpc c) {a : FunnelTree.Action k α}
    (hs : s.step c a = some (s', es)) : ∃ passed', Tracks c (tr ++ es) s' passed' := by
  cases a with
  | input i v => exact h.input hp hs
  | xfer n => exact (h.xfer hp hs).2
  | deq => exact h.deq hp hs

/-- In every run. -/
lemma exists_tracks (hp : Accepted k bpc c) (h : (funnelPipesPipelinedRR k bpc c α).Reaches init tr s) :
    ∃ passed, Tracks c tr s passed := by
  refine h.invariant (I := fun tr s => ∃ passed, Tracks c tr s passed) ⟨_, tracks_init⟩ fun {tr s a s' es} ht hs => ?_
  obtain ⟨passed, htracks⟩ := ht
  exact htracks.step hp hs

/-- The weight of the elements in the queues: each counts the rules that it waits for. -/
def weight (s : FunnelRR k bpc α) : ℕ := s.buffs.weight (funnelNodes k bpc) fun n => n.1 + 1

lemma mem_funnelNodes (hp : Accepted k bpc c) {j : ℕ} (hj : j ≤ stages k bpc) (t : ℕ) :
    (j, nodeTurn k bpc c j t) ∈ funnelNodes k bpc := by
  rw [funnelNodes, Finset.mem_product, Finset.mem_range, Finset.mem_range]
  exact ⟨Nat.lt_succ_of_le hj, (nodeTurn_lt hp.two_le hp.pos hp.bits hj t).2⟩

/-- The rule of the node whose turn it is has somewhere to take its element. -/
lemma funnelRoute_nodeTurn (hp : Accepted k bpc c) {j : ℕ} (hj : j < stages k bpc) (t : ℕ) (x : α) :
    funnelRoute k bpc (j + 1, nodeTurn k bpc c (j + 1) t) x = some ((j, nodeTurn k bpc c j t), x) := by
  obtain ⟨hpow, hlt⟩ := nodeTurn_lt hp.two_le hp.pos hp.bits (Nat.succ_le_of_lt hj) t
  rw [← nodeTurn_div hj]
  exact if_pos ⟨Nat.succ_pos j, Nat.succ_le_of_lt hj, hpow, hlt⟩

/-- There is room in a queue that is empty. -/
lemma room_of_items_eq_nil {b : FunnelTree k bpc α} {n : Node} (hn : n.1 < stages k bpc) (h : b.items n = []) :
    (b.items n).length < funnelCap k bpc 0 n := by
  rw [h, funnelCap, if_neg hn.ne]
  exact Nat.zero_lt_two

/-- An element that is in the queues can move on, or go out. -/
lemma Tracks.exists_step (h : Tracks c tr s passed) (hp : Accepted k bpc c) (hne : ¬s.buffs.IsEmpty) :
    (∃ n s', s.step c (.xfer n) = some (s', []) ∧ s'.weight < s.weight) ∨
      ∃ v s', s.step c .deq = some (s', [.delivered v]) ∧ s'.weight < s.weight := by
  obtain ⟨j, hjd, hitems, hlow⟩ := h.dealt.exists_lowest hne
  obtain ⟨x, xs, hx⟩ := List.exists_cons_of_ne_nil hitems
  have hnode := mem_funnelNodes hp hjd.le (passed j).length
  cases j with
  | zero =>
    rw [nodeTurn_zero hp.two_le hp.pos hp.bits] at hx hnode
    obtain ⟨b, hdeq⟩ := Net.exists_deq hx
    have hweight := Net.weight_deq (w := fun n : Node => n.1 + 1) hdeq hnode
    refine .inr ⟨x, { s with buffs := b }, by simp [FunnelRR.step, FunnelTree.step, hdeq], ?_⟩
    show b.weight (funnelNodes k bpc) (fun n => n.1 + 1) < s.buffs.weight (funnelNodes k bpc) fun n => n.1 + 1
    omega
  | succ j =>
    obtain ⟨s₁, hctrl⟩ := (h.control (j + 1) (Nat.succ_pos j) hjd.le).exists_xferCtrl hp.two_le hp.pos
    obtain ⟨hbuffs, -⟩ := xferCtrl_other hctrl
    have hroute := funnelRoute_nodeTurn hp (by omega : j < stages k bpc) (passed (j + 1)).length x
    have hroom := room_of_items_eq_nil (n := (j, nodeTurn k bpc c j (passed (j + 1)).length)) (by simp only; omega)
      (hlow j (Nat.lt_succ_self j) _)
    obtain ⟨b, hmove⟩ := Net.exists_move hx hroute (by simp) hroom
    have hweight := Net.weight_move (w := fun n : Node => n.1 + 1) hmove hnode fun y _ m z hr => by
      rw [funnelRoute_nodeTurn hp (by omega : j < stages k bpc), Option.some.injEq, Prod.mk.injEq] at hr
      obtain ⟨rfl, -⟩ := hr
      exact ⟨mem_funnelNodes hp (by omega) _, rfl⟩
    refine .inl ⟨(j + 1, nodeTurn k bpc c (j + 1) (passed (j + 1)).length), { s₁ with buffs := b }, ?_, ?_⟩
    · simp [FunnelRR.step, FunnelTree.step, hctrl, hbuffs, hmove]
    show b.weight (funnelNodes k bpc) (fun n => n.1 + 1) < s.buffs.weight (funnelNodes k bpc) fun n => n.1 + 1
    omega

/-- The input whose turn it is can be taken from when the queues are empty. -/
lemma Tracks.exists_input (h : Tracks c tr s passed) (hp : Accepted k bpc c) (hempty : s.buffs.IsEmpty) {i : Fin k}
    (hi : i.val = turn (k * c) c (passed (stages k bpc)).length) (v : α) :
    ∃ s', s.step c (.input i v) = some (s', [.entered i v]) := by
  obtain ⟨d, hd⟩ : ∃ d, stages k bpc = d + 1 := ⟨stages k bpc - 1, by have := hp.stages_pos; omega⟩
  obtain ⟨s₁, hctrl⟩ := (h.control _ hp.stages_pos le_rfl).exists_xferCtrl hp.two_le hp.pos
  obtain ⟨hbuffs, -⟩ := xferCtrl_other hctrl
  have hroute := funnelRoute_nodeTurn hp (by omega : d < stages k bpc) (passed (stages k bpc)).length v
  obtain ⟨b, henq⟩ := Net.exists_enq
    (room_of_items_eq_nil (n := (d, nodeTurn k bpc c d (passed (stages k bpc)).length)) (by simp only; omega) (hempty _)) v
  rw [nodeTurn_top, ← hi] at hctrl
  rw [← hd, nodeTurn_top, ← hi] at hroute
  exact ⟨{ s₁ with buffs := b }, by
    simp [FunnelRR.step, FunnelTree.step, hctrl, hbuffs, hroute, henq, hp.stages_pos.ne']⟩

/-- What goes out of a funnel, when all has gone out. -/
lemma Tracks.delivered_of_isEmpty (h : Tracks c tr s passed) (hempty : s.buffs.IsEmpty) :
    delivered tr = passed (stages k bpc) := h.delivered_eq.trans (h.dealt.passed_eq hempty le_rfl).symm

/-- **The inputs take turns**: in every run the output takes `c` elements from the beginning of each input in turn; the run
can go on without further elements until it has all that came in, and then the input whose turn it is may go on. -/
theorem periodic (hp : Accepted k bpc c) (h : (funnelPipesPipelinedRR k bpc c α).Reaches init tr s) :
    (∃ ins, (∀ i, ins i <+: entered tr i) ∧ InTurns k c ins (delivered tr)) ∧
      ∃ tr' s', (funnelPipesPipelinedRR k bpc c α).Reaches s tr' s' ∧ entered (tr ++ tr') = entered tr ∧
        InTurns k c (entered tr) (delivered (tr ++ tr')) ∧
        ∀ i : Fin k, i.val = (delivered (tr ++ tr')).length / c % k →
          ∀ v, ∃ s'', s'.step c (.input i v) = some (s'', [.entered i v]) := by
  have htracks := exists_tracks hp h
  have hdrain := RuleSystem.exists_drained (M := funnelPipesPipelinedRR k bpc c α)
    (I := fun us s => ∃ passed, Tracks c us s passed) (E := fun _ s => s.buffs.IsEmpty) entered (fun _ s => s.weight)
    htracks ?_
  · obtain ⟨passed, ht⟩ := htracks
    obtain ⟨tr', s', hreach, ⟨passed', ht'⟩, hent, hempty⟩ := hdrain
    have hall := ht'.delivered_of_isEmpty hempty
    have hshares : entered tr = fun i : Fin k => share (turn (k * c) c) i 0 (delivered (tr ++ tr')) := by
      funext i
      rw [← hent, ht'.entered_eq, hall]
    refine ⟨⟨fun i => share (turn (k * c) c) i 0 (delivered tr), fun i => ?_, inTurns_share hp.pos k _⟩,
      tr', s', hreach, hent, ?_, fun i hi v => ?_⟩
    · rw [ht.entered_eq, ht.delivered_eq]
      exact share_prefix_of_prefix _ _ _ (ht.dealt.isPrefix_passed le_rfl)
    · rw [hshares]
      exact inTurns_share hp.pos k _
    · refine ht'.exists_input hp hempty ?_ v
      rw [hi, hall, turn, Nat.mod_mul_left_div_self]
  · rintro us s ⟨passed, ht⟩ - hne
    rcases ht.exists_step hp hne with ⟨n, s', hs, hlt⟩ | ⟨v, s', hs, hlt⟩
    · exact ⟨.xfer n, s', [], hs, ht.step hp hs, by rw [List.append_nil], hlt⟩
    · exact ⟨.deq, s', [.delivered v], hs, ht.step hp hs, FunnelTree.entered_delivered _ _, hlt⟩

end Runs

end FunnelRR

end Xbsv
