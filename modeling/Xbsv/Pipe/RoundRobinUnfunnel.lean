import Xbsv.Bits.Words
import Xbsv.Pipe.UnfunnelTree
import Xbsv.Rules.Turns

set_option relaxedAutoImplicit false
set_option autoImplicit false

/-!
# Unfunnels that take turns

`mkUnFunnelPipesPipelinedRR` for more than one output: the rule `fill` tags the elements with the number of an output, the
same for `c` elements in a row, and the tree of `mkUnFunnelPipesPipelined` takes them there. The queue `tagged_in_buffers`
is the node above its first stage.

## Main definitions

* `Xbsv.unFunnelPipesPipelinedRR` — the module, between its pipes.

## Main results

* `Xbsv.UnfunnelRR.Tracks.step` — the elements are dealt out to the outputs.
* `Xbsv.UnfunnelRR.splits` — every output gives out its share of the elements.
-/

namespace Xbsv

open Rules

/-! ## The source -/

/-- The state of `mkUnFunnelPipesPipelinedRR`. -/
structure UnfunnelRR (k : ℕ) (α : Type) where
  queues : UnfunnelTree k α
  dest : BitVec (tlog k + 1)
  cnt : BitVec 32

namespace UnfunnelRR

variable {k : ℕ} {α : Type}

def init : UnfunnelRR k α := ⟨Net.empty, 0, 0⟩

/-- The rule `fill` fires, where the input offers `v`; a rule `xfer`; and output `i` is taken. -/
inductive Action (α : Type)
  | fill (v : α)
  | xfer (n : Node)
  | deq (i : ℕ)

/-- An element is taken from the input, and an element is taken from output `i`. -/
inductive Event (α : Type)
  | entered (v : α)
  | delivered (i : ℕ) (v : α)

/-- The rule `fill`. -/
def fill (bpc c : ℕ) (s : UnfunnelRR k α) (v : α) : Option (UnfunnelRR k α) := do
  let new_cnt := s.cnt + 1
  let new_dest := if s.dest + 1 = BitVec.ofNat _ k then 0 else s.dest + 1
  let queues ← s.queues.enq (stages k bpc + 1, 0) (s.dest.setWidth (tlog k), v)
  return if new_cnt = BitVec.ofNat 32 c then ⟨queues, new_dest, 0⟩ else ⟨queues, s.dest, new_cnt⟩

def step (bpc c : ℕ) (s : UnfunnelRR k α) : Action α → Option (UnfunnelRR k α × List (Event α))
  | .fill v => (s.fill bpc c v).map fun s' => (s', [.entered v])
  | .xfer n => (s.queues.move (unfunnelTreeRoute k bpc) n).map fun queues => ({ s with queues }, [])
  | .deq i => (s.queues.deq (1, i)).map fun r => ({ s with queues := r.2 }, [.delivered i r.1.2])

end UnfunnelRR

/-- The unfunnel of `k` outputs that gives `c` elements to each in turn, with elements offered and taken at any times. -/
def unFunnelPipesPipelinedRR (k bpc c : ℕ) (α : Type) :
    RuleSystem (UnfunnelRR k α) (UnfunnelRR.Action α) (UnfunnelRR.Event α) where
  step s a := s.step bpc c a

namespace UnfunnelRR

/-! ## What is delivered -/

section Traces

variable {α : Type}

/-- The elements that were taken from the input. -/
def entered (tr : List (Event α)) : List α :=
  tr.filterMap fun
    | .entered v => some v
    | .delivered _ _ => none

/-- The elements that were taken from an output. -/
def delivered (tr : List (Event α)) (i : ℕ) : List α :=
  tr.filterMap fun
    | .entered _ => none
    | .delivered j v => if j = i then some v else none

variable (tr : List (Event α)) (i : ℕ) (v : α)

lemma entered_entered : entered (tr ++ [Event.entered v]) = entered tr ++ [v] := List.filterMap_append

lemma entered_delivered : entered (tr ++ [Event.delivered i v]) = entered tr := by
  rw [entered, List.filterMap_append]
  exact List.append_nil _

lemma delivered_entered : delivered (tr ++ [Event.entered v]) = delivered tr := by
  funext j
  rw [delivered, List.filterMap_append]
  exact List.append_nil _

lemma delivered_delivered :
    delivered (tr ++ [Event.delivered i v]) = Function.update (delivered tr) i (delivered tr i ++ [v]) :=
  filterMap_concat_eq_update _ tr fun _ => rfl

end Traces

/-! ## Runs -/

variable {k bpc c : ℕ} {α : Type}

/-- The parameters of an unfunnel that the compiler accepts. -/
structure Accepted (k bpc c : ℕ) : Prop where
  two_le : 2 ≤ k
  pos : 0 < c
  bits : 0 < bpc
  bits_le : bpc ≤ tlog k
  fits : c < 2 ^ 32

/-- The elements are dealt out: each output has had the beginning of its share, and the rest of it is in the queues. -/
structure Tracks (bpc c : ℕ) (tr : List (Event α)) (s : UnfunnelRR k α) : Prop where
  flow : s.queues.Flow (unfunnelTreePaths k bpc α) (stages k bpc + 1)
    (fun i => share (turn (k * c) c) i 0 (entered tr)) (delivered tr)
  directed : s.queues.Everywhere fun n x => 0 < n.1 ∧ Directed k bpc n x
  dest_eq : s.dest = BitVec.ofNat _ (turn (k * c) c (entered tr).length)
  cnt_eq : s.cnt = BitVec.ofNat 32 ((entered tr).length % (k * c) % c)

variable {tr es : List (Event α)} {s s' : UnfunnelRR k α}

lemma tracks_init : Tracks bpc c ([] : List (Event α)) (init : UnfunnelRR k α) := by
  refine ⟨Net.flow_empty _ _, by rintro n x ⟨⟩, ?_, ?_⟩
  · show (0 : BitVec (tlog k + 1)) = BitVec.ofNat _ (0 % (k * c) / c)
    rw [Nat.zero_mod, Nat.zero_div]
    rfl
  · show (0 : BitVec 32) = BitVec.ofNat 32 (0 % (k * c) % c)
    rw [Nat.zero_mod, Nat.zero_mod]
    rfl

lemma Accepted.k_pos (hp : Accepted k bpc c) : 0 < k := Nat.lt_of_succ_lt hp.two_le

/-- The numbers of the outputs have `tlog k` bits. -/
lemma Accepted.turn_lt_two_pow (hp : Accepted k bpc c) (t : ℕ) : turn (k * c) c t + 1 < 2 ^ (tlog k + 1) := by
  have hlt := turn_lt hp.k_pos hp.pos t
  have hle := le_two_pow_tlog k
  have htwo := hp.two_le
  rw [Nat.pow_succ]
  omega

/-- The registers count the elements. -/
lemma registers_next (hp : Accepted k bpc c) (t : ℕ) :
    (if BitVec.ofNat 32 (t % (k * c) % c) + 1 = BitVec.ofNat 32 c then
      (if BitVec.ofNat (tlog k + 1) (turn (k * c) c t) + 1 = BitVec.ofNat _ k then 0
        else BitVec.ofNat _ (turn (k * c) c t) + 1, 0)
    else (BitVec.ofNat _ (turn (k * c) c t), BitVec.ofNat 32 (t % (k * c) % c) + 1)) =
      (BitVec.ofNat (tlog k + 1) (turn (k * c) c (t + 1)), BitVec.ofNat 32 ((t + 1) % (k * c) % c)) := by
  have hnext := turn_next_of_round hp.k_pos hp.pos t
  have hlt := Nat.mod_lt (t % (k * c)) hp.pos
  have hfits := hp.fits
  have hdest := hp.turn_lt_two_pow t
  have hle := le_two_pow_tlog k
  have hcnt : BitVec.ofNat 32 (t % (k * c) % c) + 1 = BitVec.ofNat 32 (t % (k * c) % c + 1) := (BitVec.ofNat_add _ 1).symm
  have hsucc : BitVec.ofNat (tlog k + 1) (turn (k * c) c t) + 1 = BitVec.ofNat _ (turn (k * c) c t + 1) :=
    (BitVec.ofNat_add _ 1).symm
  have hend : BitVec.ofNat 32 (t % (k * c) % c + 1) = BitVec.ofNat 32 c ↔ t % (k * c) % c + 1 = c :=
    Bits.ofNat_inj_of_lt (by omega) hfits
  have hlast : BitVec.ofNat (tlog k + 1) (turn (k * c) c t + 1) = BitVec.ofNat _ k ↔ turn (k * c) c t + 1 = k :=
    Bits.ofNat_inj_of_lt hdest (hle.trans_lt (Nat.pow_lt_pow_succ (by omega)))
  rw [hcnt, hsucc]
  simp only [hend, hlast]
  split at hnext
  case isTrue hturn =>
    obtain ⟨hturn', hmod⟩ := Prod.mk.inj hnext
    rw [if_pos hturn, hturn', hmod]
    split <;> rfl
  case isFalse hturn =>
    obtain ⟨hturn', hmod⟩ := Prod.mk.inj hnext
    rw [if_neg hturn, hturn', hmod]

/-- An element is taken from the input. -/
lemma Tracks.fill (h : Tracks bpc c tr s) (hp : Accepted k bpc c) {v : α} (hs : s.fill bpc c v = some s') :
    Tracks bpc c (tr ++ [Event.entered v]) s' := by
  simp only [UnfunnelRR.fill, bind, pure, Option.bind_eq_some_iff, Option.some.injEq] at hs
  obtain ⟨queues, henq, hs⟩ := hs
  have hf := unfunnelTree_follows (β := α) (.inr hp.bits) hp.bits_le
  -- the tag is the number of an output
  obtain ⟨idx, hidx⟩ : ∃ idx : Fin k, idx.val = turn (k * c) c (entered tr).length := ⟨⟨_, turn_lt hp.k_pos hp.pos _⟩, rfl⟩
  have htag : s.dest.setWidth (tlog k) = BitVec.ofNat (tlog k) idx := by
    rw [h.dest_eq, BitVec.setWidth_ofNat_of_le (Nat.le_succ _), hidx]
  rw [htag] at henq
  have htop : Directed k bpc (stages k bpc + 1, 0) (BitVec.ofNat (tlog k) idx, v) := directed_top idx.isLt v
  have hflow := h.flow.enq hf henq (unfunnelTreePaths_pos (Nat.succ_pos _) _)
  have hkey : (unfunnelTreePaths k bpc α).key (stages k bpc + 1, 0) (BitVec.ofNat (tlog k) idx, v) = idx := outputOf_top idx
  have hpay : (unfunnelTreePaths k bpc α).pay (BitVec.ofNat (tlog k) idx, v) = v := rfl
  have hshares : (fun i => share (turn (k * c) c) i 0 (entered (tr ++ [Event.entered v]))) =
      Function.update (fun i => share (turn (k * c) c) i 0 (entered tr)) idx
        (share (turn (k * c) c) idx 0 (entered tr) ++ [v]) := by
    funext i
    rw [entered_entered, share_concat, Nat.zero_add, ← hidx, Function.update_apply]
    by_cases hi : i = idx
    · rw [if_pos hi, if_pos hi.symm, hi]
    · rw [if_neg hi, if_neg (Ne.symm hi), List.append_nil]
  have hregs := registers_next hp (entered tr).length
  rw [← h.dest_eq, ← h.cnt_eq] at hregs
  have hlen : (entered (tr ++ [Event.entered v])).length = (entered tr).length + 1 := by
    rw [entered_entered, List.length_append, List.length_singleton]
  rw [hkey, hpay] at hflow
  have hqueues : s'.queues = queues ∧ (s'.dest, s'.cnt) =
      (if s.cnt + 1 = BitVec.ofNat 32 c then (if s.dest + 1 = BitVec.ofNat _ k then 0 else s.dest + 1, 0)
        else (s.dest, s.cnt + 1)) := by
    rw [← hs]
    split <;> exact ⟨rfl, rfl⟩
  obtain ⟨hq, hregs'⟩ := hqueues
  obtain ⟨hdest, hcnt⟩ := Prod.mk.inj (hregs'.trans hregs)
  refine ⟨?_, ?_, ?_, ?_⟩
  · rw [hq, hshares, delivered_entered]
    exact hflow
  · rw [hq]
    exact h.directed.enq henq ⟨Nat.succ_pos _, htop⟩
  · rw [hdest, hlen]
  · rw [hcnt, hlen]

/-- **What a step does**: the elements are dealt out to the outputs. -/
lemma Tracks.step (h : Tracks bpc c tr s) (hp : Accepted k bpc c) {a : Action α} (hs : s.step bpc c a = some (s', es)) :
    Tracks bpc c (tr ++ es) s' := by
  have hf := unfunnelTree_follows (β := α) (.inr hp.bits) hp.bits_le
  cases a with
  | fill v =>
    simp only [UnfunnelRR.step, Option.map_eq_some_iff, Prod.mk.injEq] at hs
    obtain ⟨s₁, hfill, rfl, rfl⟩ := hs
    exact h.fill hp hfill
  | xfer n =>
    simp only [UnfunnelRR.step, Option.map_eq_some_iff, Prod.mk.injEq] at hs
    obtain ⟨queues, hmove, rfl, rfl⟩ := hs
    rw [List.append_nil]
    exact ⟨h.flow.move hf hmove,
      h.directed.move hmove fun hdir hr => (UnfunnelTree.directed_route hp.bits hp.bits_le hdir hr).2, h.dest_eq, h.cnt_eq⟩
  | deq i =>
    simp only [UnfunnelRR.step, Option.map_eq_some_iff, Prod.exists, Prod.mk.injEq] at hs
    obtain ⟨tag, v, queues, hdeq, rfl, rfl⟩ := hs
    refine ⟨?_, h.directed.deq hdeq, ?_, ?_⟩
    · rw [entered_delivered, delivered_delivered]
      exact UnfunnelTree.flow_deq hp.bits hp.bits_le h.flow hdeq
    · rw [entered_delivered]
      exact h.dest_eq
    · rw [entered_delivered]
      exact h.cnt_eq

/-- In every run. -/
lemma tracks (hp : Accepted k bpc c) (h : (unFunnelPipesPipelinedRR k bpc c α).Reaches init tr s) : Tracks bpc c tr s :=
  h.invariant tracks_init fun ht hs => ht.step hp hs

/-- The elements that go out at an output are the beginning of its share. -/
lemma Tracks.delivered_isPrefix (h : Tracks bpc c tr s) (i : ℕ) :
    delivered tr i <+: share (turn (k * c) c) i 0 (entered tr) := ⟨_, h.flow.stream_eq i⟩

/-- An element that is in the queues can move on, or go out. -/
lemma Tracks.exists_step (h : Tracks bpc c tr s) (hp : Accepted k bpc c) (hne : ¬s.queues.IsEmpty) :
    ∃ a s' es, s.step bpc c a = some (s', es) ∧ entered es = [] ∧
      UnfunnelTree.rank bpc s'.queues < UnfunnelTree.rank bpc s.queues := by
  rcases UnfunnelTree.exists_deq_or_move hp.bits hp.bits_le h.directed hne with
    ⟨i, x, queues, hdeq, hlt⟩ | ⟨n, queues, hmove, hlt⟩
  · exact ⟨.deq i, { s with queues }, [.delivered i x.2], by rw [UnfunnelRR.step, hdeq, Option.map_some], rfl, hlt⟩
  · exact ⟨.xfer n, { s with queues }, [], by rw [UnfunnelRR.step, hmove, Option.map_some], rfl, hlt⟩

/-- The rule `fill` can fire when the queues are empty. -/
lemma exists_fill (bpc c : ℕ) (hempty : s.queues.IsEmpty) (v : α) : ∃ s', s.fill bpc c v = some s' := by
  obtain ⟨queues, henq⟩ := hempty.exists_enq (n := (stages k bpc + 1, 0)) (by simp [unfunnelCap])
    (s.dest.setWidth (tlog k), v)
  exact ⟨_, by simp only [UnfunnelRR.fill, henq, bind, Option.bind_some, pure]; rfl⟩

lemma entered_append (tr us : List (Event α)) : entered (tr ++ us) = entered tr ++ entered us := List.filterMap_append

/-- **The outputs take turns**: in every run each output gives out the beginning of its share, `c` elements in turn; the run
can go on without further elements until each has given out all of its share, and then an element can be taken from the
input. -/
theorem splits (hp : Accepted k bpc c) (h : (unFunnelPipesPipelinedRR k bpc c α).Reaches init tr s) :
    (∃ outs, (∀ i : Fin k, delivered tr i <+: outs i) ∧ InTurns k c outs (entered tr)) ∧
      ∃ tr' s', (unFunnelPipesPipelinedRR k bpc c α).Reaches s tr' s' ∧ entered (tr ++ tr') = entered tr ∧
        InTurns k c (fun i => delivered (tr ++ tr') i) (entered tr) ∧
        ∀ v, ∃ s'', s'.step bpc c (.fill v) = some (s'', [.entered v]) := by
  have ht := tracks hp h
  have hdrain := RuleSystem.exists_drained (M := unFunnelPipesPipelinedRR k bpc c α) (I := Tracks bpc c)
    (E := fun _ s => s.queues.IsEmpty) entered (fun _ s => UnfunnelTree.rank bpc s.queues) ht ?_
  · obtain ⟨tr', s', hreach, ht', hent, hempty⟩ := hdrain
    refine ⟨⟨fun i => share (turn (k * c) c) i 0 (entered tr), fun i => ht.delivered_isPrefix i, inTurns_share hp.pos k _⟩,
      tr', s', hreach, hent, ?_, fun v => ?_⟩
    · rw [ht'.flow.outs_eq hempty, hent]
      exact inTurns_share hp.pos k _
    · obtain ⟨s'', hfill⟩ := exists_fill bpc c hempty v
      exact ⟨s'', by rw [UnfunnelRR.step, hfill, Option.map_some]⟩
  · intro us s ht _ hne
    obtain ⟨a, s', es, hs, hnone, hlt⟩ := ht.exists_step hp hne
    exact ⟨a, s', es, hs, ht.step hp hs, by rw [entered_append, hnone, List.append_nil], hlt⟩

end UnfunnelRR

end Xbsv
