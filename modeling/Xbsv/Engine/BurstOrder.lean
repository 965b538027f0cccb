import Xbsv.Engine.BurstFlights

set_option relaxedAutoImplicit false
set_option autoImplicit false

/-!
# The order of bursts

With lengths of bursts that are fixed, between 1 and 16, a burst funnel deals its data out by the calls
of `loadIdx`: what comes out is a burst for each call in turn, made of the next elements of its input.
Nothing gets stuck on the way either: whatever has entered can come out, without any further call or
element, and then the next element can enter.

## Main definitions

* `Xbsv.BurstFunnel.FixedLen` — the steps that keep the lengths fixed.
* `Xbsv.BurstFunnel.load` — how far the elements inside are from having come out.

## Main results

* `Xbsv.BurstFunnel.exists_carries` — a whole run.
* `Xbsv.burstFunnel_deals` — what comes out, that names are not mixed up, and that all comes out.
-/

namespace Xbsv

open Rules

namespace BurstFunnel

variable {k w : ℕ}

/-- The lengths are fixed: the register of an input is only given its length, and has it when a burst is
asked for. -/
def FixedLen (len : Fin k → BitVec 8) (s : BurstFunnel k w) : Action k w → Prop
  | .loadIdx i => s.burstLen i = len i
  | .setBurstLen i v => v = len i
  | _ => True

instance (len : Fin k → BitVec 8) (s : BurstFunnel k w) (a : Action k w) : Decidable (FixedLen len s a) := by
  cases a <;> unfold FixedLen <;> infer_instance

section Traces

variable (tr es : List (Event k w))

@[simp] lemma calls_append : calls (tr ++ es) = calls tr ++ calls es := List.filterMap_append

@[simp] lemma entries_append : entries (tr ++ es) = entries tr ++ entries es := List.filterMap_append

end Traces

/-- The calls of `loadIdx`, with the lengths of the bursts. -/
def callsWith (len : Fin k → BitVec 8) (tr : List (Event k w)) : List (Fin k × ℕ) :=
  (calls tr).map fun i => (i, (len i).toNat)

/-- What a run with fixed lengths put in and got out. -/
def logOf (len : Fin k → BitVec 8) (tr : List (Event k w)) : Log k w :=
  ⟨callsWith len tr, entries tr, outputs tr⟩

variable {len : Fin k → BitVec 8} {tr es : List (Event k w)} {s s' : BurstFunnel k w} {V : Flights k w}

lemma logOf_called (i : Fin k) : logOf len (tr ++ [Event.called i]) =
    { logOf len tr with calls := (logOf len tr).calls ++ [(i, (len i).toNat)] } := by
  simp [logOf, callsWith, calls, entries, outputs, Event.called?, Event.entered?, Event.left?]

lemma logOf_entered (i : Fin k) (v : BitVec w) : logOf len (tr ++ [Event.entered i v]) =
    { logOf len tr with entered := (logOf len tr).entered ++ [(i, v)] } := by
  simp [logOf, callsWith, calls, entries, outputs, Event.called?, Event.entered?, Event.left?]

lemma logOf_left (i : Fin k) (v : BitVec w) : logOf len (tr ++ [Event.left i v]) =
    { logOf len tr with left := (logOf len tr).left ++ [(i, v)] } := by
  simp [logOf, callsWith, calls, entries, outputs, Event.called?, Event.entered?, Event.left?]

/-- Writing its length to the register of an input changes nothing that matters. -/
lemma Carries.register (h : Carries (logOf len tr) s V) (i : Fin k) :
    len i = s.burstLen i ∨ s.Settled i := by
  by_cases hs : s.Settled i
  · exact .inr hs
  · left
    obtain ⟨j, -, hj⟩ := List.mem_map.mp (h.exists_call hs)
    rw [Prod.mk.injEq] at hj
    obtain ⟨rfl, hlen⟩ := hj
    exact BitVec.eq_of_toNat_eq hlen

/-- One step. -/
lemma Carries.step (hlen : ∀ i, 1 ≤ (len i).toNat ∧ (len i).toNat ≤ 16)
    (h : Carries (logOf len tr) s V) {a : Action k w} (ha : FixedLen len s a)
    (hs : (burstFunnel k w).step s a = some (s', es)) :
    ∃ V', Carries (logOf len (tr ++ es)) s' V' := by
  cases a with
  | loadIdx i =>
    simp only [burstFunnel, bind, pure, Option.bind_eq_some_iff, Option.some.injEq, Prod.mk.injEq] at hs
    obtain ⟨s₁, hload, rfl, rfl⟩ := hs
    have hreg : s.burstLen i = len i := ha
    have h' := h.loadIdx (by rw [hreg]; exact hlen i) hload
    rwa [hreg, ← logOf_called] at h'
  | setBurstLen i v =>
    simp only [burstFunnel, Option.some.injEq, Prod.mk.injEq] at hs
    obtain ⟨rfl, rfl⟩ := hs
    obtain rfl : v = len i := ha
    rw [List.append_nil]
    exact ⟨V, h.setBurstLen (h.register i)⟩
  | enq i v =>
    simp only [burstFunnel, bind, pure, Option.bind_eq_some_iff, Option.some.injEq, Prod.mk.injEq] at hs
    obtain ⟨s₁, henq, rfl, rfl⟩ := hs
    rw [logOf_entered]
    exact h.enq henq
  | moveData n =>
    simp only [burstFunnel, bind, pure, Option.bind_eq_some_iff, Option.some.injEq, Prod.mk.injEq] at hs
    obtain ⟨s₁, hmove, rfl, rfl⟩ := hs
    rw [List.append_nil]
    exact ⟨V, h.moveData hmove⟩
  | drainFunnel =>
    simp only [burstFunnel, bind, pure, Option.bind_eq_some_iff, Option.some.injEq, Prod.mk.injEq] at hs
    obtain ⟨s₁, hdrain, rfl, rfl⟩ := hs
    rw [List.append_nil]
    exact h.drainFunnel hdrain
  | drainReq =>
    simp only [burstFunnel, bind, pure, Option.bind_eq_some_iff, Option.some.injEq, Prod.mk.injEq] at hs
    obtain ⟨s₁, hdrain, rfl, rfl⟩ := hs
    rw [List.append_nil]
    exact h.drainReq hdrain
  | drainResp =>
    simp only [burstFunnel, bind, pure, Option.bind_eq_some_iff, Option.some.injEq, Prod.mk.injEq] at hs
    obtain ⟨s₁, hdrain, rfl, rfl⟩ := hs
    rw [List.append_nil]
    exact h.drainResp hdrain
  | deq =>
    simp only [burstFunnel, bind, pure, Option.bind_eq_some_iff, Prod.exists, Option.some.injEq,
      Prod.mk.injEq] at hs
    obtain ⟨i, v, s₁, hdeq, rfl, rfl⟩ := hs
    rw [logOf_left]
    exact ⟨V, h.deq hdeq⟩

/-- A whole run. -/
theorem exists_carries (hlen : ∀ i, 1 ≤ (len i).toNat ∧ (len i).toNat ≤ 16)
    {buff : BitVec (buffAddrSz 4 16) → BitVec w × Bool}
    (h : ((burstFunnel k w).guard (FixedLen len)).Reaches (reset k w buff) tr s) :
    ∃ V, Carries (logOf len tr) s V := by
  refine h.invariant (I := fun tr s => ∃ V, Carries (logOf len tr) s V) ⟨_, carries_reset buff⟩ ?_
  rintro tr s a s' es ⟨V, h⟩ hs
  obtain ⟨ha, hs⟩ := RuleSystem.guard_step.mp hs
  exact h.step hlen ha hs

/-! ## Nothing gets stuck -/

/-- How far the elements inside are from having come out: an element has to pass the levels of the funnel,
the block RAM, its answers, and the queue at the end. -/
def load (s : BurstFunnel k w) : ℕ :=
  s.dataIn.weight (funnelNodes k (bitsPerCycle k)) (fun n => n.1 + 4) +
    3 * ∑ ν, (s.compCnts ν).toNat + 2 * s.complBuff.resp.items.length + s.exitData.items.length

/-- One counter changes. -/
lemma sum_update_add {c : Fin 4 → BitVec 16} (μ : Fin 4) (x : BitVec 16) :
    ∑ ν, (Function.update c μ x ν).toNat + (c μ).toNat = ∑ ν, (c ν).toNat + x.toNat := by
  have hterm : ∀ ν, (Function.update c μ x ν).toNat + (if ν = μ then (c μ).toNat else 0) =
      (c ν).toNat + if ν = μ then x.toNat else 0 := by
    intro ν
    by_cases hν : ν = μ
    · subst hν
      simp [Nat.add_comm]
    · simp [hν]
  have hsum := Finset.sum_congr rfl fun ν (_ : ν ∈ Finset.univ) => hterm ν
  rwa [Finset.sum_add_distrib, Finset.sum_add_distrib, Finset.sum_ite_eq', Finset.sum_ite_eq',
    if_pos (Finset.mem_univ μ), if_pos (Finset.mem_univ μ)] at hsum

variable {L : Log k w}

/-- The counters of the block RAM. -/
lemma Carries.compCnts_toNat (h : Carries L s V) (ν : Fin 4) :
    (s.compCnts ν).toNat = (V.queue ν).length ∧ (V.queue ν).length ≤ 16 := by
  have hle : (V.queue ν).length ≤ 16 := by
    obtain ⟨_, hat⟩ := h.holds ν
    exact hat.length_le
  refine ⟨?_, hle⟩
  rw [h.compCnts, BitVec.toNat_ofNat, Nat.mod_eq_of_lt (by omega)]

/-- An element can leave. -/
lemma exists_deq {x : Fin k × BitVec w} {xs : List (Fin k × BitVec w)} (hx : s.exitData.items = x :: xs) :
    ∃ s', s.deq = some (x, s') ∧ s'.load < s.load := by
  obtain ⟨q, hq, hitems⟩ := Fifo.exists_deq hx
  refine ⟨{ s with exitData := q }, by simp [BurstFunnel.deq, hq], ?_⟩
  simp only [load, hitems, hx, List.length_cons]
  omega

/-- An answer of the block RAM can go into the queue at the end. -/
lemma Carries.exists_drainResp (h : Carries L s V) (hexit : s.exitData.items = [])
    (hne : s.complBuff.resp.items ≠ []) : ∃ s', s.drainResp = some s' ∧ s'.load < s.load := by
  obtain ⟨⟨v, last⟩, xs, hx⟩ := List.exists_cons_of_ne_nil hne
  obtain ⟨rest, -, hlabels⟩ := h.drained
  rw [hx] at hlabels
  obtain ⟨i, is, -, hname, -, -⟩ := hlabels.head
  obtain ⟨resp, hresp, hitems⟩ := Fifo.exists_deq hx
  obtain ⟨exitData, henq, hexit'⟩ := Fifo.exists_enq (q := s.exitData) (by rw [hexit]; simp) (i, v)
  obtain ⟨p, hp⟩ := Fifo.exists_dropIf hname last
  refine ⟨{ s with
    complBuff := { s.complBuff with resp }
    drainRename := p
    exitData }, ?_, ?_⟩
  · simp [BurstFunnel.drainResp, UGBramFifos.firstResp, hresp, Fifo.first, hname, hp, henq]
  · simp only [load, hitems, hx, hexit, hexit', List.length_cons, List.length_append, List.length_nil]
    omega

/-- The next element of the burst that is to be drained can be asked for, if it is in the block RAM. -/
lemma Carries.exists_drainReq (h : Carries L s V) (hresp : s.complBuff.resp.items = []) {b : Burst k w}
    {F : List (Burst k w)} (hF : V.flying = b :: F) (hq : V.queue b.name ≠ []) :
    ∃ s', s.drainReq = some s' ∧ s'.load < s.load := by
  obtain ⟨hcnt, -⟩ := h.compCnts_toNat b.name
  have hpos : 0 < (s.compCnts b.name).toNat := by
    rw [hcnt]
    exact List.length_pos_of_ne_nil hq
  have hgt : s.compCnts b.name > 0 := by
    rw [gt_iff_lt, BitVec.lt_def]
    exact hpos
  have hfly : s.inFlight.items = b.key :: F.map Burst.key := by rw [h.inFlight, hF]; rfl
  -- when no burst is being drained, no label is left
  have hroom : decide (s.drainCnt = 0) = true → s.drainRename.items.length < 2 := by
    intro h0
    obtain ⟨rest, hdrain, hlabels⟩ := h.drained
    rw [decide_eq_true_iff.mp h0] at hdrain
    rw [hresp] at hlabels
    rw [hlabels.of_nil.1, hdrain.of_zero.1]
    exact Nat.zero_lt_two
  obtain ⟨p, hp⟩ := Fifo.exists_enqIf hroom b.idx
  obtain ⟨q, hdrop⟩ := Fifo.exists_dropIf hfly
    (decide ((if s.drainCnt = 0 then s.burstLen b.idx - 1 else s.drainCnt - 1) = 0))
  obtain ⟨resp, hreq, hitems⟩ := Fifo.exists_enq (q := s.complBuff.resp) (by rw [hresp]; simp)
    (s.complBuff.buff (s.complBuff.head b.name))
  refine ⟨{ s with
    drainRename := p
    inFlight := q
    complBuff := UGBramFifos.deq { s.complBuff with resp } b.name
    drainCnt := if s.drainCnt = 0 then s.burstLen b.idx - 1 else s.drainCnt - 1
    compCnts := Function.update s.compCnts b.name (s.compCnts b.name - 1) }, ?_, ?_⟩
  · simp only [BurstFunnel.drainReq, Fifo.first, hfly, List.head?_cons, Burst.key, bind, pure,
      Option.bind_some, hgt, if_true, hp, hdrop, UGBramFifos.firstReq, hreq]
  · have hsum := sum_update_add (c := s.compCnts) b.name (s.compCnts b.name - 1)
    rw [Loader.counter_sub_one hpos] at hsum
    simp only [load, UGBramFifos.deq, hitems, hresp, List.length_append, List.length_nil,
      List.length_cons]
    omega

/-- An element at the end of the funnel can go into the block RAM. -/
lemma Carries.exists_drainFunnel (h : Carries L s V) (hne : s.dataIn.items (0, 0) ≠ []) :
    ∃ s', s.drainFunnel = some s' ∧ s'.load < s.load := by
  obtain ⟨⟨ν, x⟩, xs, hx⟩ := List.exists_cons_of_ne_nil hne
  obtain ⟨dataIn, hdeq⟩ := Net.exists_deq hx
  obtain ⟨⟨b, hb, -, hroom⟩, -⟩ := h.transit.arrive hdeq
  have hvals := h.vals_le b hb
  obtain ⟨hcnt, -⟩ := h.compCnts_toNat ν
  have hnode : ((0, 0) : Node) ∈ funnelNodes k (bitsPerCycle k) := by
    rw [funnelNodes, Finset.mem_product, Finset.mem_range, Finset.mem_range]
    exact ⟨Nat.succ_pos _, b.idx.pos⟩
  refine ⟨{ s with
    dataIn
    complBuff := s.complBuff.enq ν x
    compCnts := Function.update s.compCnts ν (s.compCnts ν + 1) },
    by simp [BurstFunnel.drainFunnel, hdeq], ?_⟩
  have hweight := Net.weight_deq (w := fun n : Node => n.1 + 4) hdeq hnode
  have hsum := sum_update_add (c := s.compCnts) ν (s.compCnts ν + 1)
  rw [Loader.counter_add_one (m := 16) (by omega) (by omega)] at hsum
  simp only [load, UGBramFifos.enq]
  omega

/-- An element moves on in the funnel when none is at its end. -/
lemma Carries.exists_moveData (h : Carries L s V) (hbottom : s.dataIn.items (0, 0) = [])
    (hne : ∃ n, s.dataIn.items n ≠ []) : ∃ n s', s.moveData n = some s' ∧ s'.load < s.load := by
  have hhome : s.dataIn.Everywhere fun _ x => V.home x.1 < k := by
    intro n x hx
    obtain ⟨b, hb, hname⟩ := h.transit.named n x hx
    rw [← hname, h.transit.home_eq b hb]
    exact b.idx.isLt
  obtain ⟨n, dataIn, hmove, hweight⟩ := exists_funnelMove (bitsPerCycle_pos k)
    h.transit.confined h.transit.levels hhome hbottom hne 4
  refine ⟨n, { s with dataIn }, by simp [BurstFunnel.moveData, hmove], ?_⟩
  simp only [load]
  omega

/-- The first of the bursts in flight has not been drained in full. -/
lemma Carries.sent_lt (h : Carries L s V) {b : Burst k w} {F : List (Burst k w)}
    (hF : V.flying = b :: F) : b.sent.length < b.len := by
  have hlen := h.len b (by simp [hF])
  obtain ⟨rest, hdrain, -⟩ := h.drained
  rcases Nat.eq_zero_or_pos s.drainCnt.toNat with h0 | h0
  · rw [h0] at hdrain
    rw [hdrain.of_zero.2 b (by simp [hF]), List.length_nil]
    omega
  · obtain ⟨c, G, hG, -, -, hcount⟩ := hdrain.of_pos h0
    obtain ⟨rfl, -⟩ : b = c ∧ F = G := by simpa [hF] using hG
    omega

/-- When nothing is left of the first of the bursts in flight, it is the only one, and it is still
entering. -/
lemma Carries.only_flying (h : Carries L s V) {b : Burst k w} {F : List (Burst k w)}
    (hF : V.flying = b :: F) (hb : b.vals = []) : F = [] ∧ s.injCtrl ≠ 0 := by
  have hlt := h.sent_lt hF
  have hnot : ¬ b.Full := by
    rw [Burst.Full, hb, List.length_nil]
    omega
  obtain ⟨cur, -, hinj⟩ := h.loadIdxs
  rw [hF] at hinj
  rcases Nat.eq_zero_or_pos s.injCtrl.toNat with h0 | h0
  · rw [h0] at hinj
    exact absurd (hinj.of_zero.2 b List.mem_cons_self) hnot
  · obtain ⟨G, c, hG, -, hfull, -⟩ := hinj.of_pos h0
    refine ⟨?_, fun hz => ?_⟩
    · cases G with
      | nil => exact (List.cons.inj hG).2
      | cons d G =>
        obtain rfl : b = d := (List.cons.inj hG).1
        exact absurd (hfull b List.mem_cons_self) hnot
    · rw [eq_zero_iff_toNat] at hz
      omega

/-- The next element can enter, if its input is free, and there is room for a burst if it is the first
of one. -/
lemma exists_enq {e : Fin k × Fin 4} {es : List (Fin k × Fin 4)} (hload : s.loadIdxs.items = e :: es)
    (hfree : s.dataIn.items (stages k (bitsPerCycle k), e.1) = [])
    (hroom : s.injCtrl = 0 → s.inFlight.items.length < 4) (v : BitVec w) :
    ∃ s', s.enq e.1 v = some s' := by
  obtain ⟨q, hq⟩ := Fifo.exists_enqIf (q := s.inFlight) (b := decide (s.injCtrl = 0))
    (fun h0 => hroom (decide_eq_true_iff.mp h0)) e
  let cnt := (if decide (s.injCtrl = 0) then s.burstLen e.1 else s.injCtrl) - 1
  obtain ⟨p, hp⟩ := Fifo.exists_dropIf hload (decide (cnt = 0))
  obtain ⟨dataIn, henq⟩ := Net.exists_enq (s := s.dataIn) (n := (stages k (bitsPerCycle k), e.1.val))
    (by rw [hfree]; simp [funnelCap]) (e.2, (v, decide (cnt = 0)))
  exact ⟨{ s with injCtrl := cnt, inFlight := q, loadIdxs := p, dataIn },
    by simp only [BurstFunnel.enq, Fifo.first, hload, List.head?_cons, bind, pure, Option.bind_some,
      if_true, hq, cnt, hp, henq]⟩

/-- All that has entered has come out, and the next element can enter. -/
def Drained (L : Log k w) (s : BurstFunnel k w) : Prop :=
  L.left = L.entered ∧ ∀ e es, s.loadIdxs.items = e :: es → ∀ v, ∃ s', s.enq e.1 v = some s'

/-- When nothing is in the funnel, the block RAM and the queue at the end, all has come out. -/
lemma Carries.drained_of_empty (h : Carries L s V) (hexit : s.exitData.items = [])
    (hresp : s.complBuff.resp.items = []) (hdata : ∀ n, s.dataIn.items n = [])
    (hqueue : ∀ b F, V.flying = b :: F → V.queue b.name = []) : Drained L s := by
  obtain ⟨rest, -, hlabels⟩ := h.drained
  rw [hresp] at hlabels
  have hleft := h.left
  rw [hexit, hlabels.of_nil.2, List.append_nil, List.append_nil] at hleft
  have hpast : V.past.flatMap Burst.exits = V.past.flatMap Burst.entries := by
    refine List.flatMap_congr fun b hb => ?_
    rw [Burst.exits, Burst.entries, (h.past b hb).2, List.append_nil]
  rw [Drained, hleft, h.entered, List.flatMap_append, List.flatMap_append, hpast]
  cases hF : V.flying with
  | nil =>
    refine ⟨rfl, fun e es hload v => exists_enq hload (hdata _) (fun _ => ?_) v⟩
    rw [h.inFlight, hF]
    exact Nat.zero_lt_succ 3
  | cons b F =>
    have hvals : b.vals = [] := by
      have ht := h.transit.traffic b (by simp [hF])
      rw [hqueue b F hF, Net.stream_eq_nil (fun n x hx => by rw [hdata n] at hx; cases hx)] at ht
      have hlen := congrArg List.length ht
      rw [length_marked] at hlen
      exact List.eq_nil_of_length_eq_zero hlen.symm
    obtain ⟨rfl, hinj⟩ := h.only_flying hF hvals
    refine ⟨?_, fun e es hload v => exists_enq hload (hdata _) (fun h0 => absurd h0 hinj) v⟩
    simp [Burst.exits, Burst.entries, hvals]

/-- The rules that bring elements on, and `dataOut.deq`. -/
def Action.Drains : Action k w → Prop
  | .moveData _ | .drainFunnel | .drainReq | .drainResp | .deq => True
  | _ => False

/-- **As long as something is inside, it can get on.** -/
lemma Carries.exists_step (h : Carries L s V) : Drained L s ∨ ∃ a s' es, Action.Drains a ∧
    (burstFunnel k w).step s a = some (s', es) ∧ s'.load < s.load := by
  by_cases hexit : s.exitData.items = []
  swap
  · obtain ⟨x, xs, hx⟩ := List.exists_cons_of_ne_nil hexit
    obtain ⟨s', hs, hlt⟩ := exists_deq hx
    exact .inr ⟨.deq, s', [.left x.1 x.2], trivial, by simp [burstFunnel, hs], hlt⟩
  by_cases hresp : s.complBuff.resp.items = []
  swap
  · obtain ⟨s', hs, hlt⟩ := h.exists_drainResp hexit hresp
    exact .inr ⟨.drainResp, s', [], trivial, by simp [burstFunnel, hs], hlt⟩
  by_cases hbottom : s.dataIn.items (0, 0) = []
  swap
  · obtain ⟨s', hs, hlt⟩ := h.exists_drainFunnel hbottom
    exact .inr ⟨.drainFunnel, s', [], trivial, by simp [burstFunnel, hs], hlt⟩
  by_cases hdata : ∀ n, s.dataIn.items n = []
  swap
  · obtain ⟨n, s', hs, hlt⟩ := h.exists_moveData hbottom (not_forall.mp hdata)
    exact .inr ⟨.moveData n, s', [], trivial, by simp [burstFunnel, hs], hlt⟩
  by_cases hqueue : ∀ b F, V.flying = b :: F → V.queue b.name = []
  · exact .inl (h.drained_of_empty hexit hresp hdata hqueue)
  · simp only [not_forall] at hqueue
    obtain ⟨b, F, hF, hq⟩ := hqueue
    obtain ⟨s', hs, hlt⟩ := h.exists_drainReq hresp hF hq
    exact .inr ⟨.drainReq, s', [], trivial, by simp [burstFunnel, hs], hlt⟩

/-- Steps that only bring elements on are allowed, and add no call and no element. -/
lemma Action.Drains.quiet (len : Fin k → BitVec 8) {a : Action k w} (ha : a.Drains)
    (hs : (burstFunnel k w).step s a = some (s', es)) :
    FixedLen len s a ∧ calls es = [] ∧ entries es = [] := by
  cases a with
  | loadIdx i | setBurstLen i v | enq i v => cases ha
  | moveData n | drainFunnel | drainReq | drainResp =>
    simp only [burstFunnel, bind, pure, Option.bind_eq_some_iff, Option.some.injEq, Prod.mk.injEq] at hs
    obtain ⟨_, -, -, rfl⟩ := hs
    exact ⟨trivial, rfl, rfl⟩
  | deq =>
    simp only [burstFunnel, bind, pure, Option.bind_eq_some_iff, Prod.exists, Option.some.injEq,
      Prod.mk.injEq] at hs
    obtain ⟨i, v, s₁, -, -, rfl⟩ := hs
    exact ⟨trivial, rfl, rfl⟩

/-- **All that has entered can come out**, without any further call or element. -/
theorem Carries.exists_drained (hlen : ∀ i, 1 ≤ (len i).toNat ∧ (len i).toNat ≤ 16)
    (h : Carries (logOf len tr) s V) :
    ∃ tr' s', ((burstFunnel k w).guard (FixedLen len)).Reaches s tr' s' ∧
      BurstFunnel.calls tr' = [] ∧ BurstFunnel.entries tr' = [] ∧ Drained (logOf len (tr ++ tr')) s' := by
  have hprogress : ∀ t s, ((∃ V, Carries (logOf len t) s V) ∧
      BurstFunnel.calls t = BurstFunnel.calls tr ∧ BurstFunnel.entries t = BurstFunnel.entries tr) →
      Drained (logOf len t) s ∨ ∃ a s' es,
        ((burstFunnel k w).guard (FixedLen len)).step s a = some (s', es) ∧
          ((∃ V, Carries (logOf len (t ++ es)) s' V) ∧
            BurstFunnel.calls (t ++ es) = BurstFunnel.calls tr ∧
            BurstFunnel.entries (t ++ es) = BurstFunnel.entries tr) ∧ s'.load < s.load := by
    rintro t s ⟨⟨V, h⟩, hcalls, hentries⟩
    rcases h.exists_step with hdone | ⟨a, s', es, ha, hs, hlt⟩
    · exact .inl hdone
    · obtain ⟨hfix, hc, he⟩ := ha.quiet len hs
      refine .inr ⟨a, s', es, RuleSystem.guard_step.mpr ⟨hfix, hs⟩, ⟨h.step hlen hfix hs, ?_, ?_⟩, hlt⟩
      · rw [calls_append, hc, List.append_nil, hcalls]
      · rw [entries_append, he, List.append_nil, hentries]
  obtain ⟨tr', s', hreach, ⟨-, hcalls, hentries⟩, hdone⟩ := RuleSystem.exists_reaches
    (I := fun t s => (∃ V, Carries (logOf len t) s V) ∧ BurstFunnel.calls t = BurstFunnel.calls tr ∧
      BurstFunnel.entries t = BurstFunnel.entries tr)
    (fun _ s => s.load) hprogress ⟨⟨V, h⟩, rfl, rfl⟩
  rw [calls_append] at hcalls
  rw [entries_append] at hentries
  exact ⟨tr', s', hreach, by simpa using hcalls, by simpa using hentries, hdone⟩

/-- Names are not mixed up: `q` are the queues in the block RAM, none longer than its window, and when the
first element of a burst enters, no element with the name of the burst is in the funnel or the block
RAM. -/
structure NamesApart (s : BurstFunnel k w) (q : Fin 4 → List (BitVec w × Bool)) : Prop where
  holds : s.complBuff.Holds q
  length : ∀ ν, (q ν).length = (s.compCnts ν).toNat
  length_le : ∀ ν, (q ν).length ≤ 16
  fresh : ∀ i ν v s', s.loadIdxs.first = some (i, ν) → s.injCtrl = 0 → s.enq i v = some s' →
    q ν = [] ∧ s.dataIn.Everywhere fun _ x => x.1 ≠ ν

/-- The queues are those of the bursts in flight. -/
lemma Carries.namesApart (h : Carries L s V) : NamesApart s V.queue where
  holds := h.holds
  length ν := (h.compCnts_toNat ν).1.symm
  length_le ν := (h.compCnts_toNat ν).2
  fresh := by
    intro i ν v s' hfirst h0 hs
    simp only [BurstFunnel.enq, hfirst, bind, Option.bind_some, if_true, Option.bind_eq_some_iff] at hs
    obtain ⟨q, hq, -⟩ := hs
    simp only [Fifo.enqIf, h0, decide_true, if_true] at hq
    obtain ⟨es, hload⟩ := Fifo.first_eq_some.mp hfirst
    obtain ⟨hfresh, -, -⟩ := h.begin h0 hload hq
    refine ⟨h.transit.unnamed ν hfresh, fun n x hx hν => ?_⟩
    obtain ⟨b, hb, hname⟩ := h.transit.named n x hx
    exact hfresh b hb (hname.trans hν)

end BurstFunnel

open BurstFunnel

/-- **The burst funnel deals out its data.** For every run with fixed lengths of bursts between 1 and 16:
what has come out is a beginning of what the calls of `loadIdx` deal out of the data that has entered, a
burst for each call; names are not mixed up; and all the rest of it can come out without any further call
or element, after which the next element can enter.

**Proof sketch.** The names of the bursts in flight are different, as there are at most four of them and
names are given in turn (`Carries.nodup`). So the elements with a name are those of one burst; they
entered at one input, and the funnel does not change their order. Bursts leave in the order of the
calls, with the label of their input, since the mark on the last element of a burst is where the count of
the output side comes to 0. -/
theorem burstFunnel_deals {k w : ℕ} (len : Fin k → BitVec 8)
    (hlen : ∀ i, 1 ≤ (len i).toNat ∧ (len i).toNat ≤ 16)
    (buff : BitVec (buffAddrSz 4 16) → BitVec w × Bool) {tr : List (BurstFunnel.Event k w)}
    {s : BurstFunnel k w}
    (h : ((burstFunnel k w).guard (FixedLen len)).Reaches (reset k w buff) tr s) :
    outputs tr <+: deal (enteredAt tr) (callsWith len tr) ∧
      (∃ q, NamesApart s q) ∧
      ∃ tr' s', ((burstFunnel k w).guard (FixedLen len)).Reaches s tr' s' ∧
        calls tr' = [] ∧ entries tr' = [] ∧
        outputs (tr ++ tr') = deal (enteredAt tr) (callsWith len tr) ∧
        ∀ e es, s'.loadIdxs.items = e :: es → ∀ v, ∃ s'', s'.enq e.1 v = some s'' := by
  obtain ⟨V, hV⟩ := exists_carries hlen h
  have hdeal : deal (enteredAt tr) (callsWith len tr) = entries tr := hV.deal_entered
  refine ⟨?_, ⟨V.queue, hV.namesApart⟩, ?_⟩
  · rw [hdeal]
    exact hV.left_prefix_entered
  · obtain ⟨tr', s', hreach, hcalls, hentries, hall, hready⟩ := hV.exists_drained hlen
    refine ⟨tr', s', hreach, hcalls, hentries, ?_, hready⟩
    have hout : outputs (tr ++ tr') = entries (tr ++ tr') := hall
    rw [hout, hdeal, entries_append, hentries, List.append_nil]

/-- Two inputs with bursts of two elements and of one; the element of input 1 overtakes the second of
input 0 in the funnel. -/
def overtakingBursts :=
  ((burstFunnel 2 8).guard (FixedLen ![2, 1])).run (reset 2 8 fun _ => (0, false))
    [.setBurstLen 0 2, .setBurstLen 1 1, .loadIdx 0, .loadIdx 1, .loadIdx 0, .enq 0 5, .moveData (1, 0),
      .enq 0 6, .enq 1 7, .moveData (1, 1), .drainFunnel, .drainFunnel, .moveData (1, 0), .drainReq,
      .drainResp, .deq, .enq 0 8]

/-- The first element has come out, and the others follow in the order of the calls. -/
theorem burstFunnel_deals_overtakingBursts :
    outputs overtakingBursts.2 = [(0, 5)] ∧
      deal (enteredAt overtakingBursts.2) (callsWith ![2, 1] overtakingBursts.2) =
        [(0, 5), (0, 6), (1, 7), (0, 8)] ∧
      outputs overtakingBursts.2 <+:
        deal (enteredAt overtakingBursts.2) (callsWith ![2, 1] overtakingBursts.2) ∧
      ∃ q, NamesApart overtakingBursts.1 q := by
  have hreach : ((burstFunnel 2 8).guard (FixedLen ![2, 1])).Reaches (reset 2 8 fun _ => (0, false))
      overtakingBursts.2 overtakingBursts.1 := RuleSystem.reaches_run _ _
  have h := burstFunnel_deals ![2, 1] (by decide) _ hreach
  exact ⟨by decide +kernel, by decide +kernel, h.1, h.2.1⟩

end Xbsv
