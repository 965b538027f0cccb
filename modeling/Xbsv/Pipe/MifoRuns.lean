import Mathlib.Data.Nat.Prime.Basic
import Xbsv.Pcie.Mifo
import Xbsv.Rules.Drain

set_option relaxedAutoImplicit false
set_option autoImplicit false

/-!
# Runs of a queue of vectors

What `mkMIFO` does with any sequence of calls. For a number of lanes that is a power of two it is a queue. Otherwise its
positions may go wrong: the sum of a position and a count has the width of a count, which holds `maxIn` but not always
the sum, and it is only reduced modulo `maxIn` after it was cut down to that width.

## Main definitions

* `Xbsv.mifo` — the calls of the methods and the firings of the rule.
* `Xbsv.Mifo.InOrder` — what a queue should give out.
* `Xbsv.Mifo.Placed` — what the positions should be.

## Main results

* `Xbsv.Mifo.inOrder_of_counts` — for a power of two the module is a queue, and everything comes out of it.
* `Xbsv.Mifo.advance_eq_iff` — when the sum of a position and a count is right.
* `Xbsv.Mifo.placed_of_fits` — the positions are right as long as the sums fit.
-/

namespace Xbsv

open Rules

namespace Mifo

/-- The calls of the methods, and the firing of the rule. A vector is looked at when it is taken. -/
inductive Action (maxIn : ℕ) (α : Type)
  | enq (count : LUInt maxIn) (data : Fin maxIn → α)
  | tofifos
  | deq

/-- Some elements of a vector come in, and a vector goes out. -/
inductive Event (maxIn : ℕ) (α : Type)
  | entered (count : LUInt maxIn) (data : Fin maxIn → α)
  | returned (v : List α)

variable {maxIn : ℕ} {α : Type} [NeZero maxIn]

def step (nOut : ℕ) (m : Mifo maxIn α) : Action maxIn α → Option (Mifo maxIn α × List (Event maxIn α))
  | .enq count data => (m.enq count data).map fun m' => (m', [.entered count data])
  | .tofifos => m.tofifos.map fun m' => (m', [])
  | .deq => do
    let v ← m.first nOut
    let m' ← m.deq nOut
    return (m', [.returned v])

end Mifo

/-- The module, with calls at any times. -/
def mifo (maxIn nOut : ℕ) (α : Type) [NeZero maxIn] :
    RuleSystem (Mifo maxIn α) (Mifo.Action maxIn α) (Mifo.Event maxIn α) where
  step m a := m.step nOut a

namespace Mifo

variable {maxIn nOut : ℕ} {α : Type}

/-! ## What should be given out -/

/-- The elements that came in. -/
def entered (tr : List (Event maxIn α)) : List α :=
  tr.flatMap fun
    | .entered count data => taken count data
    | .returned _ => []

/-- The vectors that went out. -/
def returned (tr : List (Event maxIn α)) : List (List α) :=
  tr.filterMap fun
    | .entered _ _ => none
    | .returned v => some v

/-- **What a queue gives out**: the elements that came in, `nOut` at a time. -/
structure InOrder (nOut : ℕ) (tr : List (Event maxIn α)) : Prop where
  delivered : (returned tr).flatten <+: entered tr
  length_eq : ∀ v ∈ returned tr, v.length = nOut

section Traces

variable (tr es : List (Event maxIn α)) (count : LUInt maxIn) (data : Fin maxIn → α) (v : List α)

@[simp] lemma entered_append : entered (tr ++ es) = entered tr ++ entered es := List.flatMap_append

@[simp] lemma entered_entered : entered [.entered count data] = taken count data := List.append_nil _

@[simp] lemma entered_returned : entered ([.returned v] : List (Event maxIn α)) = [] := rfl

@[simp] lemma returned_append : returned (tr ++ es) = returned tr ++ returned es := List.filterMap_append

@[simp] lemma returned_entered : returned [.entered count data] = [] := rfl

@[simp] lemma returned_returned : returned ([.returned v] : List (Event maxIn α)) = [v] := rfl

end Traces

/-! ## Runs for powers of two -/

variable [NeZero maxIn] {tr es : List (Event maxIn α)} {m m' : Mifo maxIn α}

/-- A count is not larger than the vector. -/
def Counts (_ : Mifo maxIn α) : Action maxIn α → Prop
  | .enq count _ => count.toNat ≤ maxIn
  | _ => True

instance (m : Mifo maxIn α) (a : Action maxIn α) : Decidable (Counts m a) :=
  match a with
  | .enq count _ => inferInstanceAs (Decidable (count.toNat ≤ maxIn))
  | .tofifos | .deq => isTrue trivial

/-- The module holds what came in and did not go out yet. -/
structure Tracks (nOut : ℕ) (tr : List (Event maxIn α)) (m : Mifo maxIn α) : Prop where
  holds : ∃ xs, m.Holds xs ∧ (returned tr).flatten ++ xs = entered tr
  length_eq : ∀ v ∈ returned tr, v.length = nOut

/-- Elements are taken from the front. -/
lemma Tracks.deq (h : Tracks nOut tr m) (hpow : ∃ k, maxIn = 2 ^ k) (hout : nOut ≤ maxIn) (hready : m.deqReady nOut = true) :
    ∃ v m', m.first nOut = some v ∧ m.deq nOut = some m' ∧ v.length = nOut ∧
      Tracks nOut (tr ++ [Event.returned v]) m' := by
  obtain ⟨xs, hxs, hflat⟩ := h.holds
  obtain ⟨hle, hfirst, m', hdeq, hholds⟩ := hxs.first_deq hpow hout hready
  have hlen : (xs.take nOut).length = nOut := by
    rw [List.length_take]
    omega
  refine ⟨_, m', hfirst, hdeq, hlen, ⟨_, hholds, ?_⟩, fun v hv => ?_⟩
  · rw [returned_append, returned_returned, entered_append, entered_returned, List.append_nil, List.flatten_append,
      List.flatten_singleton, List.append_assoc, List.take_append_drop, hflat]
  · rw [returned_append, returned_returned, List.mem_append, List.mem_singleton] at hv
    rcases hv with hv | rfl
    · exact h.length_eq v hv
    · exact hlen

/-- What a step does. -/
lemma Tracks.step (h : Tracks nOut tr m) (hpow : ∃ k, maxIn = 2 ^ k) (hout : nOut ≤ maxIn) {a : Action maxIn α}
    (ha : Counts m a) (hs : m.step nOut a = some (m', es)) : Tracks nOut (tr ++ es) m' := by
  cases a with
  | enq count data =>
    simp only [Mifo.step, Option.map_eq_some_iff, Prod.mk.injEq] at hs
    obtain ⟨m₁, henq, rfl, rfl⟩ := hs
    obtain ⟨xs, hxs, hflat⟩ := h.holds
    refine ⟨⟨_, hxs.enq hpow ha henq, ?_⟩, ?_⟩
    · rw [returned_append, returned_entered, List.append_nil, entered_append, entered_entered, ← hflat, List.append_assoc]
    · simpa using h.length_eq
  | tofifos =>
    simp only [Mifo.step, Option.map_eq_some_iff, Prod.mk.injEq] at hs
    obtain ⟨m₁, hto, rfl, rfl⟩ := hs
    obtain ⟨xs, hxs, hflat⟩ := h.holds
    rw [List.append_nil]
    exact ⟨⟨xs, hxs.tofifos hpow hto, hflat⟩, h.length_eq⟩
  | deq =>
    simp only [Mifo.step, bind, pure, Option.bind_eq_some_iff, Option.some.injEq, Prod.mk.injEq] at hs
    obtain ⟨v, hfirst, m₁, hdeq, rfl, rfl⟩ := hs
    have hready : m.deqReady nOut = true := by
      unfold Mifo.deq at hdeq
      split at hdeq
      · assumption
      · cases hdeq
    obtain ⟨v', m₂, hfirst', hdeq', -, htracks⟩ := h.deq hpow hout hready
    obtain rfl := Option.some.inj (hfirst.symm.trans hfirst')
    obtain rfl := Option.some.inj (hdeq.symm.trans hdeq')
    exact htracks

/-- What came in is given out in order. -/
lemma Tracks.inOrder (h : Tracks nOut tr m) : InOrder nOut tr := by
  obtain ⟨xs, -, hflat⟩ := h.holds
  exact ⟨⟨xs, hflat⟩, h.length_eq⟩

/-- In every run. -/
lemma tracks_of_counts (hpow : ∃ k, maxIn = 2 ^ k) (hout : nOut ≤ maxIn)
    (h : ((mifo maxIn nOut α).guard Counts).Reaches (.reset maxIn α) tr m) : Tracks nOut tr m := by
  refine h.invariant ⟨⟨[], .reset, rfl⟩, by simp [returned]⟩ fun {tr m a m' es} htr hs => ?_
  obtain ⟨ha, hs⟩ := RuleSystem.guard_step.mp hs
  exact htr.step hpow hout ha hs

/-- The vectors that wait, and the elements that did not go out yet. -/
def backlog (tr : List (Event maxIn α)) (m : Mifo maxIn α) : ℕ :=
  m.inFifo.items.length + ((entered tr).length - (returned tr).flatten.length)

/-- The steps that take nothing in can go on until there are not enough elements for a vector. -/
lemma Tracks.drain (h : Tracks nOut tr m) (hpow : ∃ k, maxIn = 2 ^ k) (hpos : 0 < nOut) (hout : nOut ≤ maxIn) :
    ∃ tr' m', ((mifo maxIn nOut α).guard Counts).Reaches m tr' m' ∧ entered (tr ++ tr') = entered tr ∧
      (entered tr).length < (returned (tr ++ tr')).flatten.length + nOut := by
  have hdrain := RuleSystem.exists_drained (M := (mifo maxIn nOut α).guard Counts) (I := Tracks nOut)
    (E := fun us _ => (entered tr).length < (returned us).flatten.length + nOut) entered backlog h ?_
  · obtain ⟨tr', m', hreach, -, hent, hdone⟩ := hdrain
    exact ⟨tr', m', hreach, hent, hdone⟩
  intro us m htr hent hdone
  obtain ⟨xs, hxs, hflat⟩ := htr.holds
  have hlen := congrArg List.length hflat
  rw [List.length_append] at hlen
  rcases hxs.settles hpow hout with ⟨m', hto, hless⟩ | hready
  · -- a vector goes to the lanes
    have hcounts : Counts m .tofifos := trivial
    have hstep : (mifo maxIn nOut α).step m .tofifos = some (m', []) := by
      show (m.tofifos.map fun m' => (m', [])) = _
      rw [hto, Option.map_some]
    refine ⟨.tofifos, m', [], RuleSystem.guard_step.mpr ⟨trivial, hstep⟩, htr.step hpow hout hcounts hstep, ?_, ?_⟩
    · rw [List.append_nil]
    · unfold backlog
      rw [List.append_nil]
      omega
  · -- there are enough elements for a vector
    have hready : m.deqReady nOut = true := by
      rcases hready with hin | hready
      · rw [hent] at hlen
        exact hxs.deqReady hpow hout hin (by omega)
      · exact hready
    obtain ⟨v, m', hfirst, hdeq, hv, htr'⟩ := htr.deq hpow hout hready
    have hstep : (mifo maxIn nOut α).step m .deq = some (m', [.returned v]) := by
      simp only [mifo, Mifo.step, hfirst, hdeq, bind, pure, Option.bind_some]
    refine ⟨.deq, m', _, RuleSystem.guard_step.mpr ⟨trivial, hstep⟩, htr', ?_, ?_⟩
    · rw [entered_append, entered_returned, List.append_nil]
    · have hin := inFifo_deq hdeq
      unfold backlog
      rw [entered_append, entered_returned, List.append_nil, returned_append, returned_returned, List.flatten_append,
        List.length_append, List.flatten_singleton, hv, hin]
      rw [hent] at hlen ⊢
      omega

/-- **The module is a queue**, for a number of lanes that is a power of two: vectors of `nOut` elements come out in the
order in which the elements came in, and they can be taken until there are not enough elements left for one more. -/
theorem inOrder_of_counts {maxIn nOut : ℕ} {α : Type} [NeZero maxIn] (hpow : ∃ k, maxIn = 2 ^ k) (hpos : 0 < nOut)
    (hout : nOut ≤ maxIn) {tr : List (Event maxIn α)} {m : Mifo maxIn α}
    (h : ((mifo maxIn nOut α).guard Counts).Reaches (.reset maxIn α) tr m) :
    InOrder nOut tr ∧ ∃ tr' m', ((mifo maxIn nOut α).guard Counts).Reaches m tr' m' ∧ InOrder nOut (tr ++ tr') ∧
      entered (tr ++ tr') = entered tr ∧ (entered tr).length < (returned (tr ++ tr')).flatten.length + nOut := by
  have htr := tracks_of_counts hpow hout h
  obtain ⟨tr', m', hreach, hent, hlen⟩ := htr.drain hpow hpos hout
  exact ⟨htr.inOrder, tr', m', hreach, (tracks_of_counts hpow hout (h.trans hreach)).inOrder, hent, hlen⟩

/-- Two vectors come in, of four elements and of one, and one of three goes out. -/
def fiveIn :=
  ((mifo 4 3 ℕ).guard Counts).run (.reset 4 ℕ) [.enq 4 fun i => 5 + i.val, .enq 1 fun _ => 9, .tofifos, .deq, .tofifos]

theorem inOrder_of_counts_fiveIn : returned fiveIn.2 = [[5, 6, 7]] ∧ entered fiveIn.2 = [5, 6, 7, 8, 9] ∧
    InOrder 3 fiveIn.2 := by
  refine ⟨by decide, by decide, ?_⟩
  exact (inOrder_of_counts ⟨2, rfl⟩ (by decide) (by decide) (RuleSystem.reaches_run _ _)).1

/-! ## Positions -/

/-- The sum of a position and a count fits, or nothing is lost when it is cut down. -/
def SumFits (pos : BitVec (tlog maxIn)) (c : ℕ) : Prop := 2 ^ tlog maxIn = maxIn ∨ pos.toNat + c < 2 ^ tlog (maxIn + 1)

instance (pos : BitVec (tlog maxIn)) (c : ℕ) : Decidable (SumFits pos c) :=
  inferInstanceAs (Decidable (2 ^ tlog maxIn = maxIn ∨ pos.toNat + c < 2 ^ tlog (maxIn + 1)))

omit [NeZero maxIn] in
/-- A count has room for the number of lanes. -/
lemma lt_two_pow_tlog_succ (maxIn : ℕ) : maxIn < 2 ^ tlog (maxIn + 1) := le_two_pow_tlog (maxIn + 1)

omit [NeZero maxIn] in
/-- A position after a count: the sum has the width of a count. -/
lemma toNat_advance {pos : BitVec (tlog maxIn)} (hpos : pos.toNat < maxIn) (c : LUInt maxIn) :
    (((pos.setWidth _ + c) % iMaxIn maxIn).setWidth (tlog maxIn)).toNat =
      (pos.toNat + c.toNat) % 2 ^ tlog (maxIn + 1) % maxIn := by
  have hmax := lt_two_pow_tlog_succ maxIn
  have hpos' := Nat.mod_lt ((pos.toNat + c.toNat) % 2 ^ tlog (maxIn + 1)) (by omega : 0 < maxIn)
  have hwidth := le_two_pow_tlog maxIn
  rw [BitVec.toNat_setWidth, BitVec.toNat_umod, BitVec.toNat_add, BitVec.toNat_setWidth, iMaxIn, BitVec.toNat_ofNat,
    Nat.mod_eq_of_lt hmax, Nat.mod_eq_of_lt (by omega : pos.toNat < 2 ^ tlog (maxIn + 1)), Nat.mod_eq_of_lt (by omega)]

omit [NeZero maxIn] in
/-- Powers of two are the divisors of powers of two. -/
lemma dvd_two_pow_iff : maxIn ∣ 2 ^ tlog (maxIn + 1) ↔ 2 ^ tlog maxIn = maxIn := by
  constructor
  · intro h
    obtain ⟨k, -, rfl⟩ := (Nat.dvd_prime_pow Nat.prime_two).mp h
    rw [tlog_two_pow]
  · intro h
    have hle : 2 ^ tlog maxIn ≤ 2 ^ tlog (maxIn + 1) := by
      have hmax := lt_two_pow_tlog_succ maxIn
      omega
    have hdvd := Nat.pow_dvd_pow 2 ((Nat.pow_le_pow_iff_right (by decide)).mp hle)
    rwa [h] at hdvd

omit [NeZero maxIn] in
/-- **The sum of a position and a count** is right exactly when it fits, or when the number of lanes is a power of two. -/
lemma advance_eq_iff {pos : BitVec (tlog maxIn)} (hpos : pos.toNat < maxIn) (c : LUInt maxIn) :
    (pos.toNat + c.toNat) % 2 ^ tlog (maxIn + 1) % maxIn = (pos.toNat + c.toNat) % maxIn ↔ SumFits pos c.toNat := by
  have hmax := lt_two_pow_tlog_succ maxIn
  have hc := c.isLt
  unfold SumFits
  rcases Nat.lt_or_ge (pos.toNat + c.toNat) (2 ^ tlog (maxIn + 1)) with hlt | hge
  · rw [Nat.mod_eq_of_lt hlt]
    exact ⟨fun _ => .inr hlt, fun _ => rfl⟩
  · -- the sum goes round once
    obtain ⟨r, hr⟩ := Nat.exists_eq_add_of_le hge
    have hround : (2 ^ tlog (maxIn + 1) + r) % 2 ^ tlog (maxIn + 1) = r := by
      rw [Nat.add_mod_left, Nat.mod_eq_of_lt (by omega)]
    rw [hr, hround]
    have hdvd : r % maxIn = (2 ^ tlog (maxIn + 1) + r) % maxIn ↔ maxIn ∣ 2 ^ tlog (maxIn + 1) := by
      have hmod : 0 + r ≡ 2 ^ tlog (maxIn + 1) + r [MOD maxIn] ↔ 0 ≡ 2 ^ tlog (maxIn + 1) [MOD maxIn] :=
        Nat.ModEq.add_iff_right rfl
      rw [Nat.zero_add, Nat.ModEq.comm (a := 0), Nat.modEq_zero_iff_dvd] at hmod
      exact hmod
    rw [hdvd, dvd_two_pow_iff]
    exact ⟨.inl, fun h => h.resolve_right (by omega)⟩

/-- The number of elements that came in. -/
def total (tr : List (Event maxIn α)) : ℕ :=
  (tr.map fun
    | .entered count _ => count.toNat
    | .returned _ => 0).sum

/-- **What the positions should be**: the numbers of elements that came in and that went out, modulo `maxIn`. -/
structure Placed (nOut : ℕ) (tr : List (Event maxIn α)) (m : Mifo maxIn α) : Prop where
  inPos_eq : m.inPos.toNat = total tr % maxIn
  outPos_eq : m.outPos.toNat = nOut * (returned tr).length % maxIn
  inPos_lt : m.inPos.toNat < maxIn
  outPos_lt : m.outPos.toNat < maxIn

/-- The sum that a step computes fits. -/
def Fits (nOut : ℕ) (m : Mifo maxIn α) : Action maxIn α → Prop
  | .enq count _ => SumFits m.inPos count.toNat
  | .deq => SumFits m.outPos nOut
  | .tofifos => True

instance (nOut : ℕ) (m : Mifo maxIn α) (a : Action maxIn α) : Decidable (Fits nOut m a) :=
  match a with
  | .enq count _ => inferInstanceAs (Decidable (SumFits m.inPos count.toNat))
  | .deq => inferInstanceAs (Decidable (SumFits m.outPos nOut))
  | .tofifos => isTrue trivial

omit [NeZero maxIn] in
@[simp] lemma total_append (tr es : List (Event maxIn α)) : total (tr ++ es) = total tr + total es := by
  rw [total, List.map_append, List.sum_append]
  rfl

/-- A position that was right is right after a step exactly when the sum fits. -/
lemma toNat_advance_eq_iff {pos : BitVec (tlog maxIn)} {n : ℕ} (hpos : pos.toNat = n % maxIn) (c : LUInt maxIn) :
    (((pos.setWidth _ + c) % iMaxIn maxIn).setWidth (tlog maxIn)).toNat = (n + c.toNat) % maxIn ↔
      SumFits pos c.toNat := by
  have hlt : pos.toNat < maxIn := by
    rw [hpos]
    exact Nat.mod_lt _ (Nat.pos_of_ne_zero (NeZero.ne maxIn))
  rw [toNat_advance hlt, ← advance_eq_iff hlt, hpos, Nat.mod_add_mod]

omit [NeZero maxIn] in
/-- The rule leaves the positions alone. -/
lemma pos_tofifos (h : m.tofifos = some m') : m'.inPos = m.inPos ∧ m'.outPos = m.outPos := by
  simp only [Mifo.tofifos, bind, pure, Option.bind_eq_some_iff, Prod.exists] at h
  obtain ⟨_, _, -, _, _, -, _, _, -, _, _, -, h⟩ := h
  split at h
  · cases h
    exact ⟨rfl, rfl⟩
  · cases h
    exact ⟨rfl, rfl⟩

/-- A vector that goes out moves the position of the exit. -/
lemma pos_deq (h : m.deq nOut = some m') : m'.inPos = m.inPos ∧
    m'.outPos = (((m.outPos.setWidth _ : LUInt maxIn) + BitVec.ofNat _ nOut) % iMaxIn maxIn).setWidth _ := by
  unfold Mifo.deq at h
  split at h
  · cases h
    exact ⟨rfl, rfl⟩
  · cases h

/-- Positions that are right are below the number of lanes. -/
lemma Placed.of_eq (hin : m.inPos.toNat = total tr % maxIn)
    (hout : m.outPos.toNat = nOut * (returned tr).length % maxIn) : Placed nOut tr m := by
  have hlt (n : ℕ) : n % maxIn < maxIn := Nat.mod_lt n (Nat.pos_of_ne_zero (NeZero.ne maxIn))
  exact ⟨hin, hout, hin ▸ hlt _, hout ▸ hlt _⟩

/-- **What a step does to the positions**: they stay right exactly when the sum fits. -/
lemma Placed.step_iff (h : Placed nOut tr m) (hle : nOut ≤ maxIn) {a : Action maxIn α}
    (hs : m.step nOut a = some (m', es)) : Placed nOut (tr ++ es) m' ↔ Fits nOut m a := by
  cases a with
  | enq count data =>
    simp only [Mifo.step, Option.map_eq_some_iff, Prod.mk.injEq] at hs
    obtain ⟨m₁, henq, rfl, rfl⟩ := hs
    simp only [Mifo.enq, bind, pure, Option.bind_eq_some_iff, Option.some.injEq] at henq
    obtain ⟨_, -, _, -, _, -, _, -, rfl⟩ := henq
    have htotal : total (tr ++ [Event.entered count data]) = total tr + count.toNat := total_append _ _
    have hreturned : returned (tr ++ [Event.entered count data]) = returned tr := by simp
    have hadv := toNat_advance_eq_iff h.inPos_eq count
    refine ⟨fun h' => hadv.mp ?_, fun hfits => .of_eq ?_ ?_⟩
    · rw [← htotal]
      exact h'.inPos_eq
    · rw [htotal]
      exact hadv.mpr hfits
    · rw [hreturned]
      exact h.outPos_eq
  | tofifos =>
    simp only [Mifo.step, Option.map_eq_some_iff, Prod.mk.injEq] at hs
    obtain ⟨m₁, hto, rfl, rfl⟩ := hs
    obtain ⟨hin, hout⟩ := pos_tofifos hto
    refine ⟨fun _ => trivial, fun _ => .of_eq ?_ ?_⟩
    · rw [hin, List.append_nil]
      exact h.inPos_eq
    · rw [hout, List.append_nil]
      exact h.outPos_eq
  | deq =>
    simp only [Mifo.step, bind, pure, Option.bind_eq_some_iff, Option.some.injEq, Prod.mk.injEq] at hs
    obtain ⟨v, -, m₁, hdeq, rfl, rfl⟩ := hs
    obtain ⟨hin, hout⟩ := pos_deq hdeq
    have htotal : total (tr ++ [Event.returned v]) = total tr := total_append _ _
    have hreturned : nOut * (returned (tr ++ [Event.returned v])).length = nOut * (returned tr).length + nOut := by
      rw [returned_append, returned_returned, List.length_append, List.length_singleton, Nat.mul_succ]
    have hnum : (BitVec.ofNat (tlog (maxIn + 1)) nOut).toNat = nOut := by
      have hmax := lt_two_pow_tlog_succ maxIn
      rw [BitVec.toNat_ofNat, Nat.mod_eq_of_lt (by omega)]
    have hadv := toNat_advance_eq_iff h.outPos_eq (BitVec.ofNat _ nOut)
    rw [hnum] at hadv
    refine ⟨fun h' => hadv.mp ?_, fun hfits => .of_eq ?_ ?_⟩
    · rw [← hout, ← hreturned]
      exact h'.outPos_eq
    · rw [hin, htotal]
      exact h.inPos_eq
    · rw [hout, hreturned]
      exact hadv.mpr hfits

/-- **The positions are right** as long as the sums fit: after the steps of any run whose sums all fit, the next step keeps
them right exactly when its sum fits, too. -/
theorem placed_of_fits {maxIn nOut : ℕ} {α : Type} [NeZero maxIn] (hle : nOut ≤ maxIn) {tr : List (Event maxIn α)}
    {m : Mifo maxIn α} (h : ((mifo maxIn nOut α).guard (Fits nOut)).Reaches (.reset maxIn α) tr m) :
    Placed nOut tr m ∧ ∀ a m' es, (mifo maxIn nOut α).step m a = some (m', es) →
      (Placed nOut (tr ++ es) m' ↔ Fits nOut m a) := by
  have hplaced : Placed nOut tr m := by
    refine h.invariant ?_ fun {tr m a m' es} hm hs => ?_
    · refine .of_eq ?_ ?_ <;> simp [Mifo.reset, total, returned]
    · obtain ⟨hfits, hs⟩ := RuleSystem.guard_step.mp hs
      exact (hm.step_iff hle hs).mpr hfits
  exact ⟨hplaced, fun a m' es hs => hplaced.step_iff hle hs⟩

/-- Six lanes: five elements come in, and two more. -/
def sevenIn := ((mifo 6 2 ℕ).guard (Fits 2)).run (.reset 6 ℕ) [.enq 5 fun i => i, .tofifos, .enq 2 fun i => i, .deq]

theorem placed_of_fits_sevenIn : total sevenIn.2 = 7 ∧ sevenIn.1.inPos = 1 ∧ Placed 2 sevenIn.2 sevenIn.1 := by
  refine ⟨by decide, by decide, ?_⟩
  exact (placed_of_fits (by decide) (RuleSystem.reaches_run _ _)).1

/-- Six lanes: five elements come in, and three more. -/
def eightIn := (mifo 6 2 ℕ).run (.reset 6 ℕ) [.enq 5 fun i => i, .enq 3 fun i => i]

/-- The sum of the position 5 and the count 3 is 0 in the three bits of a count. -/
theorem not_placed_eightIn : (mifo 6 2 ℕ).Reaches (.reset 6 ℕ) eightIn.2 eightIn.1 ∧ total eightIn.2 = 8 ∧
    eightIn.1.inPos = 0 ∧ ¬Placed 2 eightIn.2 eightIn.1 := by
  refine ⟨RuleSystem.reaches_run _ _, by decide, by decide, fun h => ?_⟩
  have hpos : eightIn.1.inPos.toNat = 0 := by decide
  have htotal : total eightIn.2 = 8 := by decide
  have heq := h.inPos_eq
  rw [hpos, htotal] at heq
  exact absurd heq (by decide)

end Mifo

end Xbsv
