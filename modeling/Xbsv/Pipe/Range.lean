import Mathlib.Data.BitVec
import Mathlib.Data.Nat.Init
import Xbsv.Rules.System

set_option relaxedAutoImplicit false
set_option autoImplicit false

/-!
# Ranges of numbers

`mkRangePipeOut` of `Pipe.bsv` counts from a base in steps, up to a limit, for elements of type `UInt#(w)`. It keeps the
largest number that it may deliver, which it computes as the limit less the step. If the step is larger than the limit,
that is a large number, and the pipe delivers numbers of a range that has none.

The register `last` says of a number whether the number after it is the limit, or beyond. So it does not mark the last
number of a range whose length is not a multiple of its step: there the number after the last is below the limit. When
the range is exhausted it stays set.

The register `x` is 1 after reset, which is a number of `w` bits for `0 < w`.

## Main definitions

* `Xbsv.RangePipe`, `Xbsv.rangePipe` — the module, and the systems of its calls.
* `Xbsv.RangeConfig.values` — the numbers of a range.
* `Xbsv.RangePipe.Exact`, `Xbsv.RangePipe.Marked` — what the pipe should deliver, and how it should mark it.

## Main results

* `Xbsv.RangePipe.Tracks.step` — what a call does.
* `Xbsv.RangePipe.exact_of_fits` — the pipe delivers the ranges whose steps are not larger than their limits.
* `Xbsv.RangePipe.marked_iff` — in which states the marks are right.
-/

namespace Xbsv

open Rules

/-! ## The source -/

/-- What `start` is called with. -/
structure RangeConfig (w : ℕ) where
  xbase : BitVec w
  xlimit : BitVec w
  xstep : BitVec w
  deriving DecidableEq

/-- The state of `mkRangePipeOut`; `xlimit` is inclusive. -/
structure RangePipe (w : ℕ) where
  x : BitVec w
  xbase : BitVec w
  xstep : BitVec w
  xlimit : BitVec w
  first : Bool
  last : Bool

namespace RangePipe

variable {w : ℕ}

def reset : RangePipe w := ⟨1, 0, 1, 0, false, false⟩

/-- The calls of the methods `start` and `pipe.deq`. -/
inductive Action (w : ℕ)
  | start (cfg : RangeConfig w)
  | deq

/-- A range is started, and a number is taken from the pipe. -/
inductive Event (w : ℕ)
  | started (cfg : RangeConfig w)
  | delivered (x : BitVec w)
  deriving DecidableEq

variable (s : RangePipe w)

/-- Method `pipe.notEmpty`. -/
def notEmpty : Bool := s.x ≤ s.xlimit

/-- Method `pipe.deq`. -/
def deq : Option (RangePipe w) :=
  if s.x ≤ s.xlimit then
    some { s with x := s.x + s.xstep, first := false, last := s.xlimit ≤ s.x + s.xstep }
  else none

/-- Method `start`. -/
def start (cfg : RangeConfig w) : Option (RangePipe w) :=
  if s.xlimit < s.x then
    some
      { x := cfg.xbase
        xbase := cfg.xbase
        xstep := cfg.xstep
        xlimit := cfg.xlimit - cfg.xstep
        first := true
        last := cfg.xlimit ≤ cfg.xbase + cfg.xstep }
  else none

/-- Method `isFirst`. -/
def isFirst : Bool := s.first

/-- Method `isLast`. -/
def isLast : Bool := s.last

def step : Action w → Option (RangePipe w × List (Event w))
  | .start cfg => (s.start cfg).map fun s' => (s', [.started cfg])
  | .deq => s.deq.map fun s' => (s', [.delivered s.x])

end RangePipe

/-- The pipe, with starts and takes at any times. -/
def rangePipe (w : ℕ) : RuleSystem (RangePipe w) (RangePipe.Action w) (RangePipe.Event w) where
  step s a := s.step a

/-! ## Ranges -/

namespace RangeConfig

variable {w : ℕ} (c : RangeConfig w)

/-- There is a step, and the limit is not below the base. -/
def Proper : Prop := 0 < c.xstep.toNat ∧ c.xbase.toNat ≤ c.xlimit.toNat

instance : Decidable c.Proper := inferInstanceAs (Decidable (_ ∧ _))

/-- A whole step fits below the limit. -/
def Nonempty : Prop := 0 < c.xstep.toNat ∧ c.xbase.toNat + c.xstep.toNat ≤ c.xlimit.toNat

instance : Decidable c.Nonempty := inferInstanceAs (Decidable (_ ∧ _))

/-- The number of whole steps. -/
def count : ℕ := (c.xlimit.toNat - c.xbase.toNat) / c.xstep.toNat

/-- The numbers from which a whole step fits below the limit. -/
def values : List ℕ := (List.range c.count).map fun i => c.xbase.toNat + i * c.xstep.toNat

variable {c}

/-- The steps that fit below the limit. -/
lemma Proper.lt_count_iff (h : c.Proper) {i : ℕ} :
    i < c.count ↔ c.xbase.toNat + (i + 1) * c.xstep.toNat ≤ c.xlimit.toNat := by
  have hle := h.2
  rw [count]
  show i + 1 ≤ _ ↔ _
  rw [Nat.le_div_iff_mul_le h.1]
  omega

lemma Proper.le_count_iff (h : c.Proper) {i : ℕ} :
    i ≤ c.count ↔ c.xbase.toNat + i * c.xstep.toNat ≤ c.xlimit.toNat := by
  have hle := h.2
  rw [count, Nat.le_div_iff_mul_le h.1]
  omega

lemma Nonempty.proper (h : c.Nonempty) : c.Proper := by
  have hle := h.2
  exact ⟨h.1, by omega⟩

lemma Nonempty.count_pos (h : c.Nonempty) : 0 < c.count := by
  rw [h.proper.lt_count_iff]
  have hle := h.2
  omega

/-- The number after the last is the limit if the length of the range is a multiple of its step. -/
lemma Proper.dvd_iff (h : c.Proper) :
    c.xstep.toNat ∣ c.xlimit.toNat - c.xbase.toNat ↔
      c.xbase.toNat + c.count * c.xstep.toNat = c.xlimit.toNat := by
  have hle := h.2
  have hmul := Nat.div_add_mod (c.xlimit.toNat - c.xbase.toNat) c.xstep.toNat
  rw [Nat.dvd_iff_mod_eq_zero, count]
  rw [Nat.mul_comm] at hmul
  omega

lemma length_values : c.values.length = c.count := by
  rw [values, List.length_map, List.length_range]

lemma getElem?_values {i : ℕ} (hi : i < c.count) : c.values[i]? = some (c.xbase.toNat + i * c.xstep.toNat) := by
  rw [values, List.getElem?_map, List.getElem?_range hi, Option.map_some]

end RangeConfig

namespace RangePipe

variable {w : ℕ}

/-! ## What the pipe should deliver -/

/-- The ranges that were started. -/
def starts (tr : List (Event w)) : List (RangeConfig w) :=
  tr.filterMap fun
    | .started cfg => some cfg
    | _ => none

/-- The numbers that were delivered. -/
def delivered (tr : List (Event w)) : List ℕ :=
  tr.filterMap fun
    | .delivered x => some x.toNat
    | _ => none

/-- How many of them are of the last range. -/
def position (tr : List (Event w)) : ℕ :=
  tr.foldl (fun n e => match e with
    | .started _ => 0
    | .delivered _ => n + 1) 0

/-- **What should be delivered**: the numbers of the ranges, in order, and the pipe is empty exactly when there are no
more of them. -/
structure Exact (tr : List (Event w)) (s : RangePipe w) : Prop where
  delivered : delivered tr <+: (starts tr).flatMap RangeConfig.values
  notEmpty : s.notEmpty = false ↔ RangePipe.delivered tr = (starts tr).flatMap RangeConfig.values

/-- **How it should be marked**: `isFirst` is on exactly while the first number of the last range is at the head of the
pipe, and `isLast` exactly while the last one is. -/
structure Marked (tr : List (Event w)) (s : RangePipe w) : Prop where
  isFirst : s.isFirst = true ↔ s.notEmpty = true ∧ ∃ c, (starts tr).getLast? = some c ∧ position tr = 0
  isLast : s.isLast = true ↔ s.notEmpty = true ∧ ∃ c, (starts tr).getLast? = some c ∧ position tr + 1 = c.count

section Traces

variable (tr : List (Event w)) (cfg : RangeConfig w) (x : BitVec w)

@[simp] lemma starts_started : starts (tr ++ [Event.started cfg]) = starts tr ++ [cfg] := List.filterMap_append

@[simp] lemma starts_delivered : starts (tr ++ [Event.delivered x]) = starts tr :=
  List.filterMap_append.trans (List.append_nil _)

@[simp] lemma delivered_started : delivered (tr ++ [Event.started cfg]) = delivered tr :=
  List.filterMap_append.trans (List.append_nil _)

@[simp] lemma delivered_delivered : delivered (tr ++ [Event.delivered x]) = delivered tr ++ [x.toNat] :=
  List.filterMap_append

@[simp] lemma position_started : position (tr ++ [Event.started cfg]) = 0 := by
  rw [position, List.foldl_append]
  rfl

@[simp] lemma position_delivered : position (tr ++ [Event.delivered x]) = position tr + 1 := by
  rw [position, List.foldl_append]
  rfl

end Traces

/-! ## The invariant -/

/-- `i` numbers of a range have been delivered. -/
structure Emits (c : RangeConfig w) (i : ℕ) (s : RangePipe w) : Prop where
  x : s.x.toNat = c.xbase.toNat + i * c.xstep.toNat
  xstep : s.xstep = c.xstep
  xlimit : s.xlimit.toNat + c.xstep.toNat = c.xlimit.toNat
  le_count : i ≤ c.count
  first : s.first = decide (i = 0)
  last : c.Nonempty → s.last = decide (c.xlimit.toNat ≤ c.xbase.toNat + (i + 1) * c.xstep.toNat)

variable {c : RangeConfig w} {i : ℕ} {s s' : RangePipe w} {tr es : List (Event w)}

/-- The pipe is not empty while there are numbers left. -/
lemma Emits.le_iff (h : s.Emits c i) (hc : c.Proper) : s.x ≤ s.xlimit ↔ i < c.count := by
  have hlimit := h.xlimit
  rw [BitVec.le_def, h.x, hc.lt_count_iff, Nat.succ_mul]
  omega

lemma Emits.notEmpty_iff (h : s.Emits c i) (hc : c.Proper) : s.notEmpty = true ↔ i < c.count := by
  rw [notEmpty, decide_eq_true_iff, h.le_iff hc]

/-- A range is started whose step is not larger than its limit. -/
lemma emits_start (hs : s.start c = some s') (hle : c.xstep ≤ c.xlimit) : s'.Emits c 0 := by
  rw [start] at hs
  split at hs
  case isFalse => cases hs
  case isTrue hempty =>
    cases hs
    have hsub : (c.xlimit - c.xstep).toNat = c.xlimit.toNat - c.xstep.toNat := BitVec.toNat_sub_of_le hle
    rw [BitVec.le_def] at hle
    refine ⟨?_, rfl, ?_, Nat.zero_le _, rfl, fun hne => ?_⟩
    · rw [Nat.zero_mul, Nat.add_zero]
    · show (c.xlimit - c.xstep).toNat + _ = _
      omega
    · have hlimit := c.xlimit.isLt
      have hsum := hne.2
      show decide (c.xlimit ≤ c.xbase + c.xstep) = _
      rw [decide_eq_decide, BitVec.le_def, BitVec.toNat_add, Nat.mod_eq_of_lt (by omega), Nat.zero_add, Nat.one_mul]

/-- The next number is taken. -/
lemma Emits.deq (h : s.Emits c i) (hc : c.Proper) (hs : s.deq = some s') : i < c.count ∧ s'.Emits c (i + 1) := by
  rw [RangePipe.deq] at hs
  split at hs
  case isFalse => cases hs
  case isTrue hle =>
    cases hs
    have hlt := (h.le_iff hc).mp hle
    have hnext := hc.lt_count_iff.mp hlt
    have hlimit := c.xlimit.isLt
    have hmul : (i + 1) * c.xstep.toNat = i * c.xstep.toNat + c.xstep.toNat := Nat.succ_mul _ _
    have hmul' : (i + 1 + 1) * c.xstep.toNat = (i + 1) * c.xstep.toNat + c.xstep.toNat := Nat.succ_mul _ _
    -- The next number is not above the limit, so that the sum does not wrap around.
    have hsum : (s.x + s.xstep).toNat = c.xbase.toNat + (i + 1) * c.xstep.toNat := by
      rw [BitVec.toNat_add, h.x, h.xstep, Nat.mod_eq_of_lt (by omega)]
      omega
    refine ⟨hlt, hsum, h.xstep, h.xlimit, hlt, ?_, fun _ => ?_⟩
    · exact (decide_eq_false (Nat.succ_ne_zero i)).symm
    · have hxlimit := h.xlimit
      show decide (s.xlimit ≤ s.x + s.xstep) = _
      rw [decide_eq_decide, BitVec.le_def, hsum]
      omega

/-- **The invariant**: the ranges before the last have been delivered, and some numbers of the last. -/
inductive Tracks (tr : List (Event w)) (s : RangePipe w) : Prop
  | fresh (hs : s = .reset) (hstarts : starts tr = []) (hdelivered : delivered tr = [])
  | emits (past : List (RangeConfig w)) (c : RangeConfig w) (i : ℕ) (hc : c.Proper) (hs : s.Emits c i)
    (hstarts : starts tr = past ++ [c])
    (hdelivered : delivered tr = past.flatMap RangeConfig.values ++ c.values.take i) (hposition : position tr = i)

/-- There is nothing in the pipe after reset. -/
lemma lt_reset (hw : 0 < w) : (reset : RangePipe w).xlimit < (reset : RangePipe w).x := by
  have hone : (1 : BitVec w).toNat = 1 := BitVec.toNat_one hw
  rw [BitVec.lt_def]
  show (0 : BitVec w).toNat < (1 : BitVec w).toNat
  have hzero : (0 : BitVec w).toNat = 0 := BitVec.toNat_zero
  omega

lemma notEmpty_reset (hw : 0 < w) : (reset : RangePipe w).notEmpty = false :=
  decide_eq_false (BitVec.not_le.mpr (lt_reset hw))

/-- A range can be started when the one before has been delivered. -/
lemma Tracks.of_empty (h : Tracks tr s) (hempty : s.xlimit < s.x) :
    delivered tr = (starts tr).flatMap RangeConfig.values := by
  cases h with
  | fresh hs hstarts hdelivered => rw [hstarts, hdelivered, List.flatMap_nil]
  | emits past c i hc hs hstarts hdelivered hposition =>
    have hge : c.count ≤ i := by
      by_contra hlt
      exact BitVec.not_le.mpr hempty ((hs.le_iff hc).mpr (by omega))
    rw [hdelivered, hstarts, List.flatMap_append, List.flatMap_singleton, List.take_of_length_le]
    rw [RangeConfig.length_values]
    exact hge

/-- **The calls keep the invariant.** -/
theorem Tracks.step (hw : 0 < w) (h : Tracks tr s) {a : Action w}
    (ha : ∀ cfg, a = .start cfg → cfg.Proper ∧ cfg.xstep ≤ cfg.xlimit)
    (hstep : (rangePipe w).step s a = some (s', es)) : Tracks (tr ++ es) s' := by
  cases a with
  | start cfg =>
    obtain ⟨t, hs, heq⟩ := Option.map_eq_some_iff.mp hstep
    cases heq
    obtain ⟨hproper, hle⟩ := ha cfg rfl
    have hempty : s.xlimit < s.x := by
      by_contra hlt
      cases (if_neg hlt).symm.trans hs
    refine .emits (starts tr) cfg 0 hproper (emits_start hs hle) (starts_started tr cfg) ?_ ?_
    · rw [delivered_started, List.take_zero, List.append_nil]
      exact h.of_empty hempty
    · exact position_started tr cfg
  | deq =>
    obtain ⟨t, hs, heq⟩ := Option.map_eq_some_iff.mp hstep
    cases heq
    cases h with
    | fresh hreset hstarts hdelivered =>
      subst hreset
      cases (if_neg (BitVec.not_le.mpr (lt_reset hw))).symm.trans hs
    | emits past c i hc hemits hstarts hdelivered hposition =>
      obtain ⟨hlt, hnext⟩ := hemits.deq hc hs
      refine .emits past c (i + 1) hc hnext ?_ ?_ ?_
      · rw [starts_delivered, hstarts]
      · rw [delivered_delivered, hdelivered, hemits.x, List.append_assoc, List.take_add_one,
          RangeConfig.getElem?_values hlt]
        rfl
      · rw [position_delivered, hposition]

/-! ## The runs -/

/-- The condition on a start: the numbers are those of a range. -/
def Ranges (_ : RangePipe w) : Action w → Prop
  | .start cfg => cfg.Proper
  | .deq => True

instance (s : RangePipe w) : ∀ a, Decidable (s.Ranges a)
  | .start cfg => inferInstanceAs (Decidable cfg.Proper)
  | .deq => inferInstanceAs (Decidable True)

/-- The step is not larger than the limit. -/
def Fits (_ : RangePipe w) : Action w → Prop
  | .start cfg => cfg.xstep ≤ cfg.xlimit
  | .deq => True

instance (s : RangePipe w) : ∀ a, Decidable (s.Fits a)
  | .start cfg => inferInstanceAs (Decidable (cfg.xstep ≤ cfg.xlimit))
  | .deq => inferInstanceAs (Decidable True)

/-- The ranges are not empty. -/
def Fills (_ : RangePipe w) : Action w → Prop
  | .start cfg => cfg.Nonempty
  | .deq => True

instance (s : RangePipe w) : ∀ a, Decidable (s.Fills a)
  | .start cfg => inferInstanceAs (Decidable cfg.Nonempty)
  | .deq => inferInstanceAs (Decidable True)

lemma tracks_of_reaches (hw : 0 < w) (h : (((rangePipe w).guard Ranges).guard Fits).Reaches .reset tr s) :
    Tracks tr s := by
  refine h.invariant (I := Tracks) (.fresh rfl rfl rfl) fun {tr s a s' es} hs hstep => ?_
  obtain ⟨hfits, hstep⟩ := RuleSystem.guard_step.mp hstep
  obtain ⟨hranges, hstep⟩ := RuleSystem.guard_step.mp hstep
  refine hs.step hw (fun cfg ha => ?_) hstep
  subst ha
  exact ⟨hranges, hfits⟩

lemma Tracks.exact (hw : 0 < w) (h : Tracks tr s) : Exact tr s := by
  cases h with
  | fresh hs hstarts hdelivered =>
    subst hs
    constructor
    · rw [hdelivered]
      exact List.nil_prefix
    · rw [hstarts, hdelivered]
      exact iff_of_true (notEmpty_reset hw) rfl
  | emits past c i hc hs hstarts hdelivered hposition =>
    constructor
    · rw [hstarts, hdelivered, List.flatMap_append, List.flatMap_singleton]
      exact (List.prefix_append_right_inj _).mpr (List.take_prefix _ _)
    · rw [← Bool.not_eq_true, hs.notEmpty_iff hc, hstarts, hdelivered, List.flatMap_append, List.flatMap_singleton,
        List.append_right_inj, List.take_eq_self_iff, RangeConfig.length_values]
      omega

/-- **The pipe delivers exactly the ranges**, as long as no step is larger than its limit; and the first start with
such a step puts numbers into the pipe that are not of its range. -/
theorem exact_of_fits {w : ℕ} (hw : 0 < w) {tr : List (Event w)} {s : RangePipe w}
    (h : (((rangePipe w).guard Ranges).guard Fits).Reaches .reset tr s) :
    Exact tr s ∧ ∀ cfg s' es, ((rangePipe w).guard Ranges).step s (.start cfg) = some (s', es) →
      (Exact (tr ++ es) s' ↔ cfg.xstep ≤ cfg.xlimit) := by
  have htracks := tracks_of_reaches hw h
  refine ⟨htracks.exact hw, fun cfg s' es hstep => ?_⟩
  obtain ⟨hproper, hstep⟩ := RuleSystem.guard_step.mp hstep
  have hproper : cfg.Proper := hproper
  constructor
  · intro hexact
    obtain ⟨t, hs, heq⟩ := Option.map_eq_some_iff.mp hstep
    cases heq
    rw [start] at hs
    split at hs
    case isFalse => cases hs
    case isTrue hempty =>
      cases hs
      by_contra hlt
      rw [BitVec.le_def] at hlt
      have hstepLt := cfg.xstep.isLt
      have hle := hproper.2
      have hnone : cfg.count = 0 := Nat.div_eq_of_lt (by omega)
      have hall : delivered (tr ++ [Event.started cfg]) =
          (starts (tr ++ [Event.started cfg])).flatMap RangeConfig.values := by
        rw [delivered_started, starts_started, List.flatMap_append, List.flatMap_singleton, RangeConfig.values, hnone,
          htracks.of_empty hempty]
        exact (List.append_nil _).symm
      refine Bool.false_ne_true ((hexact.notEmpty.mpr hall).symm.trans (decide_eq_true ?_))
      rw [BitVec.le_def, BitVec.toNat_sub]
      show cfg.xbase.toNat ≤ _
      rw [Nat.mod_eq_of_lt (by omega)]
      omega
  · intro hle
    refine (htracks.step hw (fun c hc => ?_) hstep).exact hw
    cases hc
    exact ⟨hproper, hle⟩

/-- Three ranges: one whose steps do not divide its length, one without numbers, and one number. -/
def threeRanges :=
  (((rangePipe 8).guard Ranges).guard Fits).run .reset
    [.start ⟨250, 255, 2⟩, .deq, .deq, .start ⟨3, 3, 1⟩, .start ⟨3, 4, 1⟩, .deq]

theorem exact_of_fits_threeRanges :
    starts threeRanges.2 = [⟨250, 255, 2⟩, ⟨3, 3, 1⟩, ⟨3, 4, 1⟩] ∧ Exact threeRanges.2 threeRanges.1 := by
  have hreaches := RuleSystem.reaches_run (M := ((rangePipe 8).guard Ranges).guard Fits) .reset
    [.start ⟨250, 255, 2⟩, .deq, .deq, .start ⟨3, 3, 1⟩, .start ⟨3, 4, 1⟩, .deq]
  exact ⟨by decide, (exact_of_fits (by decide) hreaches).1⟩

/-- An empty range whose step is larger than its limit. -/
def underflow := ((rangePipe 8).guard Ranges).run .reset [.start ⟨0, 0, 1⟩, .deq]

/-- A number is delivered, and there are more. -/
theorem not_exact_underflow :
    ((rangePipe 8).guard Ranges).Reaches .reset underflow.2 underflow.1 ∧ starts underflow.2 = [⟨0, 0, 1⟩] ∧
      (⟨0, 0, 1⟩ : RangeConfig 8).values = [] ∧ delivered underflow.2 = [0] ∧ underflow.1.notEmpty = true ∧
        ¬Exact underflow.2 underflow.1 := by
  refine ⟨RuleSystem.reaches_run _ _, by decide, by decide, by decide, by decide, fun h => ?_⟩
  have hbegin := h.delivered
  revert hbegin
  decide

/-! ## The marks -/

lemma nonempty_of_reaches (h : ((rangePipe w).guard Fills).Reaches .reset tr s) : ∀ c ∈ starts tr, c.Nonempty := by
  refine h.invariant (I := fun tr _ => ∀ c ∈ starts tr, c.Nonempty) (fun c hc => absurd hc List.not_mem_nil)
    fun {tr s a s' es} hs hstep => ?_
  obtain ⟨hfills, hstep⟩ := RuleSystem.guard_step.mp hstep
  cases a with
  | start cfg =>
    obtain ⟨t, -, heq⟩ := Option.map_eq_some_iff.mp hstep
    cases heq
    rw [starts_started]
    intro c hc
    rcases List.mem_append.mp hc with hc | hc
    · exact hs c hc
    · rw [List.mem_singleton.mp hc]
      exact hfills
  | deq =>
    obtain ⟨t, -, heq⟩ := Option.map_eq_some_iff.mp hstep
    cases heq
    rwa [starts_delivered]

lemma tracks_of_fills (hw : 0 < w) (h : ((rangePipe w).guard Fills).Reaches .reset tr s) : Tracks tr s := by
  refine h.invariant (I := Tracks) (.fresh rfl rfl rfl) fun {tr s a s' es} hs hstep => ?_
  obtain ⟨hfills, hstep⟩ := RuleSystem.guard_step.mp hstep
  refine hs.step hw (fun cfg ha => ?_) hstep
  subst ha
  have hfills : cfg.Nonempty := hfills
  have hle := hfills.2
  refine ⟨hfills.proper, ?_⟩
  rw [BitVec.le_def]
  omega

/-- Of the number after which `i` have been delivered. -/
lemma Emits.isLast_iff (h : s.Emits c i) (hc : c.Nonempty) :
    s.isLast = true ↔ i = c.count ∨ i + 1 = c.count ∧ c.xstep.toNat ∣ c.xlimit.toNat - c.xbase.toNat := by
  have hpos := hc.1
  have hle := (hc.proper.le_count_iff (i := i)).mp h.le_count
  have hlt := hc.proper.lt_count_iff (i := i)
  have hlt' := hc.proper.lt_count_iff (i := i + 1)
  have hmul : (i + 1) * c.xstep.toNat = i * c.xstep.toNat + c.xstep.toNat := Nat.succ_mul _ _
  have hmul' : (i + 1 + 1) * c.xstep.toNat = (i + 1) * c.xstep.toNat + c.xstep.toNat := Nat.succ_mul _ _
  have hcount := h.le_count
  rw [isLast, h.last hc, decide_eq_true_iff]
  constructor
  · intro hlimit
    by_cases hend : i = c.count
    · exact .inl hend
    · have hsucc : i + 1 = c.count := by omega
      refine .inr ⟨hsucc, hc.proper.dvd_iff.mpr ?_⟩
      rw [← hsucc]
      omega
  · rintro (hend | ⟨hsucc, hdvd⟩)
    · omega
    · rw [hc.proper.dvd_iff, ← hsucc] at hdvd
      omega

/-- **In which states the marks are right**: before the first range; and while a number is at the head, but for the last
number of a range whose length is not a multiple of its step. -/
theorem marked_iff {w : ℕ} (hw : 0 < w) {tr : List (Event w)} {s : RangePipe w}
    (h : ((rangePipe w).guard Fills).Reaches .reset tr s) :
    Marked tr s ↔ starts tr = [] ∨ s.notEmpty = true ∧ ∃ c, (starts tr).getLast? = some c ∧
      (c.xstep.toNat ∣ c.xlimit.toNat - c.xbase.toNat ∨ position tr + 1 ≠ c.count) := by
  cases tracks_of_fills hw h with
  | fresh hs hstarts hdelivered =>
    subst hs
    have hempty : (reset : RangePipe w).notEmpty ≠ true := Bool.eq_false_iff.mp (notEmpty_reset hw)
    refine iff_of_true ⟨?_, ?_⟩ (.inl hstarts)
    · exact iff_of_false Bool.false_ne_true fun hand => hempty hand.1
    · exact iff_of_false Bool.false_ne_true fun hand => hempty hand.1
  | emits past c i hc hs hstarts hdelivered hposition =>
    have hlast : (starts tr).getLast? = some c := by rw [hstarts, List.getLast?_concat]
    have hne : c.Nonempty := nonempty_of_reaches h c (List.mem_of_getLast? hlast)
    have hcount := hne.count_pos
    have hle := hs.le_count
    have hne' : starts tr ≠ [] := by
      rw [hstarts]
      exact List.concat_ne_nil _ _
    have hfirst : s.isFirst = true ↔ i = 0 := by rw [isFirst, hs.first, decide_eq_true_iff]
    constructor
    · intro hmarked
      have hend := hmarked.isLast
      rw [hs.isLast_iff hne, hs.notEmpty_iff hc, hlast, hposition] at hend
      simp only [Option.some.injEq, exists_eq_left'] at hend
      refine .inr ⟨(hs.notEmpty_iff hc).mpr (by omega), c, hlast, ?_⟩
      by_contra hnot
      rw [hposition] at hnot
      omega
    · rintro (hnil | ⟨hnotEmpty, c', hlast', hdvd⟩)
      · exact absurd hnil hne'
      · obtain rfl : c = c' := Option.some.inj (hlast.symm.trans hlast')
        have hlt := (hs.notEmpty_iff hc).mp hnotEmpty
        rw [hposition] at hdvd
        refine ⟨?_, ?_⟩
        · rw [hfirst, hlast, hposition]
          simp only [hnotEmpty, Option.some.injEq, exists_eq_left', true_and]
        · rw [hs.isLast_iff hne, hlast, hposition]
          simp only [hnotEmpty, Option.some.injEq, exists_eq_left', true_and]
          omega

end RangePipe

end Xbsv
