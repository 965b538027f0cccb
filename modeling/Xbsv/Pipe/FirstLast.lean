import Xbsv.Pipe.Range

set_option relaxedAutoImplicit false
set_option autoImplicit false

/-!
# Flags of first and last elements

`mkFirstLastPipe` of `Pipe.bsv` delivers the flags of `count` elements, for a count of type `UInt#(w)`: whether the
element is the first, and whether it is the last. The flag of the last is set when the element before it is taken. There
is none before a single element, which is not marked.

## Main definitions

* `Xbsv.FirstLastPipe`, `Xbsv.firstLastPipe` — the module, and the system of its calls.
* `Xbsv.FirstLastPipe.Flagged` — how the elements should be marked.

## Main results

* `Xbsv.FirstLastPipe.flagged_iff` — for which counts they are.
* `Xbsv.marked_and_flagged_iff` — the marks of ranges and of counts.
-/

namespace Xbsv

open Rules

/-- The state of `mkFirstLastPipe`. -/
structure FirstLastPipe (w : ℕ) where
  countReg : BitVec w
  firstReg : Bool
  lastReg : Bool

namespace FirstLastPipe

variable {w : ℕ}

def reset : FirstLastPipe w := ⟨0, false, false⟩

/-- The calls of the methods `start` and `pipe.deq`. -/
inductive Action (w : ℕ)
  | start (count : BitVec w)
  | deq

/-- Elements are asked for, and the flags of one are taken from the pipe. -/
inductive Event (w : ℕ)
  | started (count : BitVec w)
  | delivered (first last : Bool)
  deriving DecidableEq

variable (s : FirstLastPipe w)

/-- Method `pipe.notEmpty`. -/
def notEmpty : Bool := 0 < s.countReg

/-- Method `pipe.first`. -/
def first : Bool × Bool := (s.firstReg, s.lastReg)

/-- Method `pipe.deq`. -/
def deq : Option (FirstLastPipe w) :=
  if 0 < s.countReg then
    let c := s.countReg - 1
    some { firstReg := false, lastReg := if c = 1 then true else s.lastReg, countReg := c }
  else none

/-- Method `start`. -/
def start (count : BitVec w) : Option (FirstLastPipe w) :=
  if s.countReg = 0 then some ⟨count, true, false⟩ else none

def step : Action w → Option (FirstLastPipe w × List (Event w))
  | .start count => (s.start count).map fun s' => (s', [.started count])
  | .deq => s.deq.map fun s' => (s', [.delivered s.first.1 s.first.2])

end FirstLastPipe

/-- The pipe, with starts and takes at any times. -/
def firstLastPipe (w : ℕ) : RuleSystem (FirstLastPipe w) (FirstLastPipe.Action w) (FirstLastPipe.Event w) where
  step s a := s.step a

namespace FirstLastPipe

variable {w : ℕ}

/-! ## What should be delivered -/

/-- The counts of the starts. -/
def starts (tr : List (Event w)) : List (BitVec w) :=
  tr.filterMap fun
    | .started count => some count
    | _ => none

/-- The flags that were delivered. -/
def delivered (tr : List (Event w)) : List (Bool × Bool) :=
  tr.filterMap fun
    | .delivered first last => some (first, last)
    | _ => none

/-- The flags of `n` elements: the first is set on element 0 and the second on element `n - 1`. -/
def flags (n : ℕ) : List (Bool × Bool) := (List.range n).map fun i => (decide (i = 0), decide (i + 1 = n))

/-- **What should be delivered**: the flags of the elements, start by start, and the pipe is empty exactly when there
are no more of them. -/
structure Flagged (tr : List (Event w)) (s : FirstLastPipe w) : Prop where
  delivered : delivered tr <+: (starts tr).flatMap fun count => flags count.toNat
  head : s.notEmpty = true →
    FirstLastPipe.delivered tr ++ [s.first] <+: (starts tr).flatMap fun count => flags count.toNat
  length : (FirstLastPipe.delivered tr).length + s.countReg.toNat = ((starts tr).map BitVec.toNat).sum

section Traces

variable (tr : List (Event w)) (count : BitVec w) (f l : Bool)

@[simp] lemma starts_started : starts (tr ++ [Event.started count]) = starts tr ++ [count] := List.filterMap_append

@[simp] lemma starts_delivered : starts (tr ++ [Event.delivered f l]) = starts tr :=
  List.filterMap_append.trans (List.append_nil _)

@[simp] lemma delivered_started : delivered (tr ++ [Event.started count]) = delivered tr :=
  List.filterMap_append.trans (List.append_nil _)

@[simp] lemma delivered_delivered : delivered (tr ++ [Event.delivered f l]) = delivered tr ++ [(f, l)] :=
  List.filterMap_append

end Traces

lemma length_flags (n : ℕ) : (flags n).length = n := by
  rw [flags, List.length_map, List.length_range]

lemma getElem?_flags {n i : ℕ} (hi : i < n) : (flags n)[i]? = some (decide (i = 0), decide (i + 1 = n)) := by
  rw [flags, List.getElem?_map, List.getElem?_range hi, Option.map_some]

/-! ## The invariant -/

/-- `i` elements of a start have been delivered. -/
structure Emits (n : BitVec w) (i : ℕ) (s : FirstLastPipe w) : Prop where
  countReg : s.countReg.toNat + i = n.toNat
  firstReg : s.firstReg = decide (i = 0)
  lastReg : s.lastReg = decide (n.toNat ≤ i + 1)

variable {n : BitVec w} {i : ℕ} {s s' : FirstLastPipe w} {tr es : List (Event w)}

lemma notEmpty_iff : s.notEmpty = true ↔ 0 < s.countReg.toNat := by
  have hzero : (0 : BitVec w).toNat = 0 := BitVec.toNat_zero
  rw [notEmpty, decide_eq_true_iff, BitVec.lt_def, hzero]

/-- The next element is taken. -/
lemma Emits.deq (h : s.Emits n i) (hn : 2 ≤ n.toNat) (hs : s.deq = some s') : i < n.toNat ∧ s'.Emits n (i + 1) := by
  rw [FirstLastPipe.deq] at hs
  split at hs
  case isFalse => cases hs
  case isTrue hpos =>
    cases hs
    have hlt := n.isLt
    have hcount := h.countReg
    have hone : (1 : BitVec w).toNat = 1 := (BitVec.toNat_ofNat 1 w).trans (Nat.mod_eq_of_lt (by omega))
    have hzero : (0 : BitVec w).toNat = 0 := BitVec.toNat_zero
    rw [BitVec.lt_def, hzero] at hpos
    have hsub : (s.countReg - 1).toNat = s.countReg.toNat - 1 := by
      rw [BitVec.toNat_sub_of_le (by rw [BitVec.le_def, hone]; exact hpos), hone]
    refine ⟨by omega, ?_, ?_, ?_⟩
    · show (s.countReg - 1).toNat + (i + 1) = _
      omega
    · exact (decide_eq_false (Nat.succ_ne_zero i)).symm
    · have hiff : s.countReg - 1 = 1 ↔ s.countReg.toNat - 1 = 1 := by rw [BitVec.toNat_eq, hsub, hone]
      show (if s.countReg - 1 = 1 then true else s.lastReg) = _
      rw [h.lastReg]
      by_cases hlast : s.countReg - 1 = 1
      · rw [if_pos hlast]
        rw [hiff] at hlast
        exact (decide_eq_true (by omega)).symm
      · rw [if_neg hlast, decide_eq_decide]
        rw [hiff] at hlast
        omega

/-- The flags at the head of the pipe. -/
lemma Emits.first_eq (h : s.Emits n i) (hi : i < n.toNat) : s.first = (decide (i = 0), decide (i + 1 = n.toNat)) := by
  rw [first, h.firstReg, h.lastReg]
  refine congrArg _ (decide_eq_decide.mpr ?_)
  omega

/-- **The invariant**: the elements of the starts before the last have been delivered, and some of the last. -/
inductive Tracks (tr : List (Event w)) (s : FirstLastPipe w) : Prop
  | fresh (hs : s = .reset) (hstarts : starts tr = []) (hdelivered : delivered tr = [])
  | emits (past : List (BitVec w)) (n : BitVec w) (i : ℕ) (hn : 2 ≤ n.toNat) (hs : s.Emits n i)
    (hstarts : starts tr = past ++ [n])
    (hdelivered : delivered tr = (past.flatMap fun count => flags count.toNat) ++ (flags n.toNat).take i)

/-- Elements can be asked for when those before have been delivered. -/
lemma Tracks.of_empty (h : Tracks tr s) (hempty : s.countReg = 0) :
    delivered tr = (starts tr).flatMap fun count => flags count.toNat := by
  cases h with
  | fresh hs hstarts hdelivered => rw [hstarts, hdelivered, List.flatMap_nil]
  | emits past n i hn hs hstarts hdelivered =>
    have hcount := hs.countReg
    have hzero : (0 : BitVec w).toNat = 0 := BitVec.toNat_zero
    rw [hempty, hzero] at hcount
    rw [hdelivered, hstarts, List.flatMap_append, List.flatMap_singleton, List.take_of_length_le]
    rw [length_flags]
    omega

/-- The flags after a start. -/
lemma start_eq_some (hs : s.start n = some s') : s.countReg = 0 ∧ s' = ⟨n, true, false⟩ := by
  rw [start] at hs
  split at hs
  case isTrue hempty => exact ⟨hempty, (Option.some.inj hs).symm⟩
  case isFalse => cases hs

/-- **The calls keep the invariant**, for counts from 2 on. -/
theorem Tracks.step (h : Tracks tr s) {a : Action w} (ha : ∀ n, a = .start n → 2 ≤ n.toNat)
    (hstep : (firstLastPipe w).step s a = some (s', es)) : Tracks (tr ++ es) s' := by
  cases a with
  | start n =>
    obtain ⟨t, hs, heq⟩ := Option.map_eq_some_iff.mp hstep
    cases heq
    obtain ⟨hempty, rfl⟩ := start_eq_some hs
    have hn := ha n rfl
    refine .emits (starts tr) n 0 hn ⟨rfl, rfl, (decide_eq_false ?_).symm⟩ (starts_started tr n) ?_
    · omega
    · rw [delivered_started, List.take_zero, List.append_nil]
      exact h.of_empty hempty
  | deq =>
    obtain ⟨t, hs, heq⟩ := Option.map_eq_some_iff.mp hstep
    cases heq
    cases h with
    | fresh hreset hstarts hdelivered =>
      subst hreset
      cases (if_neg (BitVec.lt_irrefl 0)).symm.trans hs
    | emits past n i hn hemits hstarts hdelivered =>
      obtain ⟨hlt, hnext⟩ := hemits.deq hn hs
      refine .emits past n (i + 1) hn hnext ?_ ?_
      · rw [starts_delivered, hstarts]
      · rw [delivered_delivered, hdelivered, List.append_assoc, List.take_add_one, getElem?_flags hlt,
          hemits.first_eq hlt]
        rfl

lemma Tracks.flagged (h : Tracks tr s) : Flagged tr s := by
  cases h with
  | fresh hs hstarts hdelivered =>
    subst hs
    have hzero : (reset : FirstLastPipe w).countReg.toNat = 0 := BitVec.toNat_zero
    refine ⟨?_, fun hne => ?_, ?_⟩
    · rw [hdelivered]
      exact List.nil_prefix
    · rw [notEmpty_iff, hzero] at hne
      omega
    · rw [hstarts, hdelivered, hzero]
      rfl
  | emits past n i hn hs hstarts hdelivered =>
    have hcount := hs.countReg
    refine ⟨?_, fun hne => ?_, ?_⟩
    · rw [hstarts, hdelivered, List.flatMap_append, List.flatMap_singleton]
      exact (List.prefix_append_right_inj _).mpr (List.take_prefix _ _)
    · rw [notEmpty_iff] at hne
      have hlt : i < n.toNat := by omega
      have htake : (flags n.toNat).take i ++ [s.first] = (flags n.toNat).take (i + 1) := by
        rw [List.take_add_one, getElem?_flags hlt, hs.first_eq hlt]
        rfl
      rw [hstarts, hdelivered, List.flatMap_append, List.flatMap_singleton, List.append_assoc, htake]
      exact (List.prefix_append_right_inj _).mpr (List.take_prefix _ _)
    · have hsum : (past.flatMap fun count => flags count.toNat).length = (past.map BitVec.toNat).sum := by
        rw [List.length_flatMap]
        exact congrArg List.sum (List.map_congr_left fun count _ => length_flags count.toNat)
      rw [hstarts, hdelivered, List.length_append, hsum, List.length_take, length_flags, List.map_append,
        List.sum_append, List.map_singleton, List.sum_singleton]
      omega

/-! ## The runs -/

/-- The condition on a start: there are elements. -/
def Counts (_ : FirstLastPipe w) : Action w → Prop
  | .start count => 0 < count.toNat
  | .deq => True

instance (s : FirstLastPipe w) : ∀ a, Decidable (s.Counts a)
  | .start count => inferInstanceAs (Decidable (0 < count.toNat))
  | .deq => inferInstanceAs (Decidable True)

/-- There is not only one. -/
def Several (_ : FirstLastPipe w) : Action w → Prop
  | .start count => count.toNat ≠ 1
  | .deq => True

instance (s : FirstLastPipe w) : ∀ a, Decidable (s.Several a)
  | .start count => inferInstanceAs (Decidable (count.toNat ≠ 1))
  | .deq => inferInstanceAs (Decidable True)

/-- **The elements are marked**, as long as no start is for a single one; and the first start for a single element
leaves it without the flag of the last. -/
theorem flagged_of_several (h : (((firstLastPipe w).guard Counts).guard Several).Reaches .reset tr s) :
    Flagged tr s ∧ ∀ count s' es, ((firstLastPipe w).guard Counts).step s (.start count) = some (s', es) →
      (Flagged (tr ++ es) s' ↔ count.toNat ≠ 1) := by
  have htracks : Tracks tr s := by
    refine h.invariant (I := Tracks) (.fresh rfl rfl rfl) fun {tr s a s' es} hs hstep => ?_
    obtain ⟨hseveral, hstep⟩ := RuleSystem.guard_step.mp hstep
    obtain ⟨hcounts, hstep⟩ := RuleSystem.guard_step.mp hstep
    refine hs.step (fun n ha => ?_) hstep
    subst ha
    have hpos : 0 < n.toNat := hcounts
    have hne : n.toNat ≠ 1 := hseveral
    omega
  refine ⟨htracks.flagged, fun count s' es hstep => ?_⟩
  obtain ⟨hcounts, hstep⟩ := RuleSystem.guard_step.mp hstep
  have hpos : 0 < count.toNat := hcounts
  constructor
  · intro hflagged hone
    obtain ⟨t, hs, heq⟩ := Option.map_eq_some_iff.mp hstep
    cases heq
    obtain ⟨hempty, rfl⟩ := start_eq_some hs
    have hhead := hflagged.head (notEmpty_iff.mpr hpos)
    rw [delivered_started, starts_started, htracks.of_empty hempty, List.flatMap_append, List.flatMap_singleton, hone,
      List.prefix_append_right_inj] at hhead
    have hnot : ¬[(true, false)] <+: flags 1 := by decide
    exact hnot hhead
  · intro hne
    refine (htracks.step (fun n hn => ?_) hstep).flagged
    cases hn
    omega

end FirstLastPipe

/-- **When the marks are exact**, of ranges and of counts. For ranges: before the first range; and while a number is at
the head, but for the last number of a range whose length is not a multiple of its step. For counts: as long as none of
them is 1. -/
theorem marked_and_flagged_iff {w : ℕ} (hw : 0 < w) :
    (∀ tr s, ((rangePipe w).guard RangePipe.Fills).Reaches .reset tr s →
      (RangePipe.Marked tr s ↔ RangePipe.starts tr = [] ∨ s.notEmpty = true ∧
        ∃ c, (RangePipe.starts tr).getLast? = some c ∧
          (c.xstep.toNat ∣ c.xlimit.toNat - c.xbase.toNat ∨ RangePipe.position tr + 1 ≠ c.count))) ∧
    ∀ tr s, (((firstLastPipe w).guard FirstLastPipe.Counts).guard FirstLastPipe.Several).Reaches .reset tr s →
      FirstLastPipe.Flagged tr s ∧
        ∀ count s' es, ((firstLastPipe w).guard FirstLastPipe.Counts).step s (.start count) = some (s', es) →
          (FirstLastPipe.Flagged (tr ++ es) s' ↔ count.toNat ≠ 1) :=
  ⟨fun _ _ h => RangePipe.marked_iff hw h, fun _ _ h => FirstLastPipe.flagged_of_several h⟩

/-- A range of two numbers, 0 and 2, below 5. -/
def unevenRange := ((rangePipe 8).guard RangePipe.Fills).run .reset [.start ⟨0, 5, 2⟩, .deq]

/-- A single element. -/
def singleElement := ((firstLastPipe 8).guard FirstLastPipe.Counts).run .reset [.start 1]

/-- Two elements, of which one has been delivered. -/
def twoElements :=
  (((firstLastPipe 8).guard FirstLastPipe.Counts).guard FirstLastPipe.Several).run .reset [.start 2, .deq]

theorem marked_and_flagged_evenRange :
    let r := ((rangePipe 8).guard RangePipe.Fills).run .reset [.start ⟨0, 4, 2⟩, .deq]
    RangePipe.Marked r.2 r.1 ∧ r.1.isLast = true ∧ FirstLastPipe.Flagged twoElements.2 twoElements.1 := by
  have hall := marked_and_flagged_iff (w := 8) (by decide)
  refine ⟨(hall.1 _ _ (RuleSystem.reaches_run _ _)).mpr (.inr ⟨by decide, ⟨0, 4, 2⟩, by decide, .inl (by decide)⟩),
    by decide, (hall.2 _ _ (RuleSystem.reaches_run _ _)).1⟩

/-- The number 2 is the last of its range, and the single element is the last; neither is marked. -/
theorem not_marked_and_flagged :
    (((rangePipe 8).guard RangePipe.Fills).Reaches .reset unevenRange.2 unevenRange.1 ∧
      (⟨0, 5, 2⟩ : RangeConfig 8).values = [0, 2] ∧ unevenRange.1.notEmpty = true ∧ unevenRange.1.x = 2 ∧
        unevenRange.1.isLast = false ∧ ¬RangePipe.Marked unevenRange.2 unevenRange.1) ∧
    ((firstLastPipe 8).guard FirstLastPipe.Counts).Reaches .reset singleElement.2 singleElement.1 ∧
      singleElement.1.first = (true, false) ∧ ¬FirstLastPipe.Flagged singleElement.2 singleElement.1 := by
  refine ⟨⟨RuleSystem.reaches_run _ _, by decide, by decide, by decide, by decide, fun h => ?_⟩,
    RuleSystem.reaches_run _ _, by decide, fun h => ?_⟩
  · exact absurd (h.isLast.mpr ⟨by decide, ⟨0, 5, 2⟩, by decide, by decide⟩) (by decide)
  · have hhead := h.head (by decide)
    revert hhead
    decide

end Xbsv
