import Mathlib.Data.Fin.Tuple.Basic
import Xbsv.Rules.System

set_option relaxedAutoImplicit false
set_option autoImplicit false

/-!
# Interrupts

The portals hold their interrupt lines high, and the host wants a message for every rising edge. The rule
`interrupt_rule` of `mkPcieTop` compares the lines with registers that hold what they were when it last fired. It sends
one message at most and then writes all the registers, so that of several edges only the first is seen; and it
does not fire while it has a message and `interruptRequest` is not ready.

## Main definitions

* `Xbsv.interruptTop` — the lines and the rule, a cycle at a time.
* `Xbsv.risings`, `Xbsv.messages` — the edges of a line, and the requests for it.
* `Xbsv.OneEdge` — the cycles in which no edge is lost and none is seen twice.

## Main results

* `Xbsv.one_message_per_edge` — a request for every edge, in the runs of such cycles.
* `Xbsv.not_announced` — any other cycle breaks this.
-/

namespace Xbsv

open Rules

/-- An entry of the table of messages. -/
structure MSIXEntry where
  addrLo : BitVec 32
  addrHi : BitVec 32
  msgData : BitVec 32
  deriving DecidableEq

/-- The registers of `mkPcieTop`, and the interrupt lines of the portals in the last cycle. -/
structure InterruptTop where
  interruptRequested : Fin 15 → Bool
  interrupt : Fin 15 → Bool

/-- A cycle: the lines, the table, and if `interruptRequest` is ready. -/
structure InterruptCycle where
  interrupt : Fin 15 → Bool
  msixEntry : Fin 16 → MSIXEntry
  ready : Bool

namespace InterruptTop

/-- After reset. -/
def reset : InterruptTop := ⟨fun _ => false, fun _ => false⟩

/-- What can be seen of a cycle: the lines, and the entry of a request with its address and data. -/
inductive Event where
  | lines (interrupt : Fin 15 → Bool)
  | interruptRequest (entry : Fin 16) (addr : BitVec 64) (data : BitVec 32)

/-- A line is high whose register is low. -/
def isNew (s : InterruptTop) (interrupt : Fin 15 → Bool) (i : Fin 15) : Bool :=
  interrupt i && !s.interruptRequested i

/-- The line the loop comes to; `intr_num` is one more than its number, and 0 if there is none. -/
def firstNew (s : InterruptTop) (interrupt : Fin 15 → Bool) : Option (Fin 15) := Fin.find? (s.isNew interrupt)

/-- The request for a line. -/
def requestFor (a : InterruptCycle) (i : Fin 15) : Event :=
  .interruptRequest i.succ ((a.msixEntry i.succ).addrHi ++ (a.msixEntry i.succ).addrLo) (a.msixEntry i.succ).msgData

/-- The rule can fire: it has nothing to send, or the request can be made. -/
def canFire (s : InterruptTop) (a : InterruptCycle) : Bool := (s.firstNew a.interrupt).isNone || a.ready

/-- Rule `interrupt_rule`, with its requests. -/
def interruptRule (s : InterruptTop) (a : InterruptCycle) : InterruptTop × List Event :=
  ({ s with interruptRequested := a.interrupt }, ((s.firstNew a.interrupt).map (requestFor a)).toList)

end InterruptTop

open InterruptTop in
/-- The lines and the rule. The rule fires in every cycle in which it can. -/
def interruptTop : RuleSystem InterruptTop InterruptCycle InterruptTop.Event where
  step s a :=
    if s.canFire a then
      let (s', es) := s.interruptRule a
      some ({ s' with interrupt := a.interrupt }, .lines a.interrupt :: es)
    else some ({ s with interrupt := a.interrupt }, [.lines a.interrupt])

/-! ## Edges and requests -/

open InterruptTop

/-- The values of the lines, cycle by cycle. -/
def lineValues (tr : List Event) : List (Fin 15 → Bool) :=
  tr.filterMap fun
    | .lines interrupt => some interrupt
    | _ => none

/-- The rising edges of a line, if `was` is its value before. -/
def risingsFrom (i : Fin 15) (was : Bool) : List (Fin 15 → Bool) → ℕ
  | [] => 0
  | l :: ls => (l i && !was).toNat + risingsFrom i (l i) ls

/-- The rising edges of a line. -/
def risings (i : Fin 15) (tr : List Event) : ℕ := risingsFrom i false (lineValues tr)

/-- The requests with the entry of a line. -/
def messages (i : Fin 15) (tr : List Event) : ℕ :=
  tr.countP fun
    | .interruptRequest entry _ _ => entry = i.succ
    | _ => false

/-- The value of a line after some cycles. -/
def lastValue (i : Fin 15) (was : Bool) (ls : List (Fin 15 → Bool)) : Bool :=
  ls.foldl (fun _ l => l i) was

@[simp] lemma lineValues_append (tr es : List Event) : lineValues (tr ++ es) = lineValues tr ++ lineValues es :=
  List.filterMap_append

/-- One more cycle. -/
lemma risingsFrom_concat (i : Fin 15) (was : Bool) (ls : List (Fin 15 → Bool)) (l : Fin 15 → Bool) :
    risingsFrom i was (ls ++ [l]) = risingsFrom i was ls + (l i && !lastValue i was ls).toNat := by
  induction ls generalizing was with
  | nil => simp [risingsFrom, lastValue]
  | cons l' ls ih =>
    show (l' i && !was).toNat + risingsFrom i (l' i) (ls ++ [l]) = _
    rw [ih, ← Nat.add_assoc]
    rfl

/-- The edge of a line is not yet requested. -/
def waits (s : InterruptTop) (i : Fin 15) : Bool := s.interrupt i && !s.interruptRequested i

/-- A cycle in which no edge is lost and none is seen twice: if the rule fires there is one line at most that is high
with a low register; no line falls before its edge has been requested; and no line rises while its register
still is high. -/
def OneEdge (s : InterruptTop) (a : InterruptCycle) : Prop :=
  (s.canFire a = true → ∀ i j, s.isNew a.interrupt i = true → s.isNew a.interrupt j = true → i = j) ∧
    (∀ i, waits s i = true → a.interrupt i = true) ∧
    ∀ i, a.interrupt i = true → s.interrupt i = false → s.interruptRequested i = false

instance (s : InterruptTop) (a : InterruptCycle) : Decidable (OneEdge s a) := by
  unfold OneEdge
  infer_instance

/-- There has been a request for every edge, but for those that wait. -/
structure Announced (tr : List Event) (s : InterruptTop) : Prop where
  last : ∀ i, lastValue i false (lineValues tr) = s.interrupt i
  count : ∀ i, risings i tr = messages i tr + (waits s i).toNat

/-! ## One cycle -/

section Cycle

variable {tr es : List Event} {s s' : InterruptTop} {a : InterruptCycle}

/-- The requests of a cycle in which the rule fires. -/
lemma messages_fire (i : Fin 15) :
    messages i (tr ++ .lines a.interrupt :: (s.interruptRule a).2) =
      messages i tr + (decide (s.firstNew a.interrupt = some i)).toNat := by
  unfold messages interruptRule
  rw [List.countP_append, List.countP_cons]
  cases hfirst : s.firstNew a.interrupt with
  | none => simp
  | some j =>
    by_cases hij : j = i
    · simp [requestFor, hij]
    · have hne : ¬ j.succ = i.succ := fun he => hij (Fin.succ_injective _ he)
      simp [requestFor, hij, hne]

/-- The requests of a cycle in which it does not. -/
lemma messages_stall (i : Fin 15) : messages i (tr ++ [InterruptTop.Event.lines a.interrupt]) = messages i tr := by
  simp [messages]

/-- The lines of a cycle in which the rule fires. -/
lemma lineValues_fire :
    lineValues (tr ++ .lines a.interrupt :: (s.interruptRule a).2) = lineValues tr ++ [a.interrupt] := by
  unfold interruptRule
  cases hfirst : s.firstNew a.interrupt with
  | none => simp [lineValues]
  | some j => simp [lineValues, requestFor]

/-- The lines of a cycle in which it does not. -/
lemma lineValues_stall :
    lineValues (tr ++ [InterruptTop.Event.lines a.interrupt]) = lineValues tr ++ [a.interrupt] := by
  simp [lineValues]

/-- The edges after a cycle. -/
lemma risings_cycle (h : Announced tr s) (htr : lineValues es = lineValues tr ++ [a.interrupt]) (i : Fin 15) :
    risings i es = messages i tr + (waits s i).toNat + (a.interrupt i && !s.interrupt i).toNat := by
  unfold risings
  rw [htr, risingsFrom_concat, h.last]
  have hcount := h.count i
  unfold risings at hcount
  rw [hcount]

/-- After a cycle in which the rule fires, all is in order exactly if every edge that is new or waits is the one that
has been requested. -/
lemma announced_fire (h : Announced tr s) :
    Announced (tr ++ .lines a.interrupt :: (s.interruptRule a).2)
        { s with interruptRequested := a.interrupt, interrupt := a.interrupt } ↔
      ∀ i, (waits s i).toNat + (a.interrupt i && !s.interrupt i).toNat =
        (decide (s.firstNew a.interrupt = some i)).toNat := by
  have hwaits (i : Fin 15) :
      waits { s with interruptRequested := a.interrupt, interrupt := a.interrupt } i = false := by simp [waits]
  have hlast (i : Fin 15) : lastValue i false (lineValues tr ++ [a.interrupt]) = a.interrupt i := by
    simp [lastValue]
  constructor
  · intro h' i
    have hcount := h'.count i
    rw [risings_cycle h lineValues_fire, messages_fire, hwaits] at hcount
    simp only [Bool.toNat_false] at hcount
    omega
  · intro hall
    refine ⟨fun i => ?_, fun i => ?_⟩
    · rw [lineValues_fire]
      exact hlast i
    · have hi := hall i
      rw [risings_cycle h lineValues_fire, messages_fire, hwaits]
      simp only [Bool.toNat_false]
      omega

/-- After a cycle in which the rule does not fire, all is in order exactly if what waits are the edges that have
waited and the new ones. -/
lemma announced_stall (h : Announced tr s) :
    Announced (tr ++ [InterruptTop.Event.lines a.interrupt]) { s with interrupt := a.interrupt } ↔
      ∀ i, (waits s i).toNat + (a.interrupt i && !s.interrupt i).toNat = (s.isNew a.interrupt i).toNat := by
  have hlast (i : Fin 15) : lastValue i false (lineValues tr ++ [a.interrupt]) = a.interrupt i := by
    simp [lastValue]
  constructor
  · intro h' i
    have hcount : _ = _ + (s.isNew a.interrupt i).toNat := h'.count i
    rw [risings_cycle h lineValues_stall, messages_stall] at hcount
    omega
  · intro hall
    refine ⟨fun i => ?_, fun i => ?_⟩
    · rw [lineValues_stall]
      exact hlast i
    · have hi := hall i
      show _ = _ + (s.isNew a.interrupt i).toNat
      rw [risings_cycle h lineValues_stall, messages_stall]
      omega

/-- A line on which nothing goes wrong: its edge is new exactly if its register is low. -/
lemma edge_iff_isNew (i : Fin 15) :
    (waits s i).toNat + (a.interrupt i && !s.interrupt i).toNat = (s.isNew a.interrupt i).toNat ↔
      (waits s i = true → a.interrupt i = true) ∧
        (a.interrupt i = true → s.interrupt i = false → s.interruptRequested i = false) := by
  unfold waits isNew
  cases a.interrupt i <;> cases s.interrupt i <;> cases s.interruptRequested i <;> simp

/-- The line that is requested is the only one that is new, if there is no other. -/
lemma firstNew_iff (huniq : ∀ i j, s.isNew a.interrupt i = true → s.isNew a.interrupt j = true → i = j)
    (i : Fin 15) : s.firstNew a.interrupt = some i ↔ s.isNew a.interrupt i = true := by
  unfold firstNew
  rw [Fin.find?_eq_some_iff]
  constructor
  · exact And.left
  · intro hi
    refine ⟨hi, fun j hj => ?_⟩
    cases hnew : s.isNew a.interrupt j with
    | false => rfl
    | true => exact absurd (huniq j i hnew hi) (Fin.ne_of_lt hj)

end Cycle

/-- A line that is new has one edge, which is new or has waited. -/
lemma edge_of_isNew {s : InterruptTop} {a : InterruptCycle} {i : Fin 15} (h : s.isNew a.interrupt i = true) :
    (waits s i).toNat + (a.interrupt i && !s.interrupt i).toNat = 1 := by
  unfold isNew at h
  unfold waits
  cases hline : a.interrupt i <;> cases s.interrupt i <;> cases hreg : s.interruptRequested i <;>
    simp [hline, hreg] at h ⊢

/-- All stays in order in a cycle exactly if it is one in which no edge is lost and none is seen twice.

**Proof sketch.** An edge that waits or is new has to be among the lines whose registers are low, and these have to be
among them: this is the condition on the single lines. If the rule fires, one of these lines is requested, and
the others are forgotten. -/
lemma announced_step {tr es : List Event} {s s' : InterruptTop} {a : InterruptCycle} (h : Announced tr s)
    (hs : interruptTop.step s a = some (s', es)) : Announced (tr ++ es) s' ↔ OneEdge s a := by
  unfold interruptTop at hs
  by_cases hfire : s.canFire a = true
  · simp only [hfire, if_true] at hs
    cases hs
    refine (announced_fire h).trans ⟨fun hall => ?_, fun hone i => ?_⟩
    · -- the lines that are new are the one that is requested
      have hnew (i : Fin 15) (hi : s.isNew a.interrupt i = true) : s.firstNew a.interrupt = some i := by
        have hsum := (hall i).symm.trans (edge_of_isNew hi)
        by_contra hne
        simp [hne] at hsum
      have hline (i : Fin 15) : (waits s i).toNat + (a.interrupt i && !s.interrupt i).toNat =
          (s.isNew a.interrupt i).toNat := by
        cases hi : s.isNew a.interrupt i with
        | true => exact edge_of_isNew hi
        | false =>
          have hne : ¬ s.firstNew a.interrupt = some i := by
            intro hfirst
            have := (Fin.find?_eq_some_iff.mp hfirst).1
            rw [hi] at this
            cases this
          rw [hall i, decide_eq_false hne]
      refine ⟨fun _ i j hi hj => ?_, fun i => ((edge_iff_isNew i).mp (hline i)).1,
        fun i => ((edge_iff_isNew i).mp (hline i)).2⟩
      exact Option.some.inj ((hnew i hi).symm.trans (hnew j hj))
    · obtain ⟨huniq, hfall, hrise⟩ := hone
      rw [(edge_iff_isNew i).mpr ⟨hfall i, hrise i⟩]
      have hiff := firstNew_iff (huniq hfire) i
      cases hi : s.isNew a.interrupt i with
      | true => rw [decide_eq_true (hiff.mpr hi)]
      | false => rw [decide_eq_false fun hfirst => by rw [hiff, hi] at hfirst; cases hfirst]
  · simp only [hfire] at hs
    cases hs
    refine (announced_stall h).trans ⟨fun hall => ?_, fun hone i => ?_⟩
    · exact ⟨fun hfire' => absurd hfire' hfire, fun i => ((edge_iff_isNew i).mp (hall i)).1,
        fun i => ((edge_iff_isNew i).mp (hall i)).2⟩
    · exact (edge_iff_isNew i).mpr ⟨hone.2.1 i, hone.2.2 i⟩

/-- **One request for every edge.** In every run of cycles in which no edge is lost and none is seen twice, the
requests for a line are as many as its rising edges, but for an edge that waits because the rule has not been able to fire
since; the line is high then and its register is low.

**Proof sketch.** By induction on the run, with `announced_step` for a cycle. -/
theorem one_message_per_edge {tr : List Event} {s : InterruptTop}
    (h : (interruptTop.guard OneEdge).Reaches .reset tr s) (i : Fin 15) :
    risings i tr = messages i tr + (s.interrupt i && !s.interruptRequested i).toNat := by
  have hreset : Announced [] InterruptTop.reset := ⟨fun _ => rfl, fun _ => rfl⟩
  have hann : Announced tr s := by
    refine h.invariant (I := fun tr (s : InterruptTop) => Announced tr s) hreset ?_
    intro tr s a s' es ih hs
    obtain ⟨hok, hs⟩ := RuleSystem.guard_step.mp hs
    exact (announced_step ih hs).mpr hok
  exact hann.count i

/-- Entries of the table. -/
def someEntries (i : Fin 16) : MSIXEntry := ⟨0xfee00000, 0, BitVec.ofNat 32 i⟩

/-- A cycle in which the given lines are high. -/
def highLines (high : List (Fin 15)) (ready : Bool) : InterruptCycle := ⟨fun i => i ∈ high, someEntries, ready⟩

/-- Line 3 rises and has to wait; later line 5 rises, and line 3 falls and rises again. -/
def threeEdges :=
  (interruptTop.guard OneEdge).run .reset
    [highLines [3] false, highLines [3] true, highLines [3, 5] true, highLines [5] false, highLines [3, 5] true]

theorem one_message_per_edge_threeEdges :
    (risings 3 threeEdges.2 = 2 ∧ messages 3 threeEdges.2 = 2 ∧ messages 5 threeEdges.2 = 1) ∧
      ∀ i, risings i threeEdges.2 =
        messages i threeEdges.2 + (threeEdges.1.interrupt i && !threeEdges.1.interruptRequested i).toNat :=
  ⟨by decide +kernel, one_message_per_edge (RuleSystem.reaches_run _ _)⟩

/-- Two lines rise in the same cycle, and stay high. -/
def simultaneousEdges :=
  interruptTop.run .reset [highLines [0, 1] true, highLines [0, 1] true, highLines [0, 1] true]

/-- There is no request for the second line, and none will be made for its edge: the register is high. -/
theorem simultaneous_edge_lost :
    risings 0 simultaneousEdges.2 = 1 ∧ messages 0 simultaneousEdges.2 = 1 ∧ risings 1 simultaneousEdges.2 = 1 ∧
      messages 1 simultaneousEdges.2 = 0 ∧ simultaneousEdges.1.interruptRequested 1 = true := by
  decide +kernel

/-- Any other cycle breaks this: an edge is lost, or there is a request without one. -/
theorem not_announced {tr es : List Event} {s s' : InterruptTop} {a : InterruptCycle} (h : Announced tr s)
    (hno : ¬ OneEdge s a) (hs : interruptTop.step s a = some (s', es)) : ¬ Announced (tr ++ es) s' :=
  fun h' => hno ((announced_step h hs).mp h')

end Xbsv
