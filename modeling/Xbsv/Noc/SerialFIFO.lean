import Mathlib.Data.BitVec
import Xbsv.Rules.Ends
import Xbsv.Rules.Lanes

set_option relaxedAutoImplicit false
set_option autoImplicit false

/-!
# `SerialFIFO.bsv`

A queue that passes its words over a single wire. The sender cuts a word into bits, bit 0 first; a rule moves one bit
at a time to the receiver, where the next word is there as soon as all its bits are.

Both halves are gearboxes, which are queues of bits here, of any size that holds a word.

## Main definitions

* `Xbsv.bitsOf`, `Xbsv.wordOfBits` — a word as a vector of bits, and back.
* `Xbsv.serialFIFO` — the module, as a system of rules.
* `Xbsv.SerialFIFO.Holds` — the words that are under way.

## Main results

* `Xbsv.SerialFIFO.Holds.enq`, `Xbsv.SerialFIFO.Holds.movebits`, `Xbsv.SerialFIFO.Holds.deq` — what the operations do.
* `Xbsv.SerialFIFO.serial_delivers` — the words come out in order, and all of them do when nothing new comes in.
-/

namespace Xbsv

open Rules

/-! ## The source -/

/-- A word as a vector of bits. -/
def bitsOf {w : ℕ} (b : BitVec w) : List Bool := List.ofFn fun i : Fin w => b[i]

/-- The word that a vector of bits makes. -/
def wordOfBits (w : ℕ) (l : List Bool) : BitVec w := (BitVec.ofBoolListLE l).setWidth w

/-- The width of the words, and the sizes of the gearboxes. -/
structure SerialConfig where
  width : ℕ
  txSize : ℕ
  rxSize : ℕ
  width_pos : 0 < width
  width_le_txSize : width ≤ txSize
  width_le_rxSize : width ≤ rxSize

/-- The state of `mkSerialFIFO`: the bits in `mkSerialFIFOTX` and those in `mkSerialFIFORX`. -/
structure SerialFIFO (c : SerialConfig) where
  tx : Fifo c.txSize Bool
  rx : Fifo c.rxSize Bool

namespace SerialFIFO

variable {c : SerialConfig}

def empty : SerialFIFO c := ⟨.empty, .empty⟩

/-- `in.enq`. -/
def enq (s : SerialFIFO c) (x : BitVec c.width) : Option (SerialFIFO c) :=
  (s.tx.enqN (bitsOf x)).map fun tx => { s with tx }

/-- The rule `movebits`. -/
def movebits (s : SerialFIFO c) : Option (SerialFIFO c) := do
  let (b, tx) ← s.tx.deq
  let rx ← s.rx.enq b
  return ⟨tx, rx⟩

/-- `out.first` and `out.deq`. -/
def deq (s : SerialFIFO c) : Option (BitVec c.width × SerialFIFO c) :=
  (s.rx.deqN c.width).map fun rx => (wordOfBits c.width (s.rx.items.take c.width), { s with rx })

/-- Someone enqueues a word; a bit is moved; someone takes a word. -/
inductive Action (c : SerialConfig)
  | enq (x : BitVec c.width)
  | movebits
  | deq

inductive Event (c : SerialConfig)
  | entered (x : BitVec c.width)
  | delivered (x : BitVec c.width)

def step (s : SerialFIFO c) : Action c → Option (SerialFIFO c × List (Event c))
  | .enq x => (s.enq x).map fun s' => (s', [.entered x])
  | .movebits => s.movebits.map fun s' => (s', [])
  | .deq => s.deq.map fun r => (r.2, [.delivered r.1])

/-- The action is not a new word. -/
def Action.quiet : Action c → Bool
  | .enq _ => false
  | _ => true

end SerialFIFO

/-- `mkSerialFIFO`. -/
def serialFIFO (c : SerialConfig) : RuleSystem (SerialFIFO c) (SerialFIFO.Action c) (SerialFIFO.Event c) where
  step s a := s.step a

namespace SerialFIFO

variable {c : SerialConfig}

/-- The words that came in. -/
def entered (tr : List (Event c)) : List (BitVec c.width) :=
  tr.filterMap fun
    | .entered x => some x
    | .delivered _ => none

/-- The words that were taken. -/
def delivered (tr : List (Event c)) : List (BitVec c.width) :=
  tr.filterMap fun
    | .entered _ => none
    | .delivered x => some x

/-! ## Words and bits -/

end SerialFIFO

@[simp] lemma length_bitsOf {w : ℕ} (b : BitVec w) : (bitsOf b).length = w := List.length_ofFn

/-- **A word is made of its bits.** -/
lemma wordOfBits_bitsOf {w : ℕ} (b : BitVec w) : wordOfBits w (bitsOf b) = b := by
  refine BitVec.eq_of_getElem_eq fun i hi => ?_
  have hlen : i < (bitsOf b).length := by rwa [length_bitsOf]
  rw [wordOfBits, BitVec.getElem_setWidth, BitVec.getLsbD_ofBoolListLE, List.getD_eq_getElem?_getD,
    List.getElem?_eq_getElem hlen]
  simp [bitsOf]

/-- The bits of several words. -/
lemma length_flatMap_bitsOf {w : ℕ} (l : List (BitVec w)) : (l.flatMap bitsOf).length = l.length * w := by
  induction l with
  | nil => rw [List.flatMap_nil, List.length_nil, List.length_nil, Nat.zero_mul]
  | cons x l ih => rw [List.flatMap_cons, List.length_append, length_bitsOf, ih, List.length_cons, Nat.succ_mul, Nat.add_comm]

namespace SerialFIFO

variable {c : SerialConfig} {s s' : SerialFIFO c} {l : List (BitVec c.width)} {x : BitVec c.width}

/-! ## The words under way -/

/-- The bits under way are those of the words `l`, the oldest first. -/
def Holds (s : SerialFIFO c) (l : List (BitVec c.width)) : Prop := s.rx.items ++ s.tx.items = l.flatMap bitsOf

lemma holds_empty : (empty : SerialFIFO c).Holds [] := rfl

/-- All bits are there. -/
lemma Holds.length_eq (h : s.Holds l) : s.rx.items.length + s.tx.items.length = l.length * c.width := by
  rw [← List.length_append, h, length_flatMap_bitsOf]

lemma enq_eq_some (hs : s.enq x = some s') :
    s'.rx = s.rx ∧ s'.tx.items = s.tx.items ++ bitsOf x := by
  simp only [enq, Option.map_eq_some_iff] at hs
  obtain ⟨tx, htx, rfl⟩ := hs
  exact ⟨rfl, (Fifo.enqN_eq_some.mp htx).2⟩

lemma movebits_eq_some (hs : s.movebits = some s') :
    ∃ b, s.tx.items = b :: s'.tx.items ∧ s'.rx.items = s.rx.items ++ [b] := by
  simp only [movebits, bind, pure, Option.bind_eq_some_iff, Prod.exists, Option.some.injEq] at hs
  obtain ⟨b, tx, htx, rx, hrx, rfl⟩ := hs
  exact ⟨b, Fifo.deq_eq_some.mp htx, (Fifo.enq_eq_some.mp hrx).2⟩

lemma deq_eq_some (hs : s.deq = some (x, s')) :
    c.width ≤ s.rx.items.length ∧ x = wordOfBits c.width (s.rx.items.take c.width) ∧
      s'.rx.items = s.rx.items.drop c.width ∧ s'.tx = s.tx := by
  simp only [deq, Option.map_eq_some_iff, Prod.mk.injEq] at hs
  obtain ⟨rx, hrx, rfl, rfl⟩ := hs
  obtain ⟨hle, hitems⟩ := Fifo.deqN_eq_some.mp hrx
  exact ⟨hle, rfl, hitems, rfl⟩

/-- A word comes in. -/
lemma Holds.enq (h : s.Holds l) (hs : s.enq x = some s') : s'.Holds (l ++ [x]) := by
  obtain ⟨hrx, htx⟩ := enq_eq_some hs
  rw [Holds, hrx, htx, ← List.append_assoc, h, List.flatMap_append, List.flatMap_singleton]

/-- A bit moves. -/
lemma Holds.movebits (h : s.Holds l) (hs : s.movebits = some s') : s'.Holds l := by
  obtain ⟨b, htx, hrx⟩ := movebits_eq_some hs
  rw [Holds, hrx, ← h, htx, List.append_assoc, List.singleton_append]

/-- The word that is taken is the oldest one. -/
lemma Holds.deq (h : s.Holds l) (hs : s.deq = some (x, s')) : ∃ l', l = x :: l' ∧ s'.Holds l' := by
  obtain ⟨hle, rfl, hrx, htx⟩ := deq_eq_some hs
  cases l with
  | nil =>
    have hlen := h.length_eq
    have hpos := c.width_pos
    rw [List.length_nil, Nat.zero_mul] at hlen
    omega
  | cons y l' =>
    rw [Holds, List.flatMap_cons] at h
    have htake := congrArg (List.take c.width) h
    have hdrop := congrArg (List.drop c.width) h
    rw [List.take_append_of_le_length hle, List.take_left' (length_bitsOf y)] at htake
    rw [List.drop_append_of_le_length hle, List.drop_left' (length_bitsOf y)] at hdrop
    refine ⟨l', by rw [htake, wordOfBits_bitsOf], ?_⟩
    rw [Holds, hrx, htx, hdrop]

/-- There is room for a word when there are no bits at the sender. -/
lemma exists_enq (h : s.tx.items = []) (x : BitVec c.width) : ∃ s', s.enq x = some s' := by
  have hroom : s.tx.items.length + (bitsOf x).length ≤ c.txSize := by
    rw [h, length_bitsOf, List.length_nil, Nat.zero_add]
    exact c.width_le_txSize
  obtain ⟨tx, htx, -⟩ := Fifo.exists_enqN hroom
  exact ⟨{ s with tx }, by rw [SerialFIFO.enq, htx, Option.map_some]⟩

lemma exists_deq (h : c.width ≤ s.rx.items.length) : ∃ x s', s.deq = some (x, s') := by
  rw [deq, Fifo.deqN, if_pos h, Option.map_some]
  exact ⟨_, _, rfl⟩

/-- As long as there are bits at the sender, one can move, or there is a word to be taken. -/
lemma exists_movebits (h : s.tx.items ≠ []) : (∃ s', s.movebits = some s') ∨ c.width ≤ s.rx.items.length := by
  by_cases hroom : s.rx.items.length < c.rxSize
  · obtain ⟨b, bs, hb⟩ := List.exists_cons_of_ne_nil h
    obtain ⟨tx, htx, -⟩ := Fifo.exists_deq hb
    obtain ⟨rx, hrx, -⟩ := Fifo.exists_enq hroom b
    exact .inl ⟨⟨tx, rx⟩, by simp [movebits, htx, hrx]⟩
  · exact .inr (by have := c.width_le_rxSize; omega)

/-- **A word that is under way goes on**, unless it is there. -/
lemma Holds.exists_movebits (h : s.Holds l) (hl : l ≠ []) (hrx : s.rx.items.length < c.width) :
    ∃ s', s.movebits = some s' := by
  have hlen := h.length_eq
  have hpos : 0 < l.length := List.length_pos_iff.mpr hl
  have htx : s.tx.items ≠ [] := by
    intro hnil
    rw [hnil, List.length_nil] at hlen
    have hmul : c.width ≤ l.length * c.width := Nat.le_mul_of_pos_left _ hpos
    omega
  rcases SerialFIFO.exists_movebits htx with hmove | hle
  · exact hmove
  · omega

/-! ## Runs -/

section Traces

variable (tr : List (Event c)) (x : BitVec c.width)

lemma entered_entered : entered (tr ++ [Event.entered x]) = entered tr ++ [x] := List.filterMap_append

lemma entered_delivered : entered (tr ++ [Event.delivered x]) = entered tr := by
  rw [entered, List.filterMap_append]
  exact List.append_nil _

lemma delivered_entered : delivered (tr ++ [Event.entered x]) = delivered tr := by
  rw [delivered, List.filterMap_append]
  exact List.append_nil _

lemma delivered_delivered : delivered (tr ++ [Event.delivered x]) = delivered tr ++ [x] := List.filterMap_append

end Traces

/-- What came in has been taken, or is under way. -/
def Tracks (tr : List (Event c)) (s : SerialFIFO c) : Prop := ∃ l, s.Holds l ∧ delivered tr ++ l = entered tr

variable {tr es : List (Event c)}

/-- **What a step does.** -/
lemma Tracks.step (h : Tracks tr s) {a : Action c} (hs : s.step a = some (s', es)) : Tracks (tr ++ es) s' := by
  obtain ⟨l, hl, htr⟩ := h
  cases a with
  | enq x =>
    simp only [SerialFIFO.step, Option.map_eq_some_iff, Prod.mk.injEq] at hs
    obtain ⟨s₁, henq, rfl, rfl⟩ := hs
    refine ⟨l ++ [x], hl.enq henq, ?_⟩
    rw [entered_entered, delivered_entered, ← htr, List.append_assoc]
  | movebits =>
    simp only [SerialFIFO.step, Option.map_eq_some_iff, Prod.mk.injEq] at hs
    obtain ⟨s₁, hmove, rfl, rfl⟩ := hs
    rw [List.append_nil]
    exact ⟨l, hl.movebits hmove, htr⟩
  | deq =>
    simp only [SerialFIFO.step, Option.map_eq_some_iff, Prod.exists, Prod.mk.injEq] at hs
    obtain ⟨x, s₁, hdeq, rfl, rfl⟩ := hs
    obtain ⟨l', rfl, hl'⟩ := hl.deq hdeq
    refine ⟨l', hl', ?_⟩
    rw [entered_delivered, delivered_delivered, ← htr, List.append_assoc, List.singleton_append]

lemma tracks_of_reaches (h : (serialFIFO c).Reaches empty tr s) : Tracks tr s :=
  h.invariant ⟨[], holds_empty, rfl⟩ fun ht hs => ht.step hs

/-- The bits that are still to be moved count twice. -/
def left (s : SerialFIFO c) : ℕ := 2 * s.tx.items.length + s.rx.items.length

/-- Without new words there is less left after every step. -/
lemma left_lt {a : Action c} (ha : a.quiet = true) (hs : s.step a = some (s', es)) : s'.left < s.left := by
  cases a with
  | enq x => cases ha
  | movebits =>
    simp only [SerialFIFO.step, Option.map_eq_some_iff, Prod.mk.injEq] at hs
    obtain ⟨s₁, hmove, rfl, rfl⟩ := hs
    obtain ⟨b, htx, hrx⟩ := movebits_eq_some hmove
    rw [left, left, htx, hrx, List.length_cons, List.length_append, List.length_singleton]
    omega
  | deq =>
    simp only [SerialFIFO.step, Option.map_eq_some_iff, Prod.exists, Prod.mk.injEq] at hs
    obtain ⟨x, s₁, hdeq, rfl, rfl⟩ := hs
    obtain ⟨hle, -, hrx, htx⟩ := deq_eq_some hdeq
    have hpos := c.width_pos
    rw [left, left, hrx, htx, List.length_drop]
    omega

/-- A quiet step adds no word. -/
lemma entered_quiet {a : Action c} (ha : a.quiet = true) (hs : s.step a = some (s', es)) :
    entered (tr ++ es) = entered tr := by
  cases a with
  | enq x => cases ha
  | movebits =>
    simp only [SerialFIFO.step, Option.map_eq_some_iff, Prod.mk.injEq] at hs
    obtain ⟨s₁, -, -, rfl⟩ := hs
    rw [List.append_nil]
  | deq =>
    simp only [SerialFIFO.step, Option.map_eq_some_iff, Prod.exists, Prod.mk.injEq] at hs
    obtain ⟨x, s₁, -, -, rfl⟩ := hs
    exact entered_delivered _ _

/-- **The queue keeps its words**: in every run the words that were taken are the first ones that came in, and every
continuation without new words ends, with all of them taken. -/
theorem serial_delivers (c : SerialConfig) {tr : List (Event c)} {s : SerialFIFO c} (h : (serialFIFO c).Reaches empty tr s) :
    delivered tr <+: entered tr ∧
      ((serialFIFO c).guard fun _ a => a.quiet = true).Ends (fun tr' _ => delivered tr' = entered tr) tr s := by
  have htracks := tracks_of_reaches h
  refine ⟨?_, RuleSystem.Ends.of_bound (I := fun n us s => s.left = n ∧ Tracks us s ∧ entered us = entered tr) ?_ ?_
    ⟨rfl, htracks, rfl⟩⟩
  · obtain ⟨l, -, htr⟩ := htracks
    exact ⟨l, htr⟩
  · rintro n us s a s' es ⟨rfl, hus, heq⟩ hs
    obtain ⟨ha, hs⟩ := RuleSystem.guard_step.mp hs
    exact ⟨s'.left, left_lt ha hs, rfl, hus.step hs, (entered_quiet ha hs).trans heq⟩
  · -- where nothing can be done, nothing is under way
    rintro n us s ⟨-, ⟨l, hl, htr⟩, heq⟩ hstuck
    have hnone (a : Action c) (ha : a.quiet = true) : s.step a = none := by
      by_contra hne
      obtain ⟨⟨s', es⟩, hs⟩ := Option.ne_none_iff_exists'.mp hne
      have hguard := RuleSystem.guard_step (M := serialFIFO c) (C := fun _ a => a.quiet = true).mpr ⟨ha, hs⟩
      rw [hstuck a] at hguard
      cases hguard
    have hrx : s.rx.items.length < c.width := by
      by_contra hle
      obtain ⟨x, s', hdeq⟩ := exists_deq (Nat.le_of_not_lt hle)
      have h := hnone .deq rfl
      rw [SerialFIFO.step, hdeq] at h
      cases h
    have hnil : l = [] := by
      by_contra hne
      obtain ⟨s', hmove⟩ := hl.exists_movebits hne hrx
      have h := hnone .movebits rfl
      rw [SerialFIFO.step, hmove] at h
      cases h
    rw [← heq, ← htr, hnil, List.append_nil]

/-- Words of three bits. -/
abbrev threeBits : SerialConfig := ⟨3, 6, 6, by decide, by decide, by decide⟩

def twoWords :=
  (serialFIFO threeBits).run empty
    [.enq 5#3, .movebits, .movebits, .enq 6#3, .movebits, .movebits, .deq]

theorem serial_delivers_twoWords : delivered twoWords.2 = [5#3] ∧ entered twoWords.2 = [5#3, 6#3] ∧
    delivered twoWords.2 <+: entered twoWords.2 :=
  ⟨by decide, by decide, (serial_delivers threeBits (RuleSystem.reaches_run _ _)).1⟩

end SerialFIFO

end Xbsv
