import Xbsv.Rules.System
import Xbsv.Serial.SpiTap

set_option relaxedAutoImplicit false
set_option autoImplicit false

/-!
# `examples/serialconfig`

A root sends messages over the bus, through a chain of registers and back. What comes back are the answers of a register
file, as long as there is room for each of them in its queue.

## Main definitions

* `Xbsv.SpiRoot` — the root.
* `Xbsv.serialconfig` — the root and its registers, cycle by cycle.
* `Xbsv.answersOf` — what a register file answers.

## Main results

* `Xbsv.Serialconfig.serialconfig_answers` — the answers are those of a register file.
-/

namespace Xbsv

open Rules

/-! ## The source -/

/-- The queues and the registers of `mkSpiRoot`. -/
structure SpiRoot where
  request : List SpiItem
  response : List SpiItem
  countin : BitVec 6
  countout : BitVec 6
  shifter : BitVec 64

/-- What happens in a cycle: `send` of the request interface, and whether the rule `getresults` fires. -/
structure BusCycle where
  send : Option SpiItem
  getresults : Bool

namespace SpiRoot

/-- The bit that the rule `send_item` sends. -/
def bit (x : SpiItem) (countin : BitVec 6) : Bool :=
  if countin < 32 then x.a.getLsbD (countin &&& 31).toNat else x.d.getLsbD (countin &&& 31).toNat

/-- What `send_item` and `genframe` put on the bus, where `data` is what was on it before. -/
def drive (s : SpiRoot) (data : Bool) : Wire :=
  match s.request with
  | [] => ⟨false, data⟩
  | x :: _ => ⟨true, bit x s.countin⟩

/-- What `handleFrame` makes of the shifter. -/
def tmp (s : SpiRoot) (o : Wire) : BitVec 64 := if o.frame then shiftIn s.shifter o.data else 0

/-- There is room for a message that is complete. -/
def Room (s : SpiRoot) : Prop := s.countout = 63 → s.response.length < 8

instance (s : SpiRoot) : Decidable s.Room := inferInstanceAs (Decidable (_ → _))

/-- The rule `handleFrame`. It is compiled with `-aggressive-conditions`, and needs room in its queue only when a message
is complete. -/
def handleFrame (s : SpiRoot) (o : Wire) : SpiRoot :=
  if s.Room then
    { s with
      countout := if o.frame then s.countout + 1 else 0
      shifter := if o.frame then s.tmp o else s.shifter
      response := s.response ++ if s.countout = 63 then
        [⟨(s.tmp o).extractLsb' 0 32, (s.tmp o).extractLsb' 32 32⟩] else [] }
  else s

/-- The rule `send_item`. -/
def sendItem (s : SpiRoot) : SpiRoot :=
  match s.request with
  | [] => s
  | _ :: rest => { s with countin := s.countin + 1, request := if s.countin = 63 then rest else s.request }

/-- The rules of a cycle, with the calls of the methods. -/
def clock (s : SpiRoot) (o : Wire) (c : BusCycle) : SpiRoot where
  request := s.sendItem.request ++ c.send.toList
  response := if c.getresults then (s.handleFrame o).response.tail else (s.handleFrame o).response
  countin := s.sendItem.countin
  countout := (s.handleFrame o).countout
  shifter := (s.handleFrame o).shifter

end SpiRoot

/-- A register of the bus: its address, and its width. -/
structure Tap where
  id : BitVec 32
  asize : ℕ
  asize_le : asize ≤ 32

/-- `mkSerialconfigRequest` with any registers. -/
structure Serialconfig where
  root : SpiRoot
  taps : List SpiReg

namespace Serialconfig

/-- The registers of `mkSerialconfigRequest`. -/
def mkTaps : List Tap :=
  [⟨0x11110000, 32, by decide⟩, ⟨0x22220000, 24, by decide⟩, ⟨0x33330000, 16, by decide⟩, ⟨0x44440000, 8, by decide⟩]

/-- After reset. -/
def reset (ts : List Tap) : Serialconfig := ⟨⟨[], [], 0, 0, 0⟩, ts.map fun t => .init t.id t.asize⟩

/-- Calls of `send`, and of `ack`. -/
inductive Event
  | sent (x : SpiItem)
  | acked (x : SpiItem)

/-- What comes into the first register. -/
def input (s : Serialconfig) : Wire := s.root.drive ((s.taps.head?.map SpiReg.datainbit).getD false)

/-- A cycle, if the methods that are called are ready. -/
def step (s : Serialconfig) (c : BusCycle) : Option (Serialconfig × List Event) :=
  if (c.send ≠ none → s.root.request.length < 8) ∧ (c.getresults = true → s.root.response ≠ []) then
    some (⟨s.root.clock (spiRelay.cycle s.taps s.input).2 c, (spiRelay.cycle s.taps s.input).1⟩,
      (if c.getresults then s.root.response.head?.toList else []).map .acked ++ c.send.toList.map .sent)
  else none

def sentItems (tr : List Event) : List SpiItem :=
  tr.filterMap fun
    | .sent x => some x
    | .acked _ => none

def ackedItems (tr : List Event) : List SpiItem :=
  tr.filterMap fun
    | .sent _ => none
    | .acked x => some x

end Serialconfig

/-- `mkSerialconfigRequest`. -/
def serialconfig : RuleSystem Serialconfig BusCycle Serialconfig.Event where
  step s c := s.step c

/-- The runs in which there is always room for an answer. Without it, the last bit of the answer is lost. -/
def serialconfigWithRoom : RuleSystem Serialconfig BusCycle Serialconfig.Event :=
  serialconfig.guard fun s _ => s.root.Room

/-! ## Register files -/

/-- A register with its value. -/
structure Register where
  id : BitVec 32
  asize : ℕ
  value : BitVec asize

/-- What is answered to a message, and the values after it. -/
def access : List Register → SpiItem → List Register × SpiItem
  | [], x => ([], x)
  | r :: rs, x =>
    ({ r with value := SpiReg.update r.id r.value x } :: (access rs (SpiReg.respond r.id r.value x)).1,
      (access rs (SpiReg.respond r.id r.value x)).2)

/-- What is answered to messages. -/
def answersOf : List Register → List SpiItem → List SpiItem
  | _, [] => []
  | rs, x :: xs => (access rs x).2 :: answersOf (access rs x).1 xs

lemma answersOf_cons (r : Register) (rs : List Register) (xs : List SpiItem) :
    answersOf (r :: rs) xs = answersOf rs (SpiReg.responses r.id r.value xs) := by
  induction xs generalizing r rs with
  | nil => rfl
  | cons x xs ih => rw [answersOf, access, ih, SpiReg.responses, answersOf]

lemma answersOf_nil (xs : List SpiItem) : answersOf [] xs = xs := by
  induction xs with
  | nil => rfl
  | cons x xs ih => rw [answersOf, access, ih]

/-- What is answered to more messages starts in the same way. -/
lemma answersOf_isPrefix {rs : List Register} {xs ys : List SpiItem} (h : xs <+: ys) :
    answersOf rs xs <+: answersOf rs ys := by
  obtain ⟨zs, rfl⟩ := h
  induction xs generalizing rs with
  | nil => exact List.nil_prefix
  | cons x xs ih =>
    rw [List.cons_append, answersOf, answersOf]
    exact (List.prefix_cons_inj _).mpr ih

/-- **A chain of registers is a register file.** -/
theorem answers_items (ts : List SpiReg) (m : Messages) :
    (spiRelay.answers ts m).items = answersOf (ts.map fun t => ⟨t.id, t.asize, 0⟩) m.items := by
  induction ts generalizing m with
  | nil => exact (answersOf_nil _).symm
  | cons t ts ih =>
    rw [Relay.answers, ih, List.map_cons, answersOf_cons]
    rfl

/-! ## The bits of a message -/

/-- In the order in which they go over the bus. -/
def itemBits (x : SpiItem) : List Bool := bitsOf x.a ++ bitsOf x.d

lemma length_itemBits (x : SpiItem) : (itemBits x).length = 64 := by
  rw [itemBits, List.length_append, length_bitsOf, length_bitsOf]

open Messages in
lemma itemOf_itemBits (x : SpiItem) : itemOf (itemBits x) = x := by
  rw [itemOf, itemBits, List.take_left' (length_bitsOf _), List.drop_left' (length_bitsOf _), wordOfBits_bitsOf,
    wordOfBits_bitsOf]

lemma getElem?_bitsOf {w : ℕ} (x : BitVec w) {i : ℕ} (hi : i < w) : (bitsOf x)[i]? = some (x.getLsbD i) := by
  rw [List.getElem?_eq_getElem (by rwa [length_bitsOf]), BitVec.getLsbD_eq_getElem hi]
  simp [bitsOf]

lemma getElem?_itemBits (x : SpiItem) (c : BitVec 6) : (itemBits x)[c.toNat]? = some (SpiRoot.bit x c) := by
  have hc := c.isLt
  have hlt : c < 32 ↔ c.toNat < 32 := BitVec.lt_def
  rw [itemBits, SpiRoot.bit, SpiReg.toNat_and_thirtyOne]
  split
  case isTrue h =>
    have h := hlt.mp h
    rw [List.getElem?_append_left (by rwa [length_bitsOf]), getElem?_bitsOf _ h, Nat.mod_eq_of_lt h]
  case isFalse h =>
    have h := Nat.le_of_not_lt (mt hlt.mpr h)
    rw [List.getElem?_append_right (by rwa [length_bitsOf]), length_bitsOf, getElem?_bitsOf _ (by omega)]
    congr 2
    omega

lemma getLsbD_wordOfBits (w : ℕ) (p : List Bool) (i : ℕ) :
    (wordOfBits w p).getLsbD i = (decide (i < w) && p.getD i false) := by
  rw [wordOfBits, BitVec.getLsbD_setWidth, BitVec.getLsbD_ofBoolListLE]

/-- Where the words are in a shifter. -/
lemma extractLsb'_wordOfBits {k : ℕ} (p : List Bool) (hk : k + 32 ≤ 64) :
    (wordOfBits 64 p).extractLsb' k 32 = wordOfBits 32 (p.drop k) := by
  refine BitVec.eq_of_getLsbD_eq fun i hi => ?_
  rw [BitVec.getLsbD_extractLsb', getLsbD_wordOfBits, getLsbD_wordOfBits, List.getD_eq_getElem?_getD,
    List.getD_eq_getElem?_getD, List.getElem?_drop, decide_eq_true hi, decide_eq_true (by omega : k + i < 64)]
  rfl

lemma wordOfBits_take (w : ℕ) (p : List Bool) : wordOfBits w (p.take w) = wordOfBits w p := by
  refine BitVec.eq_of_getLsbD_eq fun i hi => ?_
  rw [getLsbD_wordOfBits, getLsbD_wordOfBits, List.getD_eq_getElem?_getD, List.getD_eq_getElem?_getD,
    List.getElem?_take_of_lt hi]

namespace SpiRoot

open Messages

variable {s : SpiRoot} {m m' n n' : Messages} {xs : List SpiItem} {o : Wire}

/-! ## The root -/

/-- What is to be sent: `m` has gone into the chain, of all messages `xs`. -/
structure Fed (xs : List SpiItem) (s : SpiRoot) (m : Messages) : Prop where
  items : m.items ++ s.request = xs
  countin : s.countin.toNat = m.bits.length
  bits : m.bits = (s.request.head?.elim [] itemBits).take m.bits.length

/-- What has come back: `n` from the chain, and the answers `xs` are taken. -/
structure Drained (xs : List SpiItem) (s : SpiRoot) (n : Messages) : Prop where
  items : xs ++ s.response = n.items
  countout : s.countout.toNat = n.bits.length
  shifter : Shifted s.shifter n.bits

/-- The bit that is sent belongs to the message. -/
lemma Fed.bits_concat (h : Fed xs s m) {x : SpiItem} {rest : List SpiItem} (hr : s.request = x :: rest) :
    m.bits ++ [bit x s.countin] = (itemBits x).take (m.bits.length + 1) := by
  have hbits := h.bits
  rw [hr] at hbits
  rw [List.take_add_one, ← h.countin, getElem?_itemBits, h.countin]
  exact congrArg (· ++ _) hbits

lemma sendItem_of_cons {x : SpiItem} {rest : List SpiItem} (hr : s.request = x :: rest) :
    s.sendItem = { s with countin := s.countin + 1, request := if s.countin = 63 then rest else x :: rest } := by
  simp only [sendItem, hr]

/-- One more symbol into the chain. -/
lemma Fed.sendItem (h : Fed xs s m) (d : Bool) : ∃ m', m.read (s.drive d) = some m' ∧ Fed xs s.sendItem m' := by
  have hlength : m.bits.length < 64 := h.countin ▸ s.countin.isLt
  cases hr : s.request with
  | nil =>
    have hbits := h.bits
    rw [hr, List.head?_nil, Option.elim_none, List.take_nil] at hbits
    refine ⟨m, ?_, ?_⟩
    · rw [drive, hr]
      exact (read_eq_some_of_not_frame rfl).mpr ⟨hbits, rfl⟩
    · rwa [SpiRoot.sendItem, hr]
  | cons x rest =>
    have hbit := h.bits_concat hr
    have hitems := h.items
    have h63 : s.countin = 63 ↔ m.bits.length = 63 := by
      rw [← h.countin, ← BitVec.toNat_inj]
      rfl
    rw [hr] at hitems
    refine ⟨m.next (bit x s.countin), ?_, ?_⟩
    · rw [drive, hr]
      exact read_of_frame rfl
    · rw [sendItem_of_cons hr, next]
      by_cases hlen : m.bits.length = 63
      · rw [hlen, List.take_of_length_le (Nat.le_of_eq (length_itemBits x))] at hbit
        rw [if_pos hlen, if_pos (h63.mpr hlen), hbit, itemOf_itemBits]
        refine ⟨?_, ?_, rfl⟩
        · rw [List.append_assoc]
          exact hitems
        · show (s.countin + 1).toNat = 0
          rw [h63.mpr hlen]
          rfl
      · have hnext : (m.bits ++ [bit x s.countin]).length = m.bits.length + 1 := List.length_append
        rw [if_neg hlen, if_neg (mt h63.mp hlen)]
        refine ⟨hitems, ?_, ?_⟩
        · show (s.countin + 1).toNat = (m.bits ++ [bit x s.countin]).length
          rw [SpiReg.toNat_add_one (mt h63.mp hlen), h.countin, hnext]
        · show m.bits ++ [bit x s.countin] = (itemBits x).take (m.bits ++ [bit x s.countin]).length
          rw [hnext, hbit]

/-- A message is put at the end of the queue. -/
lemma Fed.clock (h : Fed xs s.sendItem m) (o : Wire) (c : BusCycle) : Fed (xs ++ c.send.toList) (s.clock o c) m := by
  refine ⟨?_, h.countin, ?_⟩
  · show m.items ++ (s.sendItem.request ++ c.send.toList) = _
    rw [← List.append_assoc, h.items]
  · show m.bits = ((s.sendItem.request ++ c.send.toList).head?.elim [] itemBits).take m.bits.length
    have hbits := h.bits
    cases hr : s.sendItem.request with
    | nil =>
      rw [hr, List.head?_nil, Option.elim_none, List.take_nil] at hbits
      rw [hbits, List.length_nil, List.take_zero]
    | cons x rest =>
      rw [hr] at hbits
      exact hbits

/-- A complete message is in the shifter. -/
lemma Drained.tmp_eq (h : Drained xs s n) (hframe : o.frame = true) (hlen : n.bits.length = 63) :
    (⟨(s.tmp o).extractLsb' 0 32, (s.tmp o).extractLsb' 32 32⟩ : SpiItem) = itemOf (n.bits ++ [o.data]) := by
  have htmp : s.tmp o = wordOfBits 64 (n.bits ++ [o.data]) := by
    rw [tmp, if_pos hframe]
    refine Shifted.eq_wordOfBits (p := []) (h.shifter.concat _) ?_
    rw [List.length_append, hlen, List.length_singleton]
  rw [htmp, extractLsb'_wordOfBits _ (by omega), extractLsb'_wordOfBits _ (by omega), itemOf, List.drop_zero,
    wordOfBits_take]

/-- One more symbol from the chain. -/
lemma Drained.handleFrame (h : Drained xs s n) (hroom : s.Room) (hread : n.read o = some n') :
    Drained xs (s.handleFrame o) n' := by
  have hlength : n.bits.length < 64 := h.countout ▸ s.countout.isLt
  have h63 : s.countout = 63 ↔ n.bits.length = 63 := by
    rw [← h.countout, ← BitVec.toNat_inj]
    rfl
  rw [SpiRoot.handleFrame, if_pos hroom]
  cases hframe : o.frame with
  | false =>
    obtain ⟨hbits, rfl⟩ := (read_eq_some_of_not_frame hframe).mp hread
    have hne : s.countout ≠ 63 := by
      rw [Ne, h63, hbits]
      decide
    refine ⟨?_, ?_, h.shifter⟩
    · show xs ++ (s.response ++ if s.countout = 63 then _ else _) = _
      rw [if_neg hne, List.append_nil, h.items]
    · rw [hbits]
      rfl
  | true =>
    rw [read_of_frame hframe, Option.some.injEq, next] at hread
    subst hread
    have hshifter : Shifted (s.tmp o) (n.bits ++ [o.data]) := by
      rw [tmp, if_pos hframe]
      exact h.shifter.concat _
    by_cases hlen : n.bits.length = 63
    · rw [if_pos hlen, if_pos (h63.mpr hlen), h.tmp_eq hframe hlen]
      refine ⟨?_, ?_, .nil _⟩
      · rw [← List.append_assoc, h.items]
      · show (s.countout + 1).toNat = 0
        rw [h63.mpr hlen]
        rfl
    · rw [if_neg hlen, if_neg (mt h63.mp hlen), List.append_nil]
      refine ⟨h.items, ?_, hshifter⟩
      show (s.countout + 1).toNat = (n.bits ++ [o.data]).length
      rw [SpiReg.toNat_add_one (mt h63.mp hlen), h.countout, List.length_append, List.length_singleton]

lemma Drained.clock (h : Drained xs s n) (hroom : s.Room) (hread : n.read o = some n') {c : BusCycle}
    (hget : c.getresults = true → s.response ≠ []) :
    Drained (xs ++ if c.getresults then s.response.head?.toList else []) (s.clock o c) n' := by
  have hframe := h.handleFrame hroom hread
  refine ⟨?_, hframe.countout, hframe.shifter⟩
  have hitems := hframe.items
  rw [SpiRoot.clock]
  cases hc : c.getresults with
  | false =>
    simp only [Bool.false_eq_true, if_false, List.append_nil]
    exact hitems
  | true =>
    obtain ⟨y, ys, hy⟩ := List.exists_cons_of_ne_nil (hget hc)
    rw [SpiRoot.handleFrame, if_pos hroom, hy] at hitems
    simp only [if_true]
    rw [SpiRoot.handleFrame, if_pos hroom, hy, ← hitems, List.append_assoc]
    rfl

lemma length_handleFrame (h : s.Room) (o : Wire) :
    (s.handleFrame o).response.length = s.response.length + if s.countout = 63 then 1 else 0 := by
  rw [SpiRoot.handleFrame, if_pos h, List.length_append]
  split <;> rfl

/-- The queue is not overfull. -/
lemma length_clock_le (h : s.Room) (hfull : s.response.length ≤ 8) (o : Wire) (c : BusCycle) :
    (s.clock o c).response.length ≤ 8 := by
  have hlen : (s.handleFrame o).response.length ≤ 8 := by
    rw [length_handleFrame h]
    split
    case isTrue hlast => exact h hlast
    case isFalse => exact hfull
  rw [SpiRoot.clock]
  split
  · rw [List.length_tail]
    exact (Nat.sub_le _ _).trans hlen
  · exact hlen

end SpiRoot

namespace Serialconfig

open SpiRoot

variable {s s' : Serialconfig} {tr es : List Event} {rs : List Register}

/-! ## Runs -/

@[simp] lemma sentItems_append (tr es : List Event) : sentItems (tr ++ es) = sentItems tr ++ sentItems es :=
  List.filterMap_append

@[simp] lemma ackedItems_append (tr es : List Event) : ackedItems (tr ++ es) = ackedItems tr ++ ackedItems es :=
  List.filterMap_append

lemma sentItems_events (xs ys : List SpiItem) : sentItems (xs.map .acked ++ ys.map .sent) = ys := by
  simp [sentItems, List.filterMap_map]

lemma ackedItems_events (xs ys : List SpiItem) : ackedItems (xs.map .acked ++ ys.map .sent) = xs := by
  simp [ackedItems, List.filterMap_map]

/-- What has been sent is on its way through the chain, which answers as the register file does. -/
structure Running (rs : List Register) (tr : List Event) (s : Serialconfig) (m n : Messages) : Prop where
  carries : spiRelay.Carries s.taps m n
  fed : Fed (sentItems tr) s.root m
  drained : Drained (ackedItems tr) s.root n
  answers : ∀ m, (spiRelay.answers s.taps m).items = answersOf rs m.items
  full : s.root.response.length ≤ 8

lemma carries_init (ts : List Tap) :
    spiRelay.Carries (ts.map fun t => SpiReg.init t.id t.asize) ⟨[], []⟩ ⟨[], []⟩ := by
  induction ts with
  | nil => exact .nil _
  | cons t ts ih =>
    have hanswer : spiRelay.answer (SpiReg.init t.id t.asize) ⟨[], []⟩ = ⟨[], []⟩ := by
      show SpiReg.answer _ _ = _
      simp [SpiReg.answer, SpiReg.responses, SpiReg.respondBits]
    refine .cons (m := (⟨[], []⟩ : Messages)) ?_ rfl (by rwa [hanswer])
    exact ⟨t.asize_le, by decide, rfl, .nil _, fun hle => absurd hle (Nat.not_succ_le_zero 31),
      fun hle => absurd hle (Nat.not_succ_le_zero 31), rfl⟩

lemma Running.reset (ts : List Tap) : Running (ts.map fun t => ⟨t.id, t.asize, 0⟩) [] (reset ts) ⟨[], []⟩ ⟨[], []⟩ := by
  refine ⟨carries_init ts, ⟨rfl, rfl, rfl⟩, ⟨rfl, rfl, .nil _⟩, fun m => ?_, Nat.zero_le _⟩
  rw [answers_items, Serialconfig.reset, List.map_map]
  rfl

lemma Running.step {m n : Messages} (h : Running rs tr s m n) (hroom : s.root.Room) {c : BusCycle}
    (hs : serialconfig.step s c = some (s', es)) : ∃ m' n', Running rs (tr ++ es) s' m' n' := by
  simp only [serialconfig, Serialconfig.step] at hs
  split at hs
  case isFalse => cases hs
  case isTrue hready =>
    cases hs
    obtain ⟨m', hm', hfed⟩ := h.fed.sendItem ((s.taps.head?.map SpiReg.datainbit).getD false)
    obtain ⟨n', hn', hcarries⟩ := h.carries.cycle (i := s.input) hm'
    refine ⟨m', n', hcarries, ?_, ?_, fun m => ?_, length_clock_le hroom h.full _ c⟩
    · rw [sentItems_append, sentItems_events]
      exact hfed.clock _ c
    · rw [ackedItems_append, ackedItems_events]
      exact h.drained.clock hroom hn' hready.2
    · rw [Relay.answers_cycle, h.answers]

/-- Nothing is on its way. -/
structure Quiet (s : Serialconfig) : Prop where
  request : s.root.request = []
  taps : ∀ t ∈ s.taps, t.frameinbit = false

/-- What has been answered is right, and no answer is missing when nothing is on its way. -/
lemma Running.acked_isPrefix {m n : Messages} (h : Running rs tr s m n) :
    ackedItems tr <+: answersOf rs (sentItems tr) := by
  have hsent : m.items <+: sentItems tr := ⟨_, h.fed.items⟩
  have hacked : ackedItems tr <+: n.items := ⟨_, h.drained.items⟩
  have hle : n.items <+: (spiRelay.answers s.taps m).items := h.carries.le
  rw [h.answers] at hle
  exact (hacked.trans hle).trans (answersOf_isPrefix hsent)

lemma Running.acked_of_quiet {m n : Messages} (h : Running rs tr s m n) (hq : s.Quiet) :
    ackedItems tr ++ s.root.response = answersOf rs (sentItems tr) := by
  have hitems := h.fed.items
  rw [hq.request, List.append_nil] at hitems
  rw [h.drained.items, h.carries.eq_answers hq.taps, h.answers, hitems]

/-! ## Without new messages -/

/-- A cycle without a new message, in which an answer is taken if there is one. -/
def rest (s : Serialconfig) : BusCycle := ⟨none, !s.root.response.isEmpty⟩

/-- The state after it. -/
def rested (s : Serialconfig) : Serialconfig :=
  ⟨s.root.clock (spiRelay.cycle s.taps s.input).2 s.rest, (spiRelay.cycle s.taps s.input).1⟩

lemma getresults_rest : s.rest.getresults = true ↔ s.root.response ≠ [] := by
  simp [rest]

lemma step_rest (s : Serialconfig) :
    serialconfig.step s s.rest = some (s.rested, s.root.response.head?.toList.map .acked) := by
  cases hr : s.root.response with
  | nil => simp [serialconfig, Serialconfig.step, rest, rested, hr]
  | cons x xs => simp [serialconfig, Serialconfig.step, rest, rested, hr]

lemma request_rested (s : Serialconfig) : s.rested.root.request = s.root.sendItem.request := List.append_nil _

/-- There is room after it. -/
lemma room_rested (hroom : s.root.Room) (hfull : s.root.response.length ≤ 8) : s.rested.root.Room := by
  intro _
  have hlen := length_handleFrame hroom (spiRelay.cycle s.taps s.input).2
  show (if s.rest.getresults = true then (s.root.handleFrame (spiRelay.cycle s.taps s.input).2).response.tail
    else (s.root.handleFrame (spiRelay.cycle s.taps s.input).2).response).length < 8
  by_cases hr : s.root.response = []
  · rw [if_neg (mt getresults_rest.mp (not_not_intro hr)), hlen, hr, List.length_nil]
    split <;> decide
  · rw [if_pos (getresults_rest.mpr hr), List.length_tail, hlen]
    split
    case isTrue hlast =>
      have hlt := hroom hlast
      omega
    case isFalse => omega

lemma Running.rested {m n : Messages} (h : Running rs tr s m n) (hroom : s.root.Room) :
    ∃ es m' n', serialconfigWithRoom.step s s.rest = some (s.rested, es) ∧ sentItems es = [] ∧
      ackedItems es = s.root.response.head?.toList ∧ Running rs (tr ++ es) s.rested m' n' := by
  obtain ⟨m', n', h'⟩ := h.step hroom s.step_rest
  refine ⟨_, m', n', RuleSystem.guard_step.mpr ⟨hroom, s.step_rest⟩, ?_, ?_, h'⟩
  · simpa using sentItems_events s.root.response.head?.toList []
  · simpa using ackedItems_events s.root.response.head?.toList []

/-- Everything gets through the chain; `k` registers are free, none of them before all has been sent. -/
lemma Running.exists_quiet {m n : Messages} (h : Running rs tr s m n) (hroom : s.root.Room) {k N : ℕ}
    (hk : ∀ t ∈ s.taps.take k, t.frameinbit = false) (hzero : s.root.request ≠ [] → k = 0)
    (hN : 64 * s.root.request.length - s.root.countin.toNat + (s.taps.length - k) ≤ N) :
    ∃ tr' s' m' n', serialconfigWithRoom.Reaches s tr' s' ∧ sentItems tr' = [] ∧ Running rs (tr ++ tr') s' m' n' ∧
      s'.root.Room ∧ s'.Quiet := by
  have hcountin := s.root.countin.isLt
  induction N generalizing s tr m n k with
  | zero =>
    refine ⟨[], s, m, n, .refl, rfl, by rwa [List.append_nil], hroom, ?_, ?_⟩
    · exact List.length_eq_zero_iff.mp (by omega)
    · rwa [List.take_of_length_le (by omega)] at hk
  | succ N ih =>
    obtain ⟨es, m₁, n₁, hs, hsent, -, h₁⟩ := h.rested hroom
    have hroom₁ := room_rested hroom h.full
    have hlength : s.rested.taps.length = s.taps.length := Relay.length_cycle _ _
    suffices hnext : ∃ k', (∀ t ∈ s.rested.taps.take k', t.frameinbit = false) ∧ (s.rested.root.request ≠ [] → k' = 0) ∧
        64 * s.rested.root.request.length - s.rested.root.countin.toNat + (s.rested.taps.length - k') ≤ N by
      obtain ⟨k', hk', hzero', hN'⟩ := hnext
      obtain ⟨tr', s', m', n', hreach, hsent', h', hq⟩ := ih h₁ hroom₁ hk' hzero' hN' s.rested.root.countin.isLt
      refine ⟨es ++ tr', s', m', n', (RuleSystem.Reaches.single _ hs).trans hreach, ?_, ?_, hq⟩
      · rw [sentItems_append, hsent, hsent', List.append_nil]
      · rwa [← List.append_assoc]
    rw [hlength, request_rested]
    cases hr : s.root.request with
    | nil =>
      have hidle : s.input.frame = false := by rw [input, drive, hr]
      have hsend : s.root.sendItem = s.root := by rw [SpiRoot.sendItem, hr]
      refine ⟨k + 1, Relay.idle_cycle (S := spiRelay) hk hidle, ?_, ?_⟩
      · rw [hsend, hr]
        exact fun hne => absurd rfl hne
      · rw [hsend, hr, List.length_nil]
        rw [hr, List.length_nil] at hN
        omega
    | cons x rest =>
      obtain rfl := hzero (by rw [hr]; exact List.cons_ne_nil _ _)
      refine ⟨0, fun t ht => absurd ht List.not_mem_nil, fun _ => rfl, ?_⟩
      show 64 * s.root.sendItem.request.length - s.root.sendItem.countin.toNat + _ ≤ N
      rw [sendItem_of_cons hr]
      rw [hr, List.length_cons] at hN
      by_cases hlast : s.root.countin = 63
      · rw [hlast] at hN
        simp only [if_pos hlast]
        have h63 : (63 : BitVec 6).toNat = 63 := rfl
        omega
      · simp only [if_neg hlast, SpiReg.toNat_add_one hlast, List.length_cons]
        omega

lemma Quiet.rested (hq : s.Quiet) : s.rested.Quiet where
  request := by rw [request_rested, SpiRoot.sendItem, hq.request]; exact hq.request
  taps := by
    have hidle : s.input.frame = false := by rw [input, drive, hq.request]
    have htaps : ∀ t ∈ s.rested.taps.take (s.taps.length + 1), t.frameinbit = false :=
      Relay.idle_cycle (S := spiRelay) (fun t ht => hq.taps t (List.mem_of_mem_take ht)) hidle
    have hlength : s.rested.taps.length = s.taps.length := Relay.length_cycle _ _
    rwa [List.take_of_length_le (by omega)] at htaps

/-- When nothing is on its way any more, all answers can be taken. -/
lemma Running.exists_acked {m n : Messages} (h : Running rs tr s m n) (hroom : s.root.Room)
    (hq : s.Quiet) : ∃ tr' s', serialconfigWithRoom.Reaches s tr' s' ∧ sentItems tr' = [] ∧
      ackedItems (tr ++ tr') = answersOf rs (sentItems tr) := by
  induction hN : s.root.response.length generalizing s tr m n with
  | zero =>
    have hacked := h.acked_of_quiet hq
    rw [List.length_eq_zero_iff.mp hN, List.append_nil] at hacked
    exact ⟨[], s, .refl, rfl, by rwa [List.append_nil]⟩
  | succ N ih =>
    obtain ⟨es, m₁, n₁, hs, hsent, hacked, h₁⟩ := h.rested hroom
    obtain ⟨x, xs, hx⟩ := List.exists_cons_of_length_eq_add_one hN
    -- the answers are the same, and one more of them has been taken
    have hN₁ : s.rested.root.response.length = N := by
      have hbefore := congrArg List.length (h.acked_of_quiet hq)
      have hafter := congrArg List.length (h₁.acked_of_quiet hq.rested)
      rw [sentItems_append, hsent, List.append_nil, ackedItems_append, hacked, hx] at hafter
      simp only [List.length_append, List.head?_cons, Option.toList_some, List.length_singleton] at hbefore hafter
      omega
    obtain ⟨tr', s', hreach, hsent', hacked'⟩ := ih h₁ (room_rested hroom h.full) hq.rested hN₁
    refine ⟨es ++ tr', s', (RuleSystem.Reaches.single _ hs).trans hreach, ?_, ?_⟩
    · rw [sentItems_append, hsent, hsent', List.append_nil]
    · rw [← List.append_assoc, hacked', sentItems_append, hsent, List.append_nil]

/-- **The answers are those of a register file.** As long as there is room for each answer that is complete, what has
been answered is the beginning of what a register file answers to the messages in the order in which they were sent. The
other answers can still come, without any new message. -/
theorem serialconfig_answers (ts : List Tap) {tr : List Event} {s : Serialconfig}
    (h : serialconfigWithRoom.Reaches (reset ts) tr s) :
    ackedItems tr <+: answersOf (ts.map fun t => ⟨t.id, t.asize, 0⟩) (sentItems tr) ∧
      (s.root.Room → ∃ tr' s', serialconfigWithRoom.Reaches s tr' s' ∧ sentItems tr' = [] ∧
        ackedItems (tr ++ tr') = answersOf (ts.map fun t => ⟨t.id, t.asize, 0⟩) (sentItems tr)) := by
  obtain ⟨m, n, hr⟩ := h.invariant (I := fun tr s => ∃ m n, Running (ts.map fun t => ⟨t.id, t.asize, 0⟩) tr s m n)
    ⟨_, _, Running.reset ts⟩ fun {tr s c s' es} hr hs => by
      obtain ⟨m, n, hr⟩ := hr
      obtain ⟨hroom, hs⟩ := RuleSystem.guard_step.mp hs
      exact hr.step hroom hs
  refine ⟨hr.acked_isPrefix, fun hroom => ?_⟩
  obtain ⟨tr₁, s₁, m₁, n₁, hreach, hsent, h₁, hroom₁, hq⟩ := hr.exists_quiet hroom (k := 0)
    (fun t ht => absurd ht List.not_mem_nil) (fun _ => rfl) (Nat.le_refl _)
  obtain ⟨tr₂, s₂, hreach₂, hsent₂, hacked⟩ := h₁.exists_acked hroom₁ hq
  refine ⟨tr₁ ++ tr₂, s₂, hreach.trans hreach₂, ?_, ?_⟩
  · rw [sentItems_append, hsent, hsent₂, List.append_nil]
  · rw [← List.append_assoc, hacked, sentItems_append, hsent, List.append_nil]

/-- A word is written, and read. -/
def twoMessages : List BusCycle := [⟨some ⟨0x22220001, 7⟩, false⟩, ⟨some ⟨0x22220000, 0⟩, false⟩]

theorem serialconfig_answers_twoMessages :
    ∃ tr' s', serialconfigWithRoom.Reaches (serialconfigWithRoom.run (reset mkTaps) twoMessages).1 tr' s' ∧
      sentItems tr' = [] ∧ ackedItems ((serialconfigWithRoom.run (reset mkTaps) twoMessages).2 ++ tr') =
        [⟨0x22220001, 7⟩, ⟨0x22220000, 7⟩] :=
  (serialconfig_answers mkTaps (RuleSystem.reaches_run (reset mkTaps) twoMessages)).2 (by decide)

end Serialconfig

end Xbsv
