import Mathlib.Data.BitVec
import Xbsv.Dma.MemTypes
import Xbsv.Rules.Drain
import Xbsv.Rules.Fifo

set_option relaxedAutoImplicit false
set_option autoImplicit false

/-!
# The beats of a burst

`mkAddressGenerator` of `AddressGenerator.bsv` makes the beats of a burst, one in each firing of its rule. The first
takes its values from the request, the others from registers. In `isLastReg` stands whether the next beat is the last,
which is known one beat ahead; a burst of a single beat is told from its request. The request stays in its queue, which
holds one, until its last beat is made.

A request for no beats is one for 256 of them: the count starts at 0 and wraps around.

## Main definitions

* `Xbsv.AddressGenerator`, `Xbsv.addressGenerator` — the module, and its runs.
* `Xbsv.AddressGenerator.burst` — the beats that a request asks for.
* `Xbsv.AddressGenerator.left` — the beats that are not made yet.
* `Xbsv.AddressGenerator.Generates` — what should be delivered.

## Main results

* `Xbsv.AddressGenerator.left_of_addrBeatRule` — the rule makes the first of the beats that are left.
* `Xbsv.AddressGenerator.Tracks.step` — what a step does.
* `Xbsv.AddressGenerator.generates` — the beats are those of the requests, request by request.
-/

namespace Xbsv

open Rules

/-! ## The source -/

namespace AddressGenerator

/-- `AddrBeat`, with `bc` the number of beats from this one on. -/
@[ext]
structure AddrBeat (addrWidth : ℕ) where
  addr : BitVec addrWidth
  bc : BitVec 8
  tag : BitVec 6
  last : Bool
  deriving DecidableEq, Repr

end AddressGenerator

/-- The state of `mkAddressGenerator`. -/
structure AddressGenerator (addrWidth : ℕ) where
  requestFifo : Fifo 1 (MemRequest addrWidth)
  addrBeatFifo : Fifo 2 (AddressGenerator.AddrBeat addrWidth)
  addrReg : BitVec addrWidth
  burstCountReg : BitVec 8
  isFirstReg : Bool
  isLastReg : Bool

namespace AddressGenerator

variable {addrWidth : ℕ}

def reset : AddressGenerator addrWidth := ⟨.empty, .empty, 0, 0, true, false⟩

/-- The methods `request.put` and `addrBeat.get`, and the rule. -/
inductive Action (addrWidth : ℕ)
  | put (req : MemRequest addrWidth)
  | addrBeatRule
  | get

/-- A request comes in, and a beat goes out. -/
inductive Event (addrWidth : ℕ)
  | requested (req : MemRequest addrWidth)
  | delivered (beat : AddrBeat addrWidth)
  deriving DecidableEq

variable (s : AddressGenerator addrWidth) (req : MemRequest addrWidth)

/-- `addr` of the next beat. -/
def addr : BitVec addrWidth := if s.isFirstReg then req.addr else s.addrReg

/-- `burstCount` of the next beat. -/
def burstCount : BitVec 8 := if s.isFirstReg then req.burstLen else s.burstCountReg

/-- `isLast` of the next beat. -/
def isLast : Bool := if s.isFirstReg then req.burstLen = 1 else s.isLastReg

/-- The beat that is made next. -/
def beat : AddrBeat addrWidth := ⟨s.addr req, s.burstCount req, req.tag, s.isLast req⟩

/-- Rule `addrBeatRule`. -/
def addrBeatRule : Option (AddressGenerator addrWidth) := do
  let req ← s.requestFifo.first
  let requestFifo ← s.requestFifo.dropIf (s.isLast req)
  let addrBeatFifo ← s.addrBeatFifo.enq (s.beat req)
  return {
    requestFifo
    addrBeatFifo
    addrReg := s.addr req + 1
    burstCountReg := s.burstCount req - 1
    isFirstReg := s.isLast req
    isLastReg := s.burstCount req = 2 }

/-- Method `request.put`. -/
def put : Option (AddressGenerator addrWidth) := do
  let requestFifo ← s.requestFifo.enq req
  return { s with requestFifo }

/-- Method `addrBeat.get`. -/
def get : Option (AddrBeat addrWidth × AddressGenerator addrWidth) := do
  let (beat, addrBeatFifo) ← s.addrBeatFifo.deq
  return (beat, { s with addrBeatFifo })

def step : Action addrWidth → Option (AddressGenerator addrWidth × List (Event addrWidth))
  | .put req => (s.put req).map fun s' => (s', [.requested req])
  | .addrBeatRule => s.addrBeatRule.map fun s' => (s', [])
  | .get => s.get.map fun r => (r.2, [.delivered r.1])

end AddressGenerator

/-- The generator, between any user that puts requests and any one that takes beats. -/
def addressGenerator (addrWidth : ℕ) :
    RuleSystem (AddressGenerator addrWidth) (AddressGenerator.Action addrWidth)
      (AddressGenerator.Event addrWidth) where
  step s a := s.step a

namespace AddressGenerator

variable {addrWidth : ℕ}

/-! ## What should be delivered -/

/-- The requests that came in. -/
def requests (tr : List (Event addrWidth)) : List (MemRequest addrWidth) :=
  tr.filterMap fun
    | .requested req => some req
    | _ => none

/-- The beats that went out. -/
def delivered (tr : List (Event addrWidth)) : List (AddrBeat addrWidth) :=
  tr.filterMap fun
    | .delivered beat => some beat
    | _ => none

/-- A burst of `n` beats: the addresses go up from the one of the request, modulo `2 ^ addrWidth`, and the counts down
from `n` to 1, where the last beat is. -/
def burst (n : ℕ) (req : MemRequest addrWidth) : List (AddrBeat addrWidth) :=
  (List.range n).map fun i =>
    ⟨BitVec.ofNat addrWidth (req.addr.toNat + i), BitVec.ofNat 8 (n - i), req.tag, decide (i + 1 = n)⟩

/-- The bursts of the requests, one after the other. -/
def expected (tr : List (Event addrWidth)) : List (AddrBeat addrWidth) :=
  (requests tr).flatMap fun req => burst req.burstLen.toNat req

/-- **What should be delivered**: nothing but the bursts of the requests, in order. They have all been delivered when
neither the rule can fire nor a beat be taken, and without further requests it can come to that. -/
structure Generates (tr : List (Event addrWidth)) (s : AddressGenerator addrWidth) : Prop where
  isPrefix : delivered tr <+: expected tr
  complete : s.addrBeatRule = none → s.get = none → delivered tr = expected tr
  drains : ∃ tr' s', (addressGenerator addrWidth).Reaches s tr' s' ∧ requests tr' = [] ∧
    delivered (tr ++ tr') = expected tr

section Traces

variable (tr es : List (Event addrWidth))

@[simp] lemma requests_append : requests (tr ++ es) = requests tr ++ requests es := List.filterMap_append

@[simp] lemma delivered_append : delivered (tr ++ es) = delivered tr ++ delivered es := List.filterMap_append

end Traces

/-! ## The beats that are left -/

/-- The `n` last beats of a burst, from an address on. -/
def beatsFrom (tag : BitVec 6) : ℕ → BitVec addrWidth → List (AddrBeat addrWidth)
  | 0, _ => []
  | n + 1, addr => ⟨addr, BitVec.ofNat 8 (n + 1), tag, n = 0⟩ :: beatsFrom tag n (addr + 1)

/-- The number of beats that are counted down from a value of `burstCount`. -/
def count (burstCount : BitVec 8) : ℕ := (burstCount - 1).toNat + 1

/-- All beats of a request. -/
def beats (req : MemRequest addrWidth) : List (AddrBeat addrWidth) :=
  beatsFrom req.tag (count req.burstLen) req.addr

/-- The beats that are not made yet. -/
def left (s : AddressGenerator addrWidth) : List (AddrBeat addrWidth) :=
  match s.requestFifo.items with
  | [] => []
  | req :: _ => beatsFrom req.tag (count (s.burstCount req)) (s.addr req)

lemma count_of_pos {b : BitVec 8} (h : 0 < b.toNat) : count b = b.toNat := by
  have hle : (1 : BitVec 8) ≤ b := h
  have hsub : (b - 1).toNat = b.toNat - 1 := BitVec.toNat_sub_of_le hle
  rw [count]
  omega

example : count 0 = 256 := by decide

/-- The next beat of a burst is the last one if its count is 1. -/
lemma beatsFrom_count (tag : BitVec 6) (b : BitVec 8) (addr : BitVec addrWidth) :
    beatsFrom tag (count b) addr =
      ⟨addr, b, tag, b = 1⟩ :: if b = 1 then [] else beatsFrom tag (count (b - 1)) (addr + 1) := by
  have hcount : BitVec.ofNat 8 ((b - 1).toNat + 1) = b := by
    rw [BitVec.ofNat_add, BitVec.ofNat_toNat, BitVec.setWidth_eq]
    exact BitVec.sub_add_cancel b 1
  have hone : (b - 1).toNat = 0 ↔ b = 1 := by bv_omega
  rw [count, beatsFrom, hcount]
  simp only [hone]
  by_cases hb : b = 1
  · rw [if_pos hb, hone.mpr hb, beatsFrom]
  · have hnext : count (b - 1) = (b - 1).toNat := by
      apply count_of_pos
      have hne := mt hone.mp hb
      omega
    rw [if_neg hb, hnext]

/-- The beats by their numbers. -/
lemma beatsFrom_eq_map (tag : BitVec 6) (n : ℕ) (addr : BitVec addrWidth) :
    beatsFrom tag n addr = (List.range n).map fun i =>
      ⟨BitVec.ofNat addrWidth (addr.toNat + i), BitVec.ofNat 8 (n - i), tag, decide (i + 1 = n)⟩ := by
  induction n generalizing addr with
  | zero => rfl
  | succ n ih =>
    rw [beatsFrom, ih, List.range_succ_eq_map, List.map_cons, List.map_map]
    congr 1
    · simp
    · apply List.map_congr_left
      intro i _
      have haddr : BitVec.ofNat addrWidth ((addr + 1).toNat + i) = BitVec.ofNat addrWidth (addr.toNat + (i + 1)) := by
        rw [BitVec.ofNat_add, BitVec.ofNat_toNat, BitVec.setWidth_eq, BitVec.ofNat_add, BitVec.ofNat_toNat,
          BitVec.setWidth_eq, Nat.add_comm i 1, BitVec.ofNat_add, ← BitVec.add_assoc]
        rfl
      rw [Function.comp_apply, haddr]
      simp

/-- A request for some beats has as many. -/
lemma beats_eq_burst {req : MemRequest addrWidth} (h : 0 < req.burstLen.toNat) :
    beats req = burst req.burstLen.toNat req := by
  rw [beats, count_of_pos h, beatsFrom_eq_map, burst]

/-! ## Steps -/

variable {s s' : AddressGenerator addrWidth} {req : MemRequest addrWidth} {tr es : List (Event addrWidth)}

/-- The registers, as the next beat finds them: the first beat of a burst is next when there is no request, and for
other beats `isLastReg` has been set from the count. -/
structure Ready (s : AddressGenerator addrWidth) : Prop where
  idle : s.requestFifo.items = [] → s.isFirstReg = true
  last : s.isFirstReg = false → s.isLastReg = decide (s.burstCountReg = 1)

/-- The last beat is the one whose count is 1, for the first beat of a burst and for the others. -/
lemma Ready.isLast_eq (h : s.Ready) (req : MemRequest addrWidth) :
    s.isLast req = decide (s.burstCount req = 1) := by
  rw [isLast, burstCount]
  cases hfirst : s.isFirstReg with
  | true => rfl
  | false => exact h.last hfirst

lemma left_of_nil (h : s.requestFifo.items = []) : s.left = [] := by rw [left, h]

lemma left_of_request (h : s.requestFifo.items = [req]) :
    s.left = beatsFrom req.tag (count (s.burstCount req)) (s.addr req) := by rw [left, h]

/-- What the rule needs and does. -/
lemma addrBeatRule_eq_some (hs : s.addrBeatRule = some s') :
    ∃ req, s.requestFifo.items = [req] ∧ s'.requestFifo.items = (if s.isLast req then [] else [req]) ∧
      s'.addrBeatFifo.items = s.addrBeatFifo.items ++ [s.beat req] ∧ s'.addrReg = s.addr req + 1 ∧
      s'.burstCountReg = s.burstCount req - 1 ∧ s'.isFirstReg = s.isLast req ∧
      s'.isLastReg = decide (s.burstCount req = 2) := by
  simp only [addrBeatRule, bind, pure, Option.bind_eq_some_iff, Option.some.injEq, Fifo.first_eq_some] at hs
  obtain ⟨req, ⟨rest, hitems⟩, requestFifo, hdrop, addrBeatFifo, henq, rfl⟩ := hs
  have hnil : rest = [] := by
    have hle := s.requestFifo.length_le
    rw [hitems, List.length_cons] at hle
    exact List.length_eq_zero_iff.mp (by omega)
  subst hnil
  refine ⟨req, hitems, ?_, (Fifo.enq_eq_some.mp henq).2, rfl, rfl, rfl, rfl⟩
  rw [(Fifo.dropIf_items hdrop).2, hitems]
  rfl

/-- **The rule makes the first of the beats that are left**, and leaves the registers ready for the next. -/
theorem left_of_addrBeatRule (h : s.Ready) (hs : s.addrBeatRule = some s') :
    ∃ req, s'.addrBeatFifo.items = s.addrBeatFifo.items ++ [s.beat req] ∧ s.left = s.beat req :: s'.left ∧
      s'.Ready := by
  obtain ⟨req, hreq, hrest, hmade, haddr, hcount, hfirst, hlast⟩ := addrBeatRule_eq_some hs
  have hisLast := h.isLast_eq req
  refine ⟨req, hmade, ?_, fun hidle => ?_, fun hnot => ?_⟩
  · rw [left_of_request hreq, beatsFrom_count, beat, hisLast]
    by_cases hone : s.burstCount req = 1
    · rw [hisLast, decide_eq_true hone, if_pos rfl] at hrest
      rw [if_pos hone, left_of_nil hrest]
    · rw [hisLast, decide_eq_false hone] at hrest hfirst
      -- The next beat is not the first of its burst, so that it takes its values from the registers.
      have hnext : s'.burstCount req = s.burstCount req - 1 ∧ s'.addr req = s.addr req + 1 := by
        rw [burstCount, addr, hfirst]
        exact ⟨hcount, haddr⟩
      rw [if_neg hone, left_of_request hrest, hnext.1, hnext.2]
  · rw [hfirst]
    by_contra hne
    rw [if_neg hne] at hrest
    exact List.cons_ne_nil _ _ (hrest.symm.trans hidle)
  · have htwo : s.burstCount req = 2 ↔ s.burstCount req - 1 = 1 := by bv_omega
    rw [hlast, hcount, decide_eq_decide]
    exact htwo

/-- **The invariant**: the beats that went out, those in the queue and those that are not made yet are the beats of the
requests. -/
structure Tracks (tr : List (Event addrWidth)) (s : AddressGenerator addrWidth) : Prop where
  ready : s.Ready
  conserved : delivered tr ++ (s.addrBeatFifo.items ++ s.left) = (requests tr).flatMap beats

lemma tracks_reset : Tracks [] (reset : AddressGenerator addrWidth) :=
  ⟨⟨fun _ => rfl, fun h => absurd h.symm Bool.false_ne_true⟩, rfl⟩

/-- A request comes in when the one before has all of its beats. -/
lemma Tracks.put (h : Tracks tr s) (hs : s.put req = some s') : Tracks (tr ++ [Event.requested req]) s' := by
  simp only [AddressGenerator.put, bind, pure, Option.bind_eq_some_iff, Option.some.injEq, Fifo.enq_eq_some] at hs
  obtain ⟨requestFifo, ⟨hroom, hitems⟩, rfl⟩ := hs
  have hnil : s.requestFifo.items = [] := List.length_eq_zero_iff.mp (by omega)
  have hfirst := h.ready.idle hnil
  have hconserved := h.conserved
  rw [left_of_nil hnil, List.append_nil] at hconserved
  rw [hnil, List.nil_append] at hitems
  refine ⟨⟨fun hidle => ?_, h.ready.last⟩, ?_⟩
  · exact absurd (hitems.symm.trans hidle) (List.cons_ne_nil _ _)
  · have hleft : left { s with requestFifo } = beats req := by
      rw [left_of_request hitems, burstCount, addr, hfirst]
      rfl
    have hrequests : requests (tr ++ [Event.requested req]) = requests tr ++ [req] := requests_append _ _
    have hdelivered : delivered (tr ++ [Event.requested req]) = delivered tr :=
      (delivered_append _ _).trans (List.append_nil _)
    rw [hrequests, hdelivered, hleft, List.flatMap_append, List.flatMap_singleton, ← hconserved, List.append_assoc]

lemma Tracks.addrBeatRule (h : Tracks tr s) (hs : s.addrBeatRule = some s') : Tracks tr s' := by
  obtain ⟨req, hmade, hleft, hready⟩ := left_of_addrBeatRule h.ready hs
  refine ⟨hready, ?_⟩
  rw [hmade, List.append_assoc, List.singleton_append, ← hleft]
  exact h.conserved

lemma Tracks.get {b : AddrBeat addrWidth} (h : Tracks tr s) (hs : s.get = some (b, s')) :
    Tracks (tr ++ [Event.delivered b]) s' ∧ s.addrBeatFifo.items = b :: s'.addrBeatFifo.items ∧ s'.left = s.left := by
  simp only [AddressGenerator.get, bind, pure, Option.bind_eq_some_iff, Option.some.injEq, Prod.exists,
    Fifo.deq_eq_some, Prod.mk.injEq] at hs
  obtain ⟨b, addrBeatFifo, hitems, rfl, rfl⟩ := hs
  refine ⟨⟨⟨h.ready.idle, h.ready.last⟩, ?_⟩, hitems, rfl⟩
  have hconserved := h.conserved
  have hrequests : requests (tr ++ [Event.delivered b]) = requests tr := (requests_append _ _).trans (List.append_nil _)
  have hdelivered : delivered (tr ++ [Event.delivered b]) = delivered tr ++ [b] := delivered_append _ _
  rw [hitems, List.cons_append, ← List.singleton_append, ← List.append_assoc] at hconserved
  rw [hrequests, hdelivered]
  exact hconserved

/-- **What a step does**: the beats are those of the requests, whatever their lengths. -/
theorem Tracks.step (h : Tracks tr s) {a : Action addrWidth}
    (hs : (addressGenerator addrWidth).step s a = some (s', es)) : Tracks (tr ++ es) s' := by
  cases a with
  | put req =>
    obtain ⟨t, hput, heq⟩ := Option.map_eq_some_iff.mp hs
    cases heq
    exact h.put hput
  | addrBeatRule =>
    obtain ⟨t, hrule, heq⟩ := Option.map_eq_some_iff.mp hs
    cases heq
    rw [List.append_nil]
    exact h.addrBeatRule hrule
  | get =>
    obtain ⟨⟨beat, t⟩, hget, heq⟩ := Option.map_eq_some_iff.mp hs
    cases heq
    exact (h.get hget).1

/-! ## Progress -/

/-- The work that is left: a beat is made, and taken. -/
def rank (s : AddressGenerator addrWidth) : ℕ := 2 * s.left.length + s.addrBeatFifo.items.length

lemma exists_get {b : AddrBeat addrWidth} {bs : List (AddrBeat addrWidth)} (h : s.addrBeatFifo.items = b :: bs) :
    ∃ s', s.get = some (b, s') := by
  obtain ⟨addrBeatFifo, hdeq, -⟩ := Fifo.exists_deq h
  exact ⟨{ s with addrBeatFifo }, by simp [AddressGenerator.get, hdeq]⟩

/-- The rule can fire when there is a request, and room for a beat. -/
lemma exists_addrBeatRule {rest : List (MemRequest addrWidth)} (h : s.requestFifo.items = req :: rest)
    (hroom : s.addrBeatFifo.items.length < 2) : ∃ s', s.addrBeatRule = some s' := by
  have hfirst : s.requestFifo.first = some req := Fifo.first_eq_some.mpr ⟨rest, h⟩
  obtain ⟨requestFifo, hdrop⟩ := Fifo.exists_dropIf h (s.isLast req)
  obtain ⟨addrBeatFifo, henq, -⟩ := Fifo.exists_enq hroom (s.beat req)
  simp [AddressGenerator.addrBeatRule, hfirst, hdrop, henq]

/-- As long as there is a request or a beat, a beat can be taken or made. -/
lemma Tracks.exists_step (h : Tracks tr s) (hne : ¬(s.requestFifo.items = [] ∧ s.addrBeatFifo.items = [])) :
    ∃ a s' es, (addressGenerator addrWidth).step s a = some (s', es) ∧ requests es = [] ∧ rank s' < rank s := by
  cases hbeats : s.addrBeatFifo.items with
  | cons b bs =>
    obtain ⟨s', hget⟩ := exists_get hbeats
    obtain ⟨-, hitems, hleft⟩ := h.get hget
    refine ⟨.get, s', [.delivered b], ?_, rfl, ?_⟩
    · simp [addressGenerator, AddressGenerator.step, hget]
    · rw [rank, rank, hleft, hitems, List.length_cons]
      omega
  | nil =>
    obtain ⟨req, rest, hreq⟩ := List.exists_cons_of_ne_nil fun hnil => hne ⟨hnil, hbeats⟩
    obtain ⟨s', hrule⟩ := exists_addrBeatRule hreq (by rw [hbeats]; exact Nat.two_pos)
    obtain ⟨req', hmade, hleft, -⟩ := left_of_addrBeatRule h.ready hrule
    refine ⟨.addrBeatRule, s', [], ?_, rfl, ?_⟩
    · simp [addressGenerator, AddressGenerator.step, hrule]
    · rw [rank, rank, hmade, hleft, List.length_append, List.length_singleton, List.length_cons]
      omega

/-- When neither the rule can fire nor a beat be taken, there is nothing. -/
lemma drained_of_none (hrule : s.addrBeatRule = none) (hget : s.get = none) :
    s.requestFifo.items = [] ∧ s.addrBeatFifo.items = [] := by
  have hbeats : s.addrBeatFifo.items = [] := by
    by_contra hne
    obtain ⟨b, bs, hitems⟩ := List.exists_cons_of_ne_nil hne
    obtain ⟨s', hs⟩ := exists_get hitems
    rw [hget] at hs
    cases hs
  refine ⟨?_, hbeats⟩
  by_contra hne
  obtain ⟨req, rest, hreq⟩ := List.exists_cons_of_ne_nil hne
  obtain ⟨s', hs⟩ := exists_addrBeatRule hreq (by rw [hbeats]; exact Nat.two_pos)
  rw [hrule] at hs
  cases hs

/-- Then all beats have gone out. -/
lemma Tracks.delivered_eq (h : Tracks tr s) (hempty : s.requestFifo.items = [] ∧ s.addrBeatFifo.items = []) :
    delivered tr = (requests tr).flatMap beats := by
  have hconserved := h.conserved
  rw [hempty.2, left_of_nil hempty.1, List.append_nil, List.append_nil] at hconserved
  exact hconserved

/-! ## The runs -/

/-- The condition on a request: it is for some beats. -/
def Asks (_ : AddressGenerator addrWidth) : Action addrWidth → Prop
  | .put req => 1 ≤ req.burstLen.toNat
  | .addrBeatRule | .get => True

instance (s : AddressGenerator addrWidth) : ∀ a, Decidable (s.Asks a)
  | .put req => inferInstanceAs (Decidable (1 ≤ req.burstLen.toNat))
  | .addrBeatRule | .get => inferInstanceAs (Decidable True)

/-- In a run all requests have met the condition. -/
lemma asks_of_reaches (h : ((addressGenerator addrWidth).guard Asks).Reaches .reset tr s) :
    ∀ req ∈ requests tr, 1 ≤ req.burstLen.toNat := by
  refine h.invariant (I := fun tr _ => ∀ req ∈ requests tr, 1 ≤ req.burstLen.toNat)
    (fun _ hmem => absurd hmem List.not_mem_nil) fun {tr s a s' es} hall hs req hmem => ?_
  obtain ⟨hasks, hs⟩ := RuleSystem.guard_step.mp hs
  rw [requests_append, List.mem_append] at hmem
  rcases hmem with hmem | hmem
  · exact hall req hmem
  · cases a with
    | put req' =>
      obtain ⟨t, -, heq⟩ := Option.map_eq_some_iff.mp hs
      cases heq
      rw [List.mem_singleton.mp hmem]
      exact hasks
    | addrBeatRule | get =>
      obtain ⟨t, -, heq⟩ := Option.map_eq_some_iff.mp hs
      cases heq
      exact absurd hmem List.not_mem_nil

/-- For requests for some beats these are the beats that are expected. -/
lemma expected_eq (h : ∀ req ∈ requests tr, 1 ≤ req.burstLen.toNat) :
    expected tr = (requests tr).flatMap beats :=
  List.flatMap_congr fun req hreq => (beats_eq_burst (h req hreq)).symm

/-- **The beats are those of the requests**, request by request: in every run of requests for at least one beat, and
whenever the beats are taken. -/
theorem generates {addrWidth : ℕ} {tr : List (Event addrWidth)} {s : AddressGenerator addrWidth}
    (h : ((addressGenerator addrWidth).guard Asks).Reaches .reset tr s) : Generates tr s := by
  have hexpected := expected_eq (asks_of_reaches h)
  have htracks : Tracks tr s := by
    refine h.invariant tracks_reset fun ht hs => ?_
    exact ht.step (RuleSystem.guard_step.mp hs).2
  refine ⟨?_, fun hrule hget => ?_, ?_⟩
  · rw [hexpected, ← htracks.conserved]
    exact List.prefix_append _ _
  · rw [hexpected]
    exact htracks.delivered_eq (drained_of_none hrule hget)
  · have hdrain := RuleSystem.exists_drained (M := addressGenerator addrWidth) (I := Tracks)
      (E := fun _ s => s.requestFifo.items = [] ∧ s.addrBeatFifo.items = []) requests (fun _ s => rank s) htracks ?_
    · obtain ⟨tr', s', hreach, ht', hrequests, hempty⟩ := hdrain
      refine ⟨tr', s', hreach, ?_, ?_⟩
      · simpa using hrequests
      · rw [hexpected, ht'.delivered_eq hempty, hrequests]
    · intro us s ht _ hne
      obtain ⟨a, s', es, hs, hnone, hlt⟩ := ht.exists_step hne
      exact ⟨a, s', es, hs, ht.step hs, by rw [requests_append, hnone, List.append_nil], hlt⟩

/-- Three beats from the last address but one, and one beat, which waits for room. -/
def wrappedBurst :=
  ((addressGenerator 4).guard Asks).run .reset
    [.put ⟨14, 3, 5⟩, .addrBeatRule, .addrBeatRule, .get, .addrBeatRule, .put ⟨7, 1, 6⟩, .get, .get, .addrBeatRule,
      .get]

theorem generates_wrappedBurst :
    delivered wrappedBurst.2 = [⟨14, 3, 5, false⟩, ⟨15, 2, 5, false⟩, ⟨0, 1, 5, true⟩, ⟨7, 1, 6, true⟩] ∧
      expected wrappedBurst.2 = delivered wrappedBurst.2 ∧ Generates wrappedBurst.2 wrappedBurst.1 :=
  ⟨by decide, by decide, generates (RuleSystem.reaches_run _ _)⟩

end AddressGenerator

end Xbsv
