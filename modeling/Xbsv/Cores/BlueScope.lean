import Mathlib.Data.BitVec
import Xbsv.Rules.System

set_option relaxedAutoImplicit false
set_option autoImplicit false

/-!
# The logic analyser

`mkSyncBlueScope` of `BlueScope.bsv` waits, once it is started, for a value that its mask and value tell, and then puts
`samples` words into a queue, from which they are written to memory. Method `dataIn` counts its calls from the trigger
on. A word for which the queue has no room is counted and left out. And `start` puts the module back to where it waits
for the trigger, without a new count.

## Main definitions

* `Xbsv.SyncFIFO` — a queue between two clocks.
* `Xbsv.BlueScope`, `Xbsv.blueScope` — the module, and its runs.
* `Xbsv.BlueScope.Complete` — a capture has all of its words.

## Main results

* `Xbsv.BlueScope.calls_of_triggered` — the calls from the trigger on.
* `Xbsv.BlueScope.complete_iff` — the captures that are complete.
* `Xbsv.BlueScope.complete_iff_room` — the same where no capture is started again before it is done.
-/

namespace Xbsv

open Rules

/-! ## The queue -/

/-- `SyncFIFOIfc` of `n` elements. The side that puts them in learns later of those that are taken out. -/
@[ext]
structure SyncFIFO (n : ℕ) (α : Type) where
  items : List α
  unseen : ℕ
  bound : items.length + unseen ≤ n

namespace SyncFIFO

variable {n : ℕ} {α : Type}

def empty : SyncFIFO n α := ⟨[], 0, Nat.zero_le n⟩

/-- `notFull`, for the side that puts. -/
def notFull (q : SyncFIFO n α) : Bool := q.items.length + q.unseen < n

lemma bound_put {xs : List α} {k : ℕ} (h : xs.length + k < n) (x : α) : (xs ++ [x]).length + k ≤ n := by
  rw [List.length_append, List.length_singleton]
  omega

lemma bound_tail {x : α} {xs : List α} {k : ℕ} (h : (x :: xs).length + k ≤ n) : xs.length + (k + 1) ≤ n := by
  rw [List.length_cons] at h
  omega

lemma bound_sync {xs : List α} {k : ℕ} (h : xs.length + (k + 1) ≤ n) : xs.length + k ≤ n := by omega

/-- An element is put in, if there is room. -/
def put (q : SyncFIFO n α) (x : α) : SyncFIFO n α :=
  if h : q.items.length + q.unseen < n then ⟨q.items ++ [x], q.unseen, bound_put h x⟩ else q

/-- An element is taken out. -/
def deq : SyncFIFO n α → Option (α × SyncFIFO n α)
  | ⟨[], _, _⟩ => none
  | ⟨x :: xs, unseen, h⟩ => some (x, ⟨xs, unseen + 1, bound_tail h⟩)

/-- The other side learns of it. -/
def sync : SyncFIFO n α → Option (SyncFIFO n α)
  | ⟨_, 0, _⟩ => none
  | ⟨xs, unseen + 1, h⟩ => some ⟨xs, unseen, bound_sync h⟩

end SyncFIFO

/-! ## The source -/

namespace BlueScope

/-- `State`. -/
inductive State
  | idle | enabled | triggered
  deriving DecidableEq

/-- A call of `dataIn`: the word, whether the queue had room, and whether it was the trigger, the word was put into the
queue, and the capture was done. -/
structure Call (dataWidth : ℕ) where
  data : BitVec dataWidth
  notFull : Bool
  trigger : Bool
  stored : Bool
  done : Bool
  deriving DecidableEq

/-- What can be seen: calls, the pulses, and words that leave the queue. -/
inductive Event (dataWidth : ℕ)
  | call (c : Call dataWidth)
  | start
  | reset
  | drained (x : BitVec dataWidth)
  deriving DecidableEq

/-- Method `dataIn`, the pulses, the two registers that are set from the other clock, and the queue. -/
inductive Action (dataWidth : ℕ)
  | dataIn (data trigger : BitVec dataWidth)
  | start
  | reset
  | setTriggerMask (mask : BitVec 64)
  | setTriggerValue (value : BitVec 64)
  | drain
  | sync

end BlueScope

/-- The state of `mkSyncBlueScope`. -/
structure BlueScope (dataWidth samples : ℕ) where
  dfifo : SyncFIFO samples (BitVec dataWidth)
  maskReg : BitVec dataWidth
  valueReg : BitVec dataWidth
  stateReg : BlueScope.State
  countReg : BitVec 32

namespace BlueScope

variable {dataWidth samples : ℕ}

def reset : BlueScope dataWidth samples := ⟨.empty, 0, 0, .idle, 0⟩

/-- Method `dataIn`. -/
def dataIn (s : BlueScope dataWidth samples) (data trigger : BitVec dataWidth) :
    BlueScope dataWidth samples × Call dataWidth :=
  let notFull := s.dfifo.notFull
  if s.stateReg = .enabled ∧ trigger &&& s.maskReg = s.valueReg &&& s.maskReg ∧ notFull = true then
    ({ s with stateReg := .triggered, countReg := s.countReg + 1, dfifo := s.dfifo.put data },
      ⟨data, notFull, true, notFull, false⟩)
  else if s.stateReg = .triggered ∧ s.countReg = BitVec.ofNat 32 samples then
    ({ s with stateReg := .idle, countReg := 0 }, ⟨data, notFull, false, false, true⟩)
  else if s.stateReg = .triggered ∧ s.countReg < BitVec.ofNat 32 samples then
    ({ s with countReg := s.countReg + 1, dfifo := s.dfifo.put data }, ⟨data, notFull, false, notFull, false⟩)
  else (s, ⟨data, notFull, false, false, false⟩)

/-- The rules `startState` and `resetState` fire at the pulses. -/
def step (s : BlueScope dataWidth samples) :
    Action dataWidth → Option (BlueScope dataWidth samples × List (Event dataWidth))
  | .dataIn data trigger => some ((s.dataIn data trigger).1, [.call (s.dataIn data trigger).2])
  | .start => some ({ s with stateReg := .enabled }, [.start])
  | .reset => some ({ s with stateReg := .idle, countReg := 0 }, [.reset])
  | .setTriggerMask mask => some ({ s with maskReg := mask.setWidth _ }, [])
  | .setTriggerValue value => some ({ s with valueReg := value.setWidth _ }, [])
  | .drain => s.dfifo.deq.map fun r => ({ s with dfifo := r.2 }, [.drained r.1])
  | .sync => s.dfifo.sync.map fun dfifo => ({ s with dfifo }, [])

end BlueScope

/-- The module, with words to capture, pulses at any times and a memory that drains the queue at any speed. -/
def blueScope (dataWidth samples : ℕ) :
    RuleSystem (BlueScope dataWidth samples) (BlueScope.Action dataWidth) (BlueScope.Event dataWidth) where
  step s a := s.step a

namespace BlueScope

variable {dataWidth samples : ℕ}

/-! ## Captures -/

/-- The calls of `dataIn`. -/
def calls (tr : List (Event dataWidth)) : List (Call dataWidth) :=
  tr.filterMap fun
    | .call c => some c
    | _ => none

/-- The calls whose words were put into the queue. -/
def stored (tr : List (Event dataWidth)) : List (Call dataWidth) := (calls tr).filter Call.stored

/-- No reset or start intervenes. -/
def Quiet (tr : List (Event dataWidth)) : Prop := ∀ e ∈ tr, e ≠ .start ∧ e ≠ .reset

/-- **A capture is complete**: of the calls from the trigger to the one that is done, `samples` have put their words
into the queue, and they are the first ones. -/
structure Complete (samples : ℕ) (tr : List (Event dataWidth)) : Prop where
  length : (stored tr).length = samples
  consecutive : stored tr = (calls tr).take samples

section Traces

variable (tr es : List (Event dataWidth)) (c : Call dataWidth)

@[simp] lemma calls_append : calls (tr ++ es) = calls tr ++ calls es := List.filterMap_append

@[simp] lemma calls_call : calls (.call c :: tr) = c :: calls tr := rfl

end Traces

lemma quiet_call (c : Call dataWidth) : Quiet [.call c] := by simp [Quiet]

lemma Quiet.left {tr es : List (Event dataWidth)} (h : Quiet (tr ++ es)) : Quiet tr := fun e he =>
  h e (List.mem_append_left _ he)

lemma Quiet.right {tr es : List (Event dataWidth)} (h : Quiet (tr ++ es)) : Quiet es := fun e he =>
  h e (List.mem_append_right _ he)

/-! ## The steps -/

variable {s s' : BlueScope dataWidth samples} {a : Action dataWidth} {tr es : List (Event dataWidth)}

/-- Without pulses only calls change the state and the count. -/
lemma step_cases (h : (blueScope dataWidth samples).step s a = some (s', es)) (hq : Quiet es) :
    (∃ data trigger, s' = (s.dataIn data trigger).1 ∧ es = [.call (s.dataIn data trigger).2]) ∨
      (s'.stateReg = s.stateReg ∧ s'.countReg = s.countReg ∧ ∀ e ∈ es, ∃ x, e = .drained x) := by
  cases a with
  | dataIn data trigger =>
    cases h
    exact .inl ⟨data, trigger, rfl, rfl⟩
  | start =>
    cases h
    exact absurd rfl (hq .start List.mem_cons_self).1
  | reset =>
    cases h
    exact absurd rfl (hq .reset List.mem_cons_self).2
  | setTriggerMask mask =>
    cases h
    exact .inr ⟨rfl, rfl, fun _ he => absurd he List.not_mem_nil⟩
  | setTriggerValue value =>
    cases h
    exact .inr ⟨rfl, rfl, fun _ he => absurd he List.not_mem_nil⟩
  | drain =>
    obtain ⟨r, -, heq⟩ := Option.map_eq_some_iff.mp h
    cases heq
    exact .inr ⟨rfl, rfl, fun e he => ⟨r.1, List.mem_singleton.mp he⟩⟩
  | sync =>
    obtain ⟨dfifo, -, heq⟩ := Option.map_eq_some_iff.mp h
    cases heq
    exact .inr ⟨rfl, rfl, fun _ he => absurd he List.not_mem_nil⟩

lemma calls_of_drained (h : ∀ e ∈ es, ∃ x, e = Event.drained x) : calls es = [] := by
  rw [calls, List.filterMap_eq_nil_iff]
  intro e he
  obtain ⟨x, rfl⟩ := h e he
  rfl

/-- A call that is the trigger. -/
lemma dataIn_trigger {data trigger : BitVec dataWidth} (h : (s.dataIn data trigger).2.trigger = true) :
    s.stateReg = .enabled ∧ (s.dataIn data trigger).1.stateReg = .triggered ∧
      (s.dataIn data trigger).1.countReg = s.countReg + 1 ∧ (s.dataIn data trigger).2.notFull = true ∧
      (s.dataIn data trigger).2.stored = true := by
  unfold dataIn at h ⊢
  dsimp only at h ⊢
  split at h
  case isTrue hhit => simp [hhit.1, hhit.2.1, hhit.2.2]
  case isFalse hhit =>
    split at h
    · cases h
    · split at h <;> cases h

/-- A call that is counted. -/
lemma dataIn_counted (data trigger : BitVec dataWidth) (hs : s.stateReg = .triggered)
    (hlt : s.countReg < BitVec.ofNat 32 samples) :
    (s.dataIn data trigger).1.stateReg = .triggered ∧ (s.dataIn data trigger).1.countReg = s.countReg + 1 ∧
      (s.dataIn data trigger).2.stored = (s.dataIn data trigger).2.notFull ∧
      (s.dataIn data trigger).2.done = false := by
  have hne : s.countReg ≠ BitVec.ofNat 32 samples := by
    rintro heq
    rw [heq] at hlt
    exact absurd hlt (BitVec.lt_irrefl _)
  unfold dataIn
  simp [hs, hne, hlt]

/-- The call at which the capture is done. -/
lemma dataIn_done (data trigger : BitVec dataWidth) (hs : s.stateReg = .triggered)
    (heq : s.countReg = BitVec.ofNat 32 samples) :
    (s.dataIn data trigger).1.stateReg = .idle ∧ (s.dataIn data trigger).2.stored = false ∧
      (s.dataIn data trigger).2.done = true := by
  unfold dataIn
  simp [hs, heq]

/-- A call in another state changes nothing, unless it is the trigger. -/
lemma dataIn_idle (data trigger : BitVec dataWidth)
    (hs : s.stateReg = .idle ∨ (s.stateReg = .triggered ∧ BitVec.ofNat 32 samples < s.countReg)) :
    (s.dataIn data trigger).1 = s ∧ (s.dataIn data trigger).2.stored = false ∧
      (s.dataIn data trigger).2.done = false := by
  unfold dataIn
  rcases hs with hidle | ⟨hs, hlt⟩
  · simp [hidle]
  · have hne : s.countReg ≠ BitVec.ofNat 32 samples := by
      rintro heq
      rw [heq] at hlt
      exact absurd hlt (BitVec.lt_irrefl _)
    have hnot : ¬s.countReg < BitVec.ofNat 32 samples := BitVec.lt_asymm hlt
    simp [hs, hne, hnot]

/-! ## The calls of a capture -/

/-- When nothing is captured, and when the count is past the end, nothing is stored or done. -/
lemma calls_of_idle {as : List (Action dataWidth)} (hexec : (blueScope dataWidth samples).exec s as = some (s', tr))
    (hq : Quiet tr) (hs : s.stateReg = .idle ∨ (s.stateReg = .triggered ∧ BitVec.ofNat 32 samples < s.countReg)) :
    ∀ c ∈ calls tr, c.done = false := by
  induction as generalizing s tr with
  | nil =>
    cases hexec
    exact fun _ hc => absurd hc List.not_mem_nil
  | cons a as ih =>
    obtain ⟨s₁, e₁, e₂, hstep, hrest, rfl⟩ := RuleSystem.exec_cons.mp hexec
    rw [calls_append]
    rcases step_cases hstep hq.left with ⟨data, trigger, rfl, rfl⟩ | ⟨hstate, hcount, hdrained⟩
    · obtain ⟨hsame, -, hdone⟩ := dataIn_idle data trigger hs
      rw [hsame] at hrest
      intro c hc
      rcases List.mem_append.mp hc with hc | hc
      · rw [List.mem_singleton.mp hc]
        exact hdone
      · exact ih hrest hq.right hs c hc
    · rw [calls_of_drained hdrained, List.nil_append]
      rw [← hstate, ← hcount] at hs
      exact ih hrest hq.right hs

/-- **The calls from the trigger on**: up to the one that is done, which comes when the count is `samples`, all are
counted, and the word is stored if the queue has room. -/
theorem calls_of_triggered (hsamples : samples < 2 ^ 32) {as : List (Action dataWidth)}
    (hexec : (blueScope dataWidth samples).exec s as = some (s', tr)) (hq : Quiet tr) (hs : s.stateReg = .triggered) :
    (∀ c ∈ calls tr, c.done = false) ∨ ∃ counted d rest, calls tr = counted ++ d :: rest ∧
      counted.length + s.countReg.toNat = samples ∧ (∀ c ∈ counted, c.stored = c.notFull ∧ c.done = false) ∧
      d.stored = false ∧ ∀ c ∈ rest, c.done = false := by
  have htop : (BitVec.ofNat 32 samples).toNat = samples := by
    rw [BitVec.toNat_ofNat, Nat.mod_eq_of_lt hsamples]
  induction as generalizing s tr with
  | nil =>
    cases hexec
    exact .inl fun _ hc => absurd hc List.not_mem_nil
  | cons a as ih =>
    have hall := hexec
    obtain ⟨s₁, e₁, e₂, hstep, hrest, rfl⟩ := RuleSystem.exec_cons.mp hexec
    rcases step_cases hstep hq.left with ⟨data, trigger, rfl, rfl⟩ | ⟨hstate, hcount, hdrained⟩
    · rw [List.singleton_append, calls_call]
      rcases Nat.lt_trichotomy s.countReg.toNat samples with hlt | heq | hgt
      · obtain ⟨hs₁, hcount, hstored, hdone⟩ :=
          dataIn_counted data trigger hs (by rw [BitVec.lt_def, htop]; exact hlt)
        have hnext : (s.countReg + 1).toNat = s.countReg.toNat + 1 := by
          rw [BitVec.toNat_add, show (1 : BitVec 32).toNat = 1 from rfl, Nat.mod_eq_of_lt (by omega)]
        rcases ih hrest hq.right hs₁ with hnone | ⟨counted, d, rest, hcalls, hlen, hcounted, hd, hafter⟩
        · exact .inl (List.forall_mem_cons.mpr ⟨hdone, hnone⟩)
        · refine .inr ⟨(s.dataIn data trigger).2 :: counted, d, rest, by rw [hcalls]; rfl, ?_,
            List.forall_mem_cons.mpr ⟨⟨hstored, hdone⟩, hcounted⟩, hd, hafter⟩
          rw [hcount, hnext] at hlen
          rw [List.length_cons]
          omega
      · obtain ⟨hs₁, hstored, -⟩ := dataIn_done data trigger hs (BitVec.eq_of_toNat_eq (by rw [htop]; exact heq))
        refine .inr ⟨[], _, _, rfl, by rw [List.length_nil, Nat.zero_add]; exact heq,
          fun _ hc => absurd hc List.not_mem_nil, hstored, calls_of_idle hrest hq.right (.inl hs₁)⟩
      · have hpast : BitVec.ofNat 32 samples < s.countReg := by
          rw [BitVec.lt_def, htop]
          exact hgt
        exact .inl (calls_of_idle hall hq (.inr ⟨hs, hpast⟩))
    · rw [calls_append, calls_of_drained hdrained, List.nil_append]
      rw [← hcount]
      exact ih hrest hq.right (hstate.trans hs)

/-- Up to the first call, which is the trigger. -/
lemma exec_trigger {as : List (Action dataWidth)} {first : Call dataWidth}
    (hexec : (blueScope dataWidth samples).exec s as = some (s', .call first :: tr))
    (htrigger : first.trigger = true) :
    ∃ s₁ as₁, (blueScope dataWidth samples).exec s₁ as₁ = some (s', tr) ∧ s.stateReg = .enabled ∧
      s₁.stateReg = .triggered ∧ s₁.countReg = s.countReg + 1 ∧ first.notFull = true ∧ first.stored = true := by
  induction as generalizing s with
  | nil => cases hexec
  | cons a as ih =>
    obtain ⟨s₁, e₁, e₂, hstep, hrest, heq⟩ := RuleSystem.exec_cons.mp hexec
    cases e₁ with
    | nil =>
      obtain ⟨hstate, hcount, -⟩ := (step_cases hstep fun _ he => absurd he List.not_mem_nil).resolve_left
        fun ⟨_, _, _, he⟩ => by cases he
      rw [List.nil_append] at heq
      rw [← heq] at hrest
      rw [← hstate, ← hcount]
      exact ih hrest
    | cons e e₁ =>
      obtain ⟨rfl, rfl⟩ := List.cons.inj heq
      have hquiet : Quiet (.call first :: e₁) := by
        cases a with
        | dataIn data trigger =>
          cases hstep
          exact quiet_call _
        | start => cases hstep
        | reset => cases hstep
        | setTriggerMask mask => cases hstep
        | setTriggerValue value => cases hstep
        | drain =>
          obtain ⟨r, -, heq⟩ := Option.map_eq_some_iff.mp hstep
          cases heq
        | sync =>
          obtain ⟨dfifo, -, heq⟩ := Option.map_eq_some_iff.mp hstep
          cases heq
      rcases step_cases hstep hquiet with ⟨data, trigger, rfl, hcall⟩ | ⟨-, -, hdrained⟩
      · cases hcall
        obtain ⟨hs, hs₁, hcount, hnotFull, hstored⟩ := dataIn_trigger htrigger
        exact ⟨_, as, hrest, hs, hs₁, hcount, hnotFull, hstored⟩
      · obtain ⟨x, hx⟩ := hdrained _ List.mem_cons_self
        cases hx

/-! ## Complete captures -/

section Count

variable {cs : List (Call dataWidth)} {d : Call dataWidth}

/-- The words of the calls that are counted, in a queue that has room for some of them. -/
lemma stored_eq (hcalls : calls tr = cs ++ [d]) (hd : d.stored = false) : stored tr = cs.filter Call.stored := by
  rw [stored, hcalls, List.filter_append, List.filter_singleton, hd]
  simp

/-- As many calls as there should be. -/
lemma complete_iff_of_eq (hcalls : calls tr = cs ++ [d]) (hd : d.stored = false)
    (hcs : ∀ c ∈ cs, c.stored = c.notFull) (hlen : cs.length = samples) :
    Complete samples tr ↔ ∀ c ∈ cs, c.notFull = true := by
  have hstored := stored_eq hcalls hd
  constructor
  · intro h c hc
    have hfilter : (cs.filter Call.stored).length = cs.length := by rw [← hstored, h.length, hlen]
    rw [← hcs c hc]
    exact List.length_filter_eq_length_iff.mp hfilter c hc
  · intro hall
    have hfilter : cs.filter Call.stored = cs := by
      rw [List.filter_eq_self]
      intro c hc
      rw [hcs c hc]
      exact hall c hc
    exact ⟨by rw [hstored, hfilter, hlen], by rw [hstored, hfilter, hcalls, ← hlen, List.take_left]⟩

/-- Too few calls. -/
lemma not_complete_of_lt (hcalls : calls tr = cs ++ [d]) (hd : d.stored = false) (hlen : cs.length < samples) :
    ¬Complete samples tr := by
  intro h
  have hlength := h.length
  have hle := List.length_filter_le Call.stored cs
  rw [stored_eq hcalls hd] at hlength
  omega

/-- One call more than there should be. -/
lemma complete_iff_of_succ (hcalls : calls tr = cs ++ [d]) (hd : d.stored = false)
    (hcs : ∀ c ∈ cs, c.stored = c.notFull) (hlen : cs.length = samples + 1) :
    Complete samples tr ↔ cs.map Call.notFull = List.replicate samples true ++ [false] := by
  obtain ⟨init, last, rfl⟩ : ∃ init last, cs = init ++ [last] := by
    refine (List.eq_nil_or_concat' cs).resolve_left ?_
    rintro rfl
    cases hlen
  rw [List.length_append, List.length_singleton, Nat.add_right_cancel_iff] at hlen
  have hinit : ∀ c ∈ init, c.stored = c.notFull := fun c hc => hcs c (List.mem_append_left _ hc)
  have hlast : last.stored = last.notFull := hcs last (List.mem_append_right _ List.mem_cons_self)
  have hstored := stored_eq hcalls hd
  have htake : (calls tr).take samples = init := by
    rw [hcalls, List.append_assoc, ← hlen, List.take_left]
  have hmap : (init ++ [last]).map Call.notFull = List.replicate samples true ++ [false] ↔
      (∀ c ∈ init, c.notFull = true) ∧ last.notFull = false := by
    rw [List.map_append, List.map_singleton, ← hlen, ← List.map_eq_replicate_iff]
    refine ⟨fun heq => ?_, fun heq => by rw [heq.1, heq.2]⟩
    obtain ⟨hrooms, hroom⟩ := List.append_inj' heq rfl
    exact ⟨hrooms, List.singleton_inj.mp hroom⟩
  rw [List.filter_append] at hstored
  rw [hmap]
  constructor
  · intro h
    have hconsecutive := h.consecutive
    have hlength := h.length
    rw [htake] at hconsecutive
    have hall : ∀ c ∈ init, c.stored = true := by
      intro c hc
      rw [← hconsecutive] at hc
      exact List.of_mem_filter hc
    have hfilter : init.filter Call.stored = init := List.filter_eq_self.mpr hall
    refine ⟨fun c hc => (hinit c hc).symm.trans (hall c hc), ?_⟩
    rw [hstored, hfilter, List.length_append, hlen] at hlength
    rw [← hlast]
    by_contra hne
    rw [List.filter_cons_of_pos (by simpa using hne), List.length_cons] at hlength
    omega
  · rintro ⟨hall, hnot⟩
    have hfilter : init.filter Call.stored = init := by
      rw [List.filter_eq_self]
      intro c hc
      rw [hinit c hc]
      exact hall c hc
    rw [hfilter, List.filter_cons_of_neg (by rw [hlast, hnot]; exact Bool.false_ne_true), List.filter_nil,
      List.append_nil] at hstored
    exact ⟨by rw [hstored, hlen], by rw [hstored, htake]⟩

end Count

/-- The calls of a capture that is done: those that are counted and the last one. -/
lemma calls_of_capture (hsamples : samples < 2 ^ 32) {first last : Call dataWidth} {mid : List (Event dataWidth)}
    (h : (blueScope dataWidth samples).Reaches s (.call first :: (mid ++ [Event.call last])) s')
    (htrigger : first.trigger = true) (hmid : Quiet mid) (hdone : last.done = true) :
    s.stateReg = .enabled ∧ (calls mid).length + (s.countReg + 1).toNat = samples ∧ last.stored = false ∧
      first.notFull = true ∧ ∀ c ∈ first :: calls mid, c.stored = c.notFull := by
  obtain ⟨as, hexec⟩ := h.exists_exec
  obtain ⟨s₁, as₁, hrest, hs, hs₁, hcount, hnotFull, hstored⟩ := exec_trigger hexec htrigger
  have hquiet : Quiet (mid ++ [Event.call last]) := by
    intro e he
    rcases List.mem_append.mp he with he | he
    · exact hmid e he
    · exact quiet_call last e he
  have hcalls : calls (mid ++ [Event.call last]) = calls mid ++ [last] := calls_append _ _
  have hlast : last ∈ calls mid ++ [last] := List.mem_append_right _ List.mem_cons_self
  rcases calls_of_triggered hsamples hrest hquiet hs₁ with hnone | ⟨counted, d, rest, heq, hlen, hcounted, hd, hafter⟩
  · rw [hcalls] at hnone
    rw [hnone last hlast] at hdone
    cases hdone
  · rw [hcalls] at heq
    -- Only the last call is done.
    have hnil : rest = [] := by
      by_contra hne
      obtain ⟨init, x, rfl⟩ := (List.eq_nil_or_concat' rest).resolve_left hne
      have hx : last = x := by
        have hlasts := congrArg List.getLast? heq
        rw [List.getLast?_concat, ← List.cons_append, ← List.append_assoc, List.getLast?_concat] at hlasts
        exact Option.some.inj hlasts
      rw [hx, hafter x (List.mem_append_right _ List.mem_cons_self)] at hdone
      cases hdone
    subst hnil
    obtain ⟨rfl, hd'⟩ := List.append_inj' heq rfl
    obtain ⟨rfl⟩ := List.singleton_inj.mp hd'
    refine ⟨hs, by rw [← hcount]; exact hlen, hd, hnotFull,
      List.forall_mem_cons.mpr ⟨?_, fun c hc => (hcounted c hc).1⟩⟩
    rw [hstored, hnotFull]

/-- **The captures that are complete**: the count is 0 when the trigger comes, and the queue has room at all calls up to
the last. (The count would be all ones after `2 ^ 32` triggers of captures that are not done. Then one call too many is
counted, for which the queue must have no room.)

**Proof sketch.** Each call from the trigger on adds one to the count until it is `samples`, and the call after that is
done. So there are as many calls as there should be, and some may be left out; or fewer. -/
theorem complete_iff {dataWidth samples : ℕ} (hsamples : samples < 2 ^ 32) {s s' : BlueScope dataWidth samples}
    {first last : Call dataWidth} {mid : List (Event dataWidth)}
    (h : (blueScope dataWidth samples).Reaches s (.call first :: (mid ++ [.call last])) s')
    (htrigger : first.trigger = true) (hmid : Quiet mid) (hdone : last.done = true) :
    Complete samples (.call first :: (mid ++ [.call last])) ↔
      (s.countReg = 0 ∧ ∀ c ∈ calls mid, c.notFull = true) ∨
        (s.countReg = BitVec.allOnes 32 ∧
          (first :: calls mid).map Call.notFull = List.replicate samples true ++ [false]) := by
  obtain ⟨-, hlen, hd, hnotFull, hcounted⟩ := calls_of_capture hsamples h htrigger hmid hdone
  have hcalls : calls (.call first :: (mid ++ [Event.call last])) = (first :: calls mid) ++ [last] := by
    rw [calls_call, calls_append]
    rfl
  have hlt := s.countReg.isLt
  have hones : (BitVec.allOnes 32).toNat = 2 ^ 32 - 1 := BitVec.toNat_allOnes
  have hlength : (first :: calls mid).length = (calls mid).length + 1 := List.length_cons
  rw [BitVec.toNat_add, show (1 : BitVec 32).toNat = 1 from rfl] at hlen
  rcases Nat.eq_zero_or_pos s.countReg.toNat with hzero | hpos
  · have hcount : s.countReg = 0 := BitVec.eq_of_toNat_eq hzero
    rw [complete_iff_of_eq hcalls hd hcounted (by rw [hlength]; omega), List.forall_mem_cons]
    simp [hcount, hnotFull]
  · have hne : s.countReg ≠ 0 := by
      rintro heq
      rw [heq] at hpos
      cases hpos
    by_cases hwrap : s.countReg = BitVec.allOnes 32
    · have hall : s.countReg.toNat = 2 ^ 32 - 1 := by rw [hwrap, hones]
      rw [complete_iff_of_succ hcalls hd hcounted (by rw [hlength]; omega)]
      simp only [hne, false_and, false_or]
      simp only [hwrap, true_and]
    · have hall : s.countReg.toNat ≠ 2 ^ 32 - 1 := fun heq =>
        hwrap (BitVec.eq_of_toNat_eq (by rw [heq, hones]))
      simp only [hne, hwrap, false_and, or_false, iff_false]
      exact not_complete_of_lt hcalls hd (by rw [hlength]; omega)

/-- A capture is not started again before it is done. -/
def NoRestart (s : BlueScope dataWidth samples) (a : Action dataWidth) : Prop :=
  match a with
  | .start => s.stateReg ≠ .triggered
  | _ => True

instance (s : BlueScope dataWidth samples) : ∀ a, Decidable (NoRestart s a)
  | .start => inferInstanceAs (Decidable (s.stateReg ≠ .triggered))
  | .dataIn _ _ => inferInstanceAs (Decidable True)
  | .reset => inferInstanceAs (Decidable True)
  | .setTriggerMask _ => inferInstanceAs (Decidable True)
  | .setTriggerValue _ => inferInstanceAs (Decidable True)
  | .drain => inferInstanceAs (Decidable True)
  | .sync => inferInstanceAs (Decidable True)

/-- Then the count is 0 outside of captures. -/
lemma countReg_eq_zero (h : ((blueScope dataWidth samples).guard NoRestart).Reaches .reset tr s)
    (hs : s.stateReg ≠ .triggered) : s.countReg = 0 := by
  refine h.invariant (I := fun _ s => s.stateReg ≠ .triggered → s.countReg = 0) (fun _ => rfl) ?_ hs
  intro tr s a s' es hi hstep hs'
  obtain ⟨hgood, hstep⟩ := RuleSystem.guard_step.mp hstep
  cases a with
  | dataIn data trigger =>
    cases hstep
    unfold dataIn at hs' ⊢
    dsimp only at hs' ⊢
    split at hs'
    · exact absurd rfl hs'
    · split at hs'
      · rename_i hhit hdone
        rw [if_neg hhit, if_pos hdone]
      · split at hs'
        · rename_i hcounted
          exact absurd hcounted.1 hs'
        · rename_i hhit hdone hcounted
          rw [if_neg hhit, if_neg hdone, if_neg hcounted]
          exact hi hs'
  | start =>
    cases hstep
    exact hi hgood
  | reset =>
    cases hstep
    rfl
  | setTriggerMask mask =>
    cases hstep
    exact hi hs'
  | setTriggerValue value =>
    cases hstep
    exact hi hs'
  | drain =>
    obtain ⟨r, -, heq⟩ := Option.map_eq_some_iff.mp hstep
    cases heq
    exact hi hs'
  | sync =>
    obtain ⟨dfifo, -, heq⟩ := Option.map_eq_some_iff.mp hstep
    cases heq
    exact hi hs'

/-- **The captures that are complete, where none is started again before it is done**: those for which the queue has
room at all calls up to the last. -/
theorem complete_iff_room (hsamples : samples < 2 ^ 32)
    (h₀ : ((blueScope dataWidth samples).guard NoRestart).Reaches .reset tr s) {first last : Call dataWidth}
    {mid : List (Event dataWidth)}
    (h : (blueScope dataWidth samples).Reaches s (.call first :: (mid ++ [Event.call last])) s')
    (htrigger : first.trigger = true) (hmid : Quiet mid) (hdone : last.done = true) :
    Complete samples (.call first :: (mid ++ [Event.call last])) ↔ ∀ c ∈ calls mid, c.notFull = true := by
  have henabled := (calls_of_capture hsamples h htrigger hmid hdone).1
  have hcount := countReg_eq_zero h₀ (by rw [henabled]; exact State.noConfusion)
  have hones : (0 : BitVec 32) ≠ BitVec.allOnes 32 := by decide
  rw [complete_iff hsamples h htrigger hmid hdone, hcount]
  simp only [true_and, hones, false_and, or_false]

/-- The module is started, and two samples are captured. -/
def started : BlueScope 8 2 := ((blueScope 8 2).run reset [.start]).1

def firstCapture := (blueScope 8 2).run started [.dataIn 1 0, .dataIn 2 0, .dataIn 3 0]

/-- The queue has room for both. -/
theorem complete_iff_firstCapture :
    firstCapture.2 = [.call ⟨1, true, true, true, false⟩, .call ⟨2, true, false, true, false⟩,
        .call ⟨3, false, false, false, true⟩] ∧ Complete 2 firstCapture.2 := by
  have hcalls : firstCapture.2 = .call ⟨1, true, true, true, false⟩ ::
      ([Event.call ⟨2, true, false, true, false⟩] ++ [Event.call ⟨3, false, false, false, true⟩]) := by
    decide +kernel
  have hreaches : (blueScope 8 2).Reaches started firstCapture.2 firstCapture.1 := RuleSystem.reaches_run _ _
  refine ⟨hcalls, ?_⟩
  rw [hcalls] at hreaches ⊢
  refine (complete_iff (by decide) hreaches rfl (quiet_call _) rfl).mpr (.inl ⟨by decide +kernel, ?_⟩)
  intro c hc
  rw [List.mem_singleton.mp hc]

/-- One of the words is drained, and the module is started again. -/
def restarted := (blueScope 8 2).run reset [.start, .dataIn 1 0, .dataIn 2 0, .dataIn 3 0, .drain, .sync, .start]

def secondCapture := (blueScope 8 2).run restarted.1 [.dataIn 4 0, .dataIn 5 0, .dataIn 6 0]

/-- The second sample finds the queue full, and is left out. -/
theorem not_complete_secondCapture :
    (blueScope 8 2).Reaches .reset restarted.2 restarted.1 ∧
      (blueScope 8 2).Reaches restarted.1 secondCapture.2 secondCapture.1 ∧
      secondCapture.2 = [.call ⟨4, true, true, true, false⟩, .call ⟨5, false, false, false, false⟩,
        .call ⟨6, false, false, false, true⟩] ∧ ¬Complete 2 secondCapture.2 := by
  refine ⟨RuleSystem.reaches_run _ _, RuleSystem.reaches_run _ _, by decide +kernel, fun h => ?_⟩
  exact absurd h.length (by decide +kernel)

end BlueScope

end Xbsv
