import Xbsv.Cores.FibMachine
import Xbsv.Cores.StackReg
import Xbsv.Rules.Ends

set_option relaxedAutoImplicit false
set_option autoImplicit false

/-!
# `FibWide.bsv`

Fibonacci numbers by recursion, one call or return in each cycle, with the frames in `mkStackReg`. A request gives the
argument, of which 16 bits are used, and after some cycles the result comes back as an indication.

The stack has room for 127 frames below the top. Calls for arguments up to 127 fit; beyond that `fp` begins again at 0.

## Main definitions

* `Xbsv.fibWide` — the design, cycle by cycle.
* `Xbsv.FibWide.Matches` — how a state stands for one of the machine that calls and returns.

## Main results

* `Xbsv.FibWide.Matches.rule` — a cycle is a step of that machine.
* `Xbsv.FibWide.answers_requests` — the indications are the Fibonacci numbers that were asked for.
-/

namespace Xbsv

open Rules

namespace FibWide

/-! ## The source -/

/-- `FSState`. -/
inductive FSState
  | idle
  | state1
  | state2
  | state3
  | complete
  deriving DecidableEq

end FibWide

/-- The state of `mkFibRequest`. -/
structure FibWide where
  frame : StackReg 128 FibWide.FSState (BitVec 16) (BitVec 16)
  fibretval : BitVec 16

namespace FibWide

/-- After reset, with whatever the registers and memories without a reset value hold. -/
def reset (args vars : BitVec 16) (next : Frame FSState (BitVec 16) (BitVec 16))
    (ram : BitVec (tlog 128) → Frame FSState (BitVec 16) (BitVec 16)) : FibWide :=
  ⟨StackReg.reset .idle args vars next ram, 0⟩

/-- A cycle with a request, and one without, in which the indication can be made or not. -/
inductive Action
  | fib (v : BitVec 32)
  | clock (ready : Bool)

inductive Event
  | requested (v : BitVec 32)
  | fibresult (v : BitVec 32)

/-- The rules `fib1`, `fib2`, `fib3` and `fibcomplete`, of which at most one is enabled. -/
def rules (s : FibWide) (ready : Bool) : FibWide × List Event :=
  match s.frame.pc.top with
  | .idle => ({ s with frame := s.frame.cycle .idle }, [])
  | .state1 =>
    if s.frame.args.top = 0 then (⟨s.frame.cycle .doreturn, 0⟩, [])
    else if s.frame.args.top = 1 then (⟨s.frame.cycle .doreturn, 1⟩, [])
    else ({ s with frame := s.frame.cycle (.docall .state1 .state2 (s.frame.args.top - 1) 0) }, [])
  | .state2 => ({ s with frame := s.frame.cycle (.docall .state1 .state3 (s.frame.args.top - 2) s.fibretval) }, [])
  | .state3 => (⟨s.frame.cycle .doreturn, s.frame.vars.top + s.fibretval⟩, [])
  | .complete =>
    if ready then
      ({ s with frame := s.frame.cycle (.nextpc .idle) }, [.fibresult (s.fibretval.setWidth 32)])
    else ({ s with frame := s.frame.cycle .idle }, [])

def step (s : FibWide) : Action → Option (FibWide × List Event)
  | .fib v =>
    some ({ s with frame := s.frame.cycle (.docall .state1 .complete (v.setWidth 16) 0) }, [.requested v])
  | .clock ready => some (s.rules ready)

/-- Nothing is being computed. -/
def Idle (s : FibWide) : Prop := s.frame.pc.top = .idle

instance (s : FibWide) : Decidable s.Idle := inferInstanceAs (Decidable (_ = _))

/-- The caller waits for the result of one request before the next, and asks for what fits. -/
def Waits (s : FibWide) : Action → Prop
  | .fib v => s.Idle ∧ (v.setWidth 16).toNat ≤ 127
  | .clock _ => True

instance (s : FibWide) (a : Action) : Decidable (s.Waits a) := by
  cases a <;> unfold Waits <;> infer_instance

/-- A cycle in which the computation is not held up. -/
def Works (s : FibWide) : Action → Prop
  | .fib _ => False
  | .clock ready => ¬s.Idle ∧ ready = true

instance (s : FibWide) (a : Action) : Decidable (s.Works a) := by
  cases a <;> unfold Works <;> infer_instance

end FibWide

/-- `mkFibRequest`. -/
def fibWide : RuleSystem FibWide FibWide.Action FibWide.Event where
  step s a := s.step a

namespace FibWide

/-! ## The trace -/

/-- The arguments that were asked for. -/
def requests (tr : List Event) : List (BitVec 32) :=
  tr.filterMap fun
    | .requested v => some v
    | .fibresult _ => none

def results (tr : List Event) : List (BitVec 32) :=
  tr.filterMap fun
    | .requested _ => none
    | .fibresult v => some v

section Traces

variable (tr : List Event) (v : BitVec 32)

lemma requests_requested : requests (tr ++ [Event.requested v]) = requests tr ++ [v] := List.filterMap_append

lemma requests_fibresult : requests (tr ++ [Event.fibresult v]) = requests tr := by
  rw [requests, List.filterMap_append]
  exact List.append_nil _

lemma results_requested : results (tr ++ [Event.requested v]) = results tr := by
  rw [results, List.filterMap_append]
  exact List.append_nil _

lemma results_fibresult : results (tr ++ [Event.fibresult v]) = results tr ++ [v] := List.filterMap_append

end Traces

/-! ## The machine that calls and returns -/

/-- What the frames on the stack stand for. -/
def Saves (f : Frame FSState (BitVec 16) (BitVec 16)) : FibCont → Prop
  | .first n => f.pc = .state2 ∧ f.args = BitVec.ofNat 16 n
  | .second tmp1 => f.pc = .state3 ∧ f.vars = tmp1

/-- The frame of the request is the deepest one that counts. -/
def Frames : List (Frame FSState (BitVec 16) (BitVec 16)) → List FibCont → Prop
  | [f], [] => f.pc = .complete
  | f :: fs, c :: k => Saves f c ∧ Frames fs k
  | _, _ => False

/-- **The representation** of the machine that calls and returns. -/
def Matches (c : CallStack FSState (BitVec 16) (BitVec 16)) (fibretval : BitVec 16) : FibConfig → Prop
  | .call n k => c.top.pc = .state1 ∧ c.top.args = BitVec.ofNat 16 n ∧ Frames c.saved k
  | .ret x k => fibretval = x ∧ Frames (c.top :: c.saved) k

/-- Only the frame of the request is left. -/
lemma frames_nil {f : Frame FSState (BitVec 16) (BitVec 16)} {fs : List (Frame FSState (BitVec 16) (BitVec 16))}
    (h : Frames (f :: fs) []) : f.pc = .complete ∧ fs = [] := by
  cases fs with
  | nil => exact ⟨h, rfl⟩
  | cons g gs => exact absurd h id

/-- The frame on top of others. -/
lemma frames_cons {f : Frame FSState (BitVec 16) (BitVec 16)} {fs : List (Frame FSState (BitVec 16) (BitVec 16))}
    {c : FibCont} {k : List FibCont} : Frames (f :: fs) (c :: k) ↔ Saves f c ∧ Frames fs k := by
  cases fs <;> exact Iff.rfl

lemma Frames.length_eq {fs : List (Frame FSState (BitVec 16) (BitVec 16))} {k : List FibCont} (h : Frames fs k) :
    fs.length = k.length + 1 := by
  induction fs generalizing k with
  | nil => cases k <;> exact absurd h id
  | cons f fs ih =>
    cases k with
    | nil =>
      cases fs with
      | nil => rfl
      | cons g gs => exact absurd h id
    | cons c k => rw [List.length_cons, List.length_cons, ih (frames_cons.mp h).2]

variable {s : FibWide} {c : CallStack FSState (BitVec 16) (BitVec 16)} {f : FibConfig}

/-- A return takes the frame that was saved last. -/
lemma exists_doreturn {k : List FibCont} (hc : s.frame.Represents c) (hk : Frames c.saved k) :
    ∃ c', (s.frame.cycle .doreturn).Represents c' ∧ Frames (c'.top :: c'.saved) k := by
  obtain ⟨top, saved⟩ := c
  cases saved with
  | nil => cases k <;> exact absurd hk id
  | cons f fs => exact ⟨⟨f, fs⟩, hc.cycle rfl, hk⟩

/-- A call saves the frame. -/
lemma exists_docall {k : List FibCont} (hc : s.frame.Represents c) (hk : Frames c.saved k) (hlt : k.length + 2 < 128)
    (c' : FibCont) (returnto : FSState) (args vars : BitVec 16)
    (hsaves : Saves ⟨returnto, c.top.args, vars⟩ c') :
    ∃ c₁, (s.frame.cycle (.docall .state1 returnto args vars)).Represents c₁ ∧ c₁.top.pc = .state1 ∧
      c₁.top.args = args ∧ Frames c₁.saved (c' :: k) := by
  have hstep : c.step 128 (.docall .state1 returnto args vars) =
      some ⟨⟨.state1, args, vars⟩, ⟨returnto, c.top.args, vars⟩ :: c.saved⟩ :=
    if_pos (by rw [hk.length_eq]; exact hlt)
  exact ⟨_, hc.cycle hstep, rfl, rfl, frames_cons.mpr ⟨hsaves, hk⟩⟩

/-- **A cycle is a step** of the machine that calls and returns, until it is done. -/
lemma Matches.rule (h : Matches c s.fibretval f) (hc : s.frame.Represents c) (hfits : f.Fits 127) (hleft : f.left ≠ 0)
    (ready : Bool) : (s.rules ready).2 = [] ∧
      ∃ c', (s.rules ready).1.frame.Represents c' ∧ Matches c' (s.rules ready).1.fibretval f.step := by
  have hframe := hc.frame
  have hpc : s.frame.pc.top = c.top.pc := congrArg Frame.pc hframe
  have hargs : s.frame.args.top = c.top.args := congrArg Frame.args hframe
  have hvars : s.frame.vars.top = c.top.vars := congrArg Frame.vars hframe
  match f with
  | .call 0 k =>
    obtain ⟨hstate, hn, hk⟩ := h
    obtain ⟨c', hc', hk'⟩ := exists_doreturn hc hk
    have hrules : s.rules ready = (⟨s.frame.cycle .doreturn, 0⟩, []) := by
      rw [rules, hpc, hstate, hargs, hn]
      rfl
    rw [hrules]
    exact ⟨rfl, c', hc', rfl, hk'⟩
  | .call 1 k =>
    obtain ⟨hstate, hn, hk⟩ := h
    obtain ⟨c', hc', hk'⟩ := exists_doreturn hc hk
    have hrules : s.rules ready = (⟨s.frame.cycle .doreturn, 1⟩, []) := by
      rw [rules, hpc, hstate, hargs, hn]
      rfl
    rw [hrules]
    exact ⟨rfl, c', hc', rfl, hk'⟩
  | .call (n + 2) k =>
    obtain ⟨hstate, hn, hk⟩ := h
    have hle : n + 2 + k.length ≤ 127 := hfits.1
    obtain ⟨hzero, hone⟩ := ofNat_add_two_ne (n := n) (by omega)
    obtain ⟨c', hc', hstate', hargs', hk'⟩ := exists_docall hc hk (by omega) (.first (n + 2)) .state2
      (BitVec.ofNat 16 (n + 1)) 0 ⟨rfl, hn⟩
    have hrules : s.rules ready =
        ({ s with frame := s.frame.cycle (.docall .state1 .state2 (BitVec.ofNat 16 (n + 1)) 0) }, []) := by
      rw [rules, hpc, hstate, hargs, hn]
      simp only [if_neg hzero, if_neg hone, ofNat_add_two_sub_one]
    rw [hrules]
    exact ⟨rfl, c', hc', hstate', hargs', hk'⟩
  | .ret x (.first n :: k) =>
    obtain ⟨rfl, hk⟩ := h
    obtain ⟨⟨hstate, hn⟩, hk⟩ := frames_cons.mp hk
    obtain ⟨htwo, hle, -⟩ := hfits
    obtain ⟨c', hc', hstate', hargs', hk'⟩ := exists_docall hc hk (by omega) (.second s.fibretval) .state3
      (BitVec.ofNat 16 (n - 2)) s.fibretval ⟨rfl, rfl⟩
    have hrules : s.rules ready =
        ({ s with frame := s.frame.cycle (.docall .state1 .state3 (BitVec.ofNat 16 (n - 2)) s.fibretval) }, []) := by
      rw [rules, hpc, hstate, hargs, hn, ofNat_sub_two htwo]
    rw [hrules]
    exact ⟨rfl, c', hc', hstate', hargs', hk'⟩
  | .ret x (.second tmp1 :: k) =>
    obtain ⟨rfl, hk⟩ := h
    obtain ⟨⟨hstate, htmp1⟩, hk⟩ := frames_cons.mp hk
    obtain ⟨c', hc', hk'⟩ := exists_doreturn hc hk
    have hrules : s.rules ready = (⟨s.frame.cycle .doreturn, tmp1 + s.fibretval⟩, []) := by
      rw [rules, hpc, hstate, hvars, htmp1]
    rw [hrules]
    exact ⟨rfl, c', hc', rfl, hk'⟩
  | .ret x [] => exact absurd rfl hleft

/-! ## Runs -/

/-- Between two requests, or with one of them under way, for which `left` cycles are left. -/
inductive Serves (tr : List Event) (s : FibWide) : ℕ → Prop
  | idle (c : CallStack FSState (BitVec 16) (BitVec 16)) (hc : s.frame.Represents c) (hpc : c.top.pc = .idle)
    (hsaved : c.saved = []) (htr : results tr = (requests tr).map fibAnswer) : Serves tr s 0
  | busy (c : CallStack FSState (BitVec 16) (BitVec 16)) (hc : s.frame.Represents c) (f : FibConfig)
    (hf : Matches c s.fibretval f) (hfits : f.Fits 127)
    (htr : results tr ++ [f.value.setWidth 32] = (requests tr).map fibAnswer) : Serves tr s (f.left + 1)

variable {tr es : List Event} {s' : FibWide} {n : ℕ}

lemma serves_reset (args vars : BitVec 16) (next : Frame FSState (BitVec 16) (BitVec 16))
    (ram : BitVec (tlog 128) → Frame FSState (BitVec 16) (BitVec 16)) : Serves [] (reset args vars next ram) 0 :=
  .idle _ (StackReg.represents_reset _ _ _ _ _) rfl rfl rfl

/-- A state that is not idle has a frame of the request. -/
lemma Serves.idle_iff (h : Serves tr s n) : s.Idle ↔ n = 0 := by
  cases h with
  | idle c hc hpc hsaved htr => exact ⟨fun _ => rfl, fun _ => (congrArg Frame.pc hc.frame).trans hpc⟩
  | busy c hc f hf hfits htr =>
    refine ⟨fun hidle => ?_, fun h => absurd h (Nat.succ_ne_zero _)⟩
    have hpc : c.top.pc = .idle := (congrArg Frame.pc hc.frame).symm.trans hidle
    match f with
    | .call m k => cases hf.1.symm.trans hpc
    | .ret x [] => cases (frames_nil hf.2).1.symm.trans hpc
    | .ret x (.first m :: k) => cases (frames_cons.mp hf.2).1.1.symm.trans hpc
    | .ret x (.second tmp1 :: k) => cases (frames_cons.mp hf.2).1.1.symm.trans hpc

/-- A request is taken. -/
lemma Serves.request (h : Serves tr s 0) {v : BitVec 32} (hv : (v.setWidth 16).toNat ≤ 127)
    (hs : s.step (.fib v) = some (s', es)) : ∃ n, Serves (tr ++ es) s' n := by
  cases hs
  cases h with
  | idle c hc hpc hsaved htr =>
    obtain ⟨top, saved⟩ := c
    cases hsaved
    have hcall : (CallStack.mk top []).step 128 (.docall .state1 .complete (v.setWidth 16) (0 : BitVec 16)) =
        some ⟨⟨.state1, v.setWidth 16, 0⟩, [⟨.complete, top.args, 0⟩]⟩ := rfl
    have hbase : Frames [⟨.complete, top.args, 0⟩] [] := rfl
    refine ⟨_, .busy _ (hc.cycle hcall) (.call (v.setWidth 16).toNat []) ⟨rfl, ?_, hbase⟩ ⟨hv, by decide, trivial⟩ ?_⟩
    · show v.setWidth 16 = BitVec.ofNat 16 (v.setWidth 16).toNat
      rw [BitVec.ofNat_toNat, BitVec.setWidth_eq]
    · rw [results_requested, requests_requested, List.map_append, htr]
      rfl

/-- **What a cycle does.** If the indication can be made there is one cycle less left. -/
lemma Serves.clock (h : Serves tr s n) {ready : Bool} (hs : s.step (.clock ready) = some (s', es)) :
    ∃ n', Serves (tr ++ es) s' n' ∧ (n ≠ 0 → ready = true → n' < n ∧ requests (tr ++ es) = requests tr) := by
  have hs : s.rules ready = (s', es) := Option.some.inj hs
  have hwait {c : CallStack FSState (BitVec 16) (BitVec 16)} (hc : s.frame.Represents c) :
      (s.frame.cycle .idle).Represents c := hc.cycle rfl
  cases h with
  | idle c hc hpc hsaved htr =>
    have hstate : s.frame.pc.top = .idle := (congrArg Frame.pc hc.frame).trans hpc
    rw [rules, hstate] at hs
    cases hs
    refine ⟨0, ?_, fun h => absurd rfl h⟩
    rw [List.append_nil]
    exact .idle c (hwait hc) hpc hsaved htr
  | busy c hc f hf hfits htr =>
    by_cases hleft : f.left = 0
    · match f with
      | .call 0 k | .call 1 k =>
        simp only [FibConfig.left, FibConfig.steps] at hleft
        omega
      | .call (m + 2) k =>
        simp only [FibConfig.left, FibConfig.steps] at hleft
        omega
      | .ret x (.first m :: k) | .ret x (.second tmp1 :: k) =>
        simp only [FibConfig.left, FibConfig.pending] at hleft
        omega
      | .ret x [] =>
        obtain ⟨rfl, hk⟩ := hf
        obtain ⟨hpc, hsaved⟩ := frames_nil hk
        have hstate : s.frame.pc.top = .complete := (congrArg Frame.pc hc.frame).trans hpc
        rw [rules, hstate] at hs
        cases ready with
        | false =>
          cases hs
          refine ⟨_, .busy c (hwait hc) (.ret s.fibretval []) ⟨rfl, hk⟩ trivial ?_, fun _ h => by cases h⟩
          rw [List.append_nil]
          exact htr
        | true =>
          cases hs
          have hc' : (s.frame.cycle (.nextpc .idle)).Represents ⟨⟨.idle, c.top.args, c.top.vars⟩, c.saved⟩ := hc.cycle rfl
          refine ⟨0, .idle _ hc' rfl hsaved ?_, fun _ _ => ⟨?_, ?_⟩⟩
          · rw [results_fibresult, requests_fibresult]
            exact htr
          · exact Nat.succ_pos _
          · exact requests_fibresult _ _
    · obtain ⟨hnone, c', hc', hmatch⟩ := hf.rule hc hfits hleft ready
      rw [hs] at hnone hc' hmatch
      obtain rfl : es = [] := hnone
      refine ⟨_, .busy c' hc' f.step hmatch hfits.step ?_, fun _ _ => ⟨?_, ?_⟩⟩
      · rw [List.append_nil, FibConfig.value_step]
        exact htr
      · rw [FibConfig.left_step]
        omega
      · rw [List.append_nil]

/-- What holds in every run in which the caller waits. -/
lemma exists_serves {args vars : BitVec 16} {next : Frame FSState (BitVec 16) (BitVec 16)}
    {ram : BitVec (tlog 128) → Frame FSState (BitVec 16) (BitVec 16)}
    (h : (fibWide.guard Waits).Reaches (reset args vars next ram) tr s) : ∃ n, Serves tr s n := by
  refine h.invariant (I := fun tr s => ∃ n, Serves tr s n) ⟨0, serves_reset _ _ _ _⟩ fun {tr s a s' es} hI hs => ?_
  obtain ⟨n, hn⟩ := hI
  obtain ⟨hw, hs⟩ := RuleSystem.guard_step.mp hs
  cases a with
  | fib v =>
    obtain rfl := hn.idle_iff.mp hw.1
    exact hn.request hw.2 hs
  | clock ready =>
    obtain ⟨n', hn', -⟩ := hn.clock hs
    exact ⟨n', hn'⟩

/-- **The indications are the Fibonacci numbers that were asked for**, in order, when the caller waits for each of them and
asks for no argument above 127. From every state the design comes to the last of them, if indications can be made. -/
theorem answers_requests (args vars : BitVec 16) (next : Frame FSState (BitVec 16) (BitVec 16))
    (ram : BitVec (tlog 128) → Frame FSState (BitVec 16) (BitVec 16)) {tr : List Event} {s : FibWide}
    (h : (fibWide.guard Waits).Reaches (reset args vars next ram) tr s) :
    results tr <+: (requests tr).map fibAnswer ∧ (s.Idle → results tr = (requests tr).map fibAnswer) ∧
      (fibWide.guard Works).Ends (fun tr' s' => s'.Idle ∧ results tr' = (requests tr).map fibAnswer) tr s := by
  obtain ⟨n, hn⟩ := exists_serves h
  have hidle {us : List Event} {t : FibWide} {m : ℕ} (hm : Serves us t m) (ht : t.Idle) :
      results us = (requests us).map fibAnswer := by
    obtain rfl := hm.idle_iff.mp ht
    cases hm with
    | idle c hc hpc hsaved htr => exact htr
  refine ⟨?_, hidle hn, RuleSystem.Ends.of_bound (I := fun m us t => Serves us t m ∧ requests us = requests tr) ?_ ?_
    ⟨hn, rfl⟩⟩
  · cases hn with
    | idle c hc hpc hsaved htr => exact htr ▸ List.prefix_refl _
    | busy c hc f hf hfits htr => exact ⟨_, htr⟩
  · rintro m us t a t' es ⟨hm, hus⟩ hs
    obtain ⟨hw, hs⟩ := RuleSystem.guard_step.mp hs
    cases a with
    | fib v => exact absurd hw id
    | clock ready =>
      obtain ⟨m', hm', hlt⟩ := hm.clock hs
      obtain ⟨hlt, hreq⟩ := hlt (fun hzero => hw.1 (hm.idle_iff.mpr hzero)) hw.2
      exact ⟨m', hlt, hm', hreq.trans hus⟩
  · rintro m us t ⟨hm, hus⟩ hstuck
    have ht : t.Idle := by
      by_contra hbusy
      have hw : t.Works (.clock true) := ⟨hbusy, rfl⟩
      have hs := RuleSystem.guard_step (M := fibWide) (C := Works).mpr ⟨hw, rfl⟩
      rw [hstuck] at hs
      cases hs
    rw [← hus]
    exact ⟨ht, hidle hm ht⟩

/-- A request for the third Fibonacci number. -/
def third :=
  (fibWide.guard Waits).run (reset 0 0 ⟨.idle, 0, 0⟩ fun _ => ⟨.idle, 0, 0⟩)
    (.fib 3 :: List.replicate 10 (.clock true))

theorem answers_requests_third : results third.2 = [2] ∧ results third.2 <+: (requests third.2).map fibAnswer :=
  ⟨by decide +kernel, (answers_requests 0 0 ⟨.idle, 0, 0⟩ (fun _ => ⟨.idle, 0, 0⟩) (RuleSystem.reaches_run _ _)).1⟩

end FibWide

end Xbsv
