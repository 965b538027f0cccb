import Mathlib.Data.List.Range
import Xbsv.Rules.Ends

set_option relaxedAutoImplicit false
set_option autoImplicit false

/-!
# Tokens

`examples/flowcontrol`: a program that may put a word into the hardware for each token that it has. The hardware gives tokens
back when it has room again. Requests and indications are under way for any time, and a thread of its own takes the
indications; it wakes up the main thread if that one waits.

The tokens are at six places: with the main thread, in the variable of the two threads, with the words under way, in the
hardware, under way back to the program, or not yet handed out. No word is ever refused. The main thread waits without
looking at the variable, so that it can miss its signal.

## Main definitions

* `Xbsv.Flowcontrol`, `Xbsv.flowcontrol` — the hardware, the two threads, and what is under way.
* `Xbsv.Flowcontrol.Tokens` — where the tokens are.

## Main results

* `Xbsv.Flowcontrol.flowcontrol_accepts` — words are accepted as soon as they arrive, and in order.
* `Xbsv.Flowcontrol.flowcontrol_ends` — how the runs end.
-/

namespace Xbsv

open Rules

/-! ## The source -/

/-- `SinkRequest` -/
inductive SinkRequest
  | init (v : ℕ)
  | put (v : ℕ)

/-- The main thread: at the head of its loop, in `pthread_cond_wait`, woken up there, in the loop that sends with its
`local_count`, or at the end. -/
inductive MainThread
  | test
  | waiting
  | woken
  | sending (localCount : ℕ)
  | done

/-- The register of `mkSinkRequest`, the variables of the program, and what is under way, oldest first. -/
structure Flowcontrol where
  hwCount : ℕ
  requests : List SinkRequest
  indications : List ℕ
  count : ℕ
  tokens : ℕ
  main : MainThread

namespace Flowcontrol

def threshold : ℕ := 4

def capacity : ℕ := 24

/-- The program has sent `init(0)`. -/
def start : Flowcontrol := ⟨0, [.init 0], [], 0, 0, .test⟩

/-- The methods of `SinkRequest`, when a request has arrived. -/
def request (s : Flowcontrol) : Option (Flowcontrol × List ℕ) :=
  match s.requests with
  | [] => none
  | .init _ :: requests => some ({ s with requests, indications := s.indications ++ [capacity] }, [])
  | .put v :: requests =>
    if s.hwCount < capacity then some ({ s with requests, hwCount := s.hwCount + 1 }, [v]) else none

/-- The rule `consume`. -/
def consume (s : Flowcontrol) : Option Flowcontrol :=
  if threshold ≤ s.hwCount then some { s with hwCount := 0, indications := s.indications ++ [s.hwCount] } else none

/-- `pthread_cond_signal`, which is lost on a thread that does not wait. -/
def signal : MainThread → MainThread
  | .waiting => .woken
  | main => main

/-- `returnTokens` of the program. -/
def returnTokens (s : Flowcontrol) : Option Flowcontrol :=
  match s.indications with
  | [] => none
  | v :: indications => some { s with indications, count := s.count + v, main := signal s.main }

/-- The main thread goes on. -/
def goOn (s : Flowcontrol) : Option Flowcontrol :=
  match s.main with
  | .test => some { s with main := if s.tokens < 32 then .waiting else .done }
  | .waiting => none
  | .woken => some { s with main := .sending s.count, count := 0 }
  | .sending 0 => some { s with main := .test }
  | .sending (n + 1) =>
    some { s with main := .sending n, tokens := s.tokens + 1, requests := s.requests ++ [.put s.tokens] }
  | .done => none

/-- A thread may wake up without a signal. -/
def wakeUp (s : Flowcontrol) : Option Flowcontrol :=
  match s.main with
  | .waiting => some { s with main := .woken }
  | _ => none

inductive Action
  | request
  | consume
  | returnTokens
  | goOn
  | wakeUp
  deriving DecidableEq

/-- The words that the hardware accepts are visible. -/
def step (s : Flowcontrol) : Action → Option (Flowcontrol × List ℕ)
  | .request => s.request
  | .consume => s.consume.map fun s' => (s', [])
  | .returnTokens => s.returnTokens.map fun s' => (s', [])
  | .goOn => s.goOn.map fun s' => (s', [])
  | .wakeUp => s.wakeUp.map fun s' => (s', [])

end Flowcontrol

/-- The example. -/
def flowcontrol : RuleSystem Flowcontrol Flowcontrol.Action ℕ where
  step s a := s.step a

namespace Flowcontrol

/-! ## Where the tokens are -/

/-- The tokens that a request stands for. -/
def weight : SinkRequest → ℕ
  | .init _ => capacity
  | .put _ => 1

/-- The tokens of the main thread. -/
def held : MainThread → ℕ
  | .sending n => n
  | _ => 0

/-- The words of the requests. -/
def words (requests : List SinkRequest) : List ℕ :=
  requests.filterMap fun
    | .init _ => none
    | .put v => some v

@[simp] lemma words_cons_init (v : ℕ) (requests : List SinkRequest) : words (.init v :: requests) = words requests := rfl

@[simp] lemma words_cons_put (v : ℕ) (requests : List SinkRequest) : words (.put v :: requests) = v :: words requests := rfl

@[simp] lemma words_concat_put (v : ℕ) (requests : List SinkRequest) :
    words (requests ++ [.put v]) = words requests ++ [v] := by
  simp [words]

/-- There are as many tokens as the hardware has room, the words come in order, and not too many of them are sent. -/
structure Tokens (tr : List ℕ) (s : Flowcontrol) : Prop where
  sum : held s.main + s.count + (s.requests.map weight).sum + s.hwCount + s.indications.sum = capacity
  order : tr ++ words s.requests = List.range s.tokens
  waiting : s.main = .waiting ∨ s.main = .woken → s.tokens < 32
  bounded : s.tokens + held s.main < 32 + capacity
  done : s.main = .done → 32 ≤ s.tokens

lemma Tokens.start : Tokens [] start := by
  constructor <;> simp [Flowcontrol.start, held, weight, capacity, words]

variable {tr es : List ℕ} {s s' : Flowcontrol}

/-- The hardware has room for a word that arrives. -/
lemma Tokens.hwCount_lt (h : Tokens tr s) {v : ℕ} {requests : List SinkRequest} (hr : s.requests = .put v :: requests) :
    s.hwCount < capacity := by
  have hsum := h.sum
  rw [hr] at hsum
  simp [weight] at hsum
  omega

lemma Tokens.request (h : Tokens tr s) (hs : s.request = some (s', es)) : Tokens (tr ++ es) s' := by
  have hsum := h.sum
  have horder := h.order
  unfold Flowcontrol.request at hs
  split at hs
  case h_1 => cases hs
  case h_2 v requests hr =>
    cases hs
    rw [hr] at hsum horder
    refine ⟨?_, by simpa using horder, h.waiting, h.bounded, h.done⟩
    simp [weight] at hsum ⊢
    omega
  case h_3 v requests hr =>
    rw [if_pos (h.hwCount_lt hr)] at hs
    cases hs
    rw [hr] at hsum horder
    refine ⟨?_, by simpa using horder, h.waiting, h.bounded, h.done⟩
    simp [weight] at hsum ⊢
    omega

lemma Tokens.consume (h : Tokens tr s) (hs : s.consume = some s') : Tokens tr s' := by
  have hsum := h.sum
  unfold Flowcontrol.consume at hs
  split at hs
  case isFalse => cases hs
  case isTrue hle =>
    cases hs
    refine ⟨?_, h.order, h.waiting, h.bounded, h.done⟩
    simp
    omega

lemma held_signal (m : MainThread) : held (signal m) = held m := by cases m <;> rfl

lemma Tokens.returnTokens (h : Tokens tr s) (hs : s.returnTokens = some s') : Tokens tr s' := by
  have hsum := h.sum
  unfold Flowcontrol.returnTokens at hs
  split at hs
  case h_1 => cases hs
  case h_2 v indications hi =>
    cases hs
    rw [hi, List.sum_cons] at hsum
    constructor
    case sum =>
      simp only [held_signal]
      omega
    case order => exact h.order
    case waiting =>
      intro hm
      refine h.waiting ?_
      cases hmain : s.main <;> simp [signal, hmain] at hm ⊢
    case bounded =>
      rw [held_signal]
      exact h.bounded
    case done =>
      intro hm
      refine h.done ?_
      cases hmain : s.main <;> simp [signal, hmain] at hm ⊢

lemma Tokens.goOn (h : Tokens tr s) (hs : s.goOn = some s') : Tokens tr s' := by
  have hsum := h.sum
  have hbounded := h.bounded
  unfold Flowcontrol.goOn at hs
  split at hs
  case h_1 hm =>
    cases hs
    rw [hm] at hsum hbounded
    by_cases hlt : s.tokens < 32
    · simp only [if_pos hlt]
      exact ⟨hsum, h.order, fun _ => hlt, hbounded, by simp⟩
    · simp only [if_neg hlt]
      exact ⟨hsum, h.order, by simp, hbounded, fun _ => Nat.le_of_not_lt hlt⟩
  case h_2 hm => cases hs
  case h_3 hm =>
    cases hs
    rw [hm] at hsum
    have hlt := h.waiting (.inr hm)
    simp only [held, Nat.zero_add] at hsum
    refine ⟨?_, h.order, by simp, ?_, by simp⟩
    · simp only [held]
      omega
    · simp only [held]
      omega
  case h_4 hm =>
    cases hs
    rw [hm] at hsum hbounded
    exact ⟨hsum, h.order, by simp, hbounded, by simp⟩
  case h_5 n hm =>
    cases hs
    rw [hm] at hsum hbounded
    have horder : tr ++ words (s.requests ++ [.put s.tokens]) = List.range (s.tokens + 1) := by
      rw [words_concat_put, ← List.append_assoc, h.order, List.range_succ]
    simp only [held] at hsum hbounded
    refine ⟨?_, horder, by simp, ?_, by simp⟩
    · simp only [held, weight, List.map_append, List.sum_append, List.map_cons, List.map_nil, List.sum_cons, List.sum_nil]
      omega
    · simp only [held]
      omega
  case h_6 hm => cases hs

lemma Tokens.wakeUp (h : Tokens tr s) (hs : s.wakeUp = some s') : Tokens tr s' := by
  have hsum := h.sum
  unfold Flowcontrol.wakeUp at hs
  split at hs
  case h_1 hm =>
    cases hs
    rw [hm] at hsum
    have hlt := h.waiting (.inl hm)
    have hbounded := h.bounded
    rw [hm] at hbounded
    exact ⟨hsum, h.order, fun _ => hlt, hbounded, by simp⟩
  case h_2 => cases hs

lemma Tokens.step (h : Tokens tr s) {a : Action} (hs : flowcontrol.step s a = some (s', es)) : Tokens (tr ++ es) s' := by
  have hmap : ∀ {o : Option Flowcontrol}, (o.map fun s' => (s', ([] : List ℕ))) = some (s', es) →
      (o = some s' → Tokens tr s') → Tokens (tr ++ es) s' := by
    intro o ho himp
    obtain ⟨y, hy, heq⟩ := Option.map_eq_some_iff.mp ho
    cases heq
    rw [List.append_nil]
    exact himp hy
  cases a with
  | request => exact h.request hs
  | consume => exact hmap hs h.consume
  | returnTokens => exact hmap hs h.returnTokens
  | goOn => exact hmap hs h.goOn
  | wakeUp => exact hmap hs h.wakeUp

/-- **No word is refused.** Whatever the order of the steps, also where a thread wakes up without a signal, a word that
arrives is accepted at once, the words accepted so far are the first ones in order, and no more than `55` are ever sent. -/
theorem flowcontrol_accepts {tr : List ℕ} {s : Flowcontrol} (h : flowcontrol.Reaches start tr s) :
    (∀ v requests, s.requests = .put v :: requests → ∃ s', flowcontrol.step s .request = some (s', [v])) ∧
      tr = List.range tr.length ∧ tr.length ≤ s.tokens ∧ s.tokens ≤ 55 := by
  have ht : Tokens tr s := h.invariant Tokens.start fun h hs => h.step hs
  refine ⟨fun v requests hr => ?_, ?_, ?_, ?_⟩
  · refine ⟨{ s with requests, hwCount := s.hwCount + 1 }, ?_⟩
    simp [flowcontrol, step, request, hr, ht.hwCount_lt hr]
  · have hlen := congrArg List.length ht.order
    rw [List.length_append, List.length_range] at hlen
    have htake := congrArg (List.take tr.length) ht.order
    rw [List.take_left, List.take_range, Nat.min_eq_left (by omega)] at htake
    exact htake
  · have hlen := congrArg List.length ht.order
    rw [List.length_append, List.length_range] at hlen
    omega
  · have hbounded := ht.bounded
    rw [capacity] at hbounded
    omega

/-- The first word, when it is under way. -/
def firstPut : List Action := [.goOn, .request, .returnTokens, .goOn, .goOn]

theorem flowcontrol_accepts_firstPut :
    ∃ s', flowcontrol.step (flowcontrol.run start firstPut).1 .request = some (s', [0]) :=
  (flowcontrol_accepts (RuleSystem.reaches_run start firstPut)).1 0 [] rfl

/-! ## The ends of the runs -/

/-- A weight of what is still to be done. -/
def stage : MainThread → ℕ
  | .test => 1
  | .waiting => 0
  | .woken => 3
  | .sending _ => 2
  | .done => 0

def cost : SinkRequest → ℕ
  | .init _ => 5
  | .put _ => 3

def bound (s : Flowcontrol) : ℕ :=
  4 * (55 - s.tokens) + (s.requests.map cost).sum + 2 * s.hwCount + 4 * s.indications.length + stage s.main

/-- Nothing can be done any more, except for a thread that wakes up without a signal. -/
structure Stuck (s : Flowcontrol) : Prop where
  requests : s.requests = []
  indications : s.indications = []
  hwCount : s.hwCount < threshold
  main : s.main = .waiting ∨ s.main = .done

lemma Tokens.bound_lt (h : Tokens tr s) {a : Action} (ha : a ≠ .wakeUp)
    (hs : flowcontrol.step s a = some (s', es)) : bound s' < bound s := by
  have hbounded := h.bounded
  cases a with
  | request =>
    simp only [flowcontrol, Flowcontrol.step, Flowcontrol.request] at hs
    split at hs
    case h_1 => cases hs
    case h_2 v requests hr =>
      cases hs
      simp [bound, hr, cost]
      omega
    case h_3 v requests hr =>
      rw [if_pos (h.hwCount_lt hr)] at hs
      cases hs
      simp [bound, hr, cost]
      omega
  | consume =>
    simp only [flowcontrol, Flowcontrol.step, Flowcontrol.consume] at hs
    split at hs
    case isFalse => cases hs
    case isTrue hle =>
      cases hs
      rw [threshold] at hle
      simp [bound]
      omega
  | returnTokens =>
    simp only [flowcontrol, Flowcontrol.step, Flowcontrol.returnTokens] at hs
    split at hs
    case h_1 => cases hs
    case h_2 v indications hi =>
      cases hs
      have hstage : stage (signal s.main) ≤ stage s.main + 3 := by cases s.main <;> simp [signal, stage]
      simp [bound, hi]
      omega
  | goOn =>
    simp only [flowcontrol, Flowcontrol.step, Flowcontrol.goOn] at hs
    split at hs
    case h_1 hm =>
      cases hs
      by_cases hlt : s.tokens < 32 <;> simp [bound, stage, hm, hlt]
    case h_2 hm => cases hs
    case h_3 hm =>
      cases hs
      simp [bound, stage, hm]
    case h_4 hm =>
      cases hs
      simp [bound, stage, hm]
    case h_5 n hm =>
      cases hs
      rw [hm, held, capacity] at hbounded
      simp [bound, stage, hm, cost]
      omega
    case h_6 hm => cases hs
  | wakeUp => exact absurd rfl ha

lemma Tokens.stuck (h : Tokens tr s) (hnone : ∀ a, a ≠ .wakeUp → flowcontrol.step s a = none) : Stuck s := by
  have hrequest := hnone .request (by decide)
  have hconsume := hnone .consume (by decide)
  have hreturn := hnone .returnTokens (by decide)
  have hgoOn := hnone .goOn (by decide)
  simp only [flowcontrol, Flowcontrol.step, Option.map_eq_none_iff] at hrequest hconsume hreturn hgoOn
  constructor
  case requests =>
    unfold Flowcontrol.request at hrequest
    split at hrequest
    case h_1 hr => exact hr
    case h_2 => cases hrequest
    case h_3 v requests hr =>
      rw [if_pos (h.hwCount_lt hr)] at hrequest
      cases hrequest
  case indications =>
    unfold Flowcontrol.returnTokens at hreturn
    split at hreturn
    case h_1 hi => exact hi
    case h_2 => cases hreturn
  case hwCount =>
    unfold Flowcontrol.consume at hconsume
    split at hconsume
    case isTrue => cases hconsume
    case isFalse hlt => exact Nat.lt_of_not_le hlt
  case main =>
    unfold Flowcontrol.goOn at hgoOn
    split at hgoOn
    case h_2 hm => exact .inl hm
    case h_6 hm => exact .inr hm
    all_goals cases hgoOn

/-- **How the runs end.** If no thread wakes up without a signal, then every run ends, with all words accepted that were
sent. Either these are at least `32`, or the main thread has missed its signal: it waits, although `21` tokens at least
are there for it. -/
theorem flowcontrol_ends : (flowcontrol.guard fun _ a => a ≠ .wakeUp).Ends
    (fun tr s => tr = List.range s.tokens ∧
      (s.main = .done ∧ 32 ≤ s.tokens ∨ s.main = .waiting ∧ s.tokens < 32 ∧ 21 ≤ s.count)) [] start := by
  refine RuleSystem.Ends.of_bound (I := fun n tr s => Tokens tr s ∧ n = bound s) ?_ ?_ ⟨Tokens.start, rfl⟩
  · rintro _ tr s a s' es ⟨h, rfl⟩ hs
    obtain ⟨ha, hs⟩ := RuleSystem.guard_step.mp hs
    exact ⟨_, h.bound_lt ha hs, h.step hs, rfl⟩
  · rintro _ tr s ⟨h, rfl⟩ hnone
    have hstuck := h.stuck fun a ha => by
      have hguard : (if a ≠ .wakeUp then flowcontrol.step s a else none) = none := hnone a
      rwa [if_pos ha] at hguard
    have horder := h.order
    have hsum := h.sum
    have hcount := hstuck.hwCount
    rw [hstuck.requests, words, List.filterMap_nil, List.append_nil] at horder
    rw [hstuck.requests, hstuck.indications] at hsum
    refine ⟨horder, ?_⟩
    rcases hstuck.main with hm | hm
    · rw [hm] at hsum
      simp only [held, capacity, threshold, List.map_nil, List.sum_nil] at hsum hcount
      exact .inr ⟨hm, h.waiting (.inl hm), by omega⟩
    · exact .inl ⟨hm, h.done hm⟩

/-- The shortest run in which the signal is missed. -/
example : (flowcontrol.run start [.request, .returnTokens, .goOn]).1 = ⟨0, [], [], 24, 0, .waiting⟩ := rfl

end Flowcontrol

end Xbsv
