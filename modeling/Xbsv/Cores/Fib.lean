import Xbsv.Cores.FibMachine
import Xbsv.Cores.StackReg
import Xbsv.Rules.Ends
import Xbsv.Rules.Fifo

set_option relaxedAutoImplicit false
set_option autoImplicit false

/-!
# `Fib.bsv` and `Stack.bsv`

Fibonacci numbers by recursion, with the frames in a block memory. A frame has three words, the argument, `tmp1`, and the
state to go on with; a call stores them one by one, and a return loads them again. Both are done by small sequencers, while
the other rules wait.

The stack has 128 frames. Calls for arguments up to 127 fit; beyond that `fp` begins again at 0.

## Main definitions

* `Xbsv.Stack` — the stack of `Stack.bsv`.
* `Xbsv.fib` — the design, as a system of rules.
* `Xbsv.Fib.Matches` — how a state stands for one of the machine that calls and returns.

## Main results

* `Xbsv.Fib.Serves.step` — what a rule does.
* `Xbsv.Fib.fib_answers` — the indications are the Fibonacci numbers that were asked for.
-/

namespace Xbsv

open Rules

/-! ## `Stack.bsv` -/

/-- The state of `mkStack`: the memory, `fp`, and the responses of the memory that were not taken. -/
structure Stack (stackSize frameSize : ℕ) (α : Type) where
  mem : BitVec (tlog stackSize + tlog frameSize) → α
  fp : BitVec (tlog stackSize)
  responses : Fifo 3 α

namespace Stack

variable {stackSize frameSize : ℕ} {α : Type}

def store (s : Stack stackSize frameSize α) (offset : BitVec (tlog frameSize)) (v : α) : Stack stackSize frameSize α :=
  { s with mem := Function.update s.mem (s.fp ++ offset) v }

def loadstart (s : Stack stackSize frameSize α) (offset : BitVec (tlog frameSize)) :
    Option (Stack stackSize frameSize α) :=
  (s.responses.enq (s.mem (s.fp ++ offset))).map fun responses => { s with responses }

def loadfinish (s : Stack stackSize frameSize α) : Option (α × Stack stackSize frameSize α) :=
  s.responses.deq.map fun r => (r.1, { s with responses := r.2 })

def push (s : Stack stackSize frameSize α) : Stack stackSize frameSize α :=
  { s with fp := StackReg.least (s.fp + 1) (BitVec.allOnes _) }

def pop (s : Stack stackSize frameSize α) : Stack stackSize frameSize α :=
  { s with fp := StackReg.greatest (s.fp - 1) 0 }

/-- A word of the frame `i`. -/
def word (mem : BitVec (tlog stackSize + tlog frameSize) → α) (i : ℕ) (offset : BitVec (tlog frameSize)) : α :=
  mem (BitVec.ofNat (tlog stackSize) i ++ offset)

variable {s s' : Stack stackSize frameSize α} {i j : ℕ} {offset o : BitVec (tlog frameSize)} {v : α}

lemma address_inj {n m : ℕ} {x y : BitVec n} {a b : BitVec m} : x ++ a = y ++ b ↔ x = y ∧ a = b := by
  refine ⟨fun h => ⟨?_, ?_⟩, fun h => by rw [h.1, h.2]⟩
  · have hx := congrArg (BitVec.extractLsb' m n) h
    rwa [BitVec.extractLsb'_append_eq_left, BitVec.extractLsb'_append_eq_left] at hx
  · have ha := congrArg (BitVec.extractLsb' 0 m) h
    rwa [BitVec.extractLsb'_append_eq_right, BitVec.extractLsb'_append_eq_right] at ha

/-- The word that was stored. -/
lemma word_store_self (hfp : s.fp = BitVec.ofNat _ i) : word (s.store offset v).mem i offset = v := by
  rw [word, store, hfp]
  exact Function.update_self _ _ _

/-- The other words of the frame. -/
lemma word_store_of_offset_ne (ho : o ≠ offset) : word (s.store offset v).mem i o = word s.mem i o := by
  refine Function.update_of_ne (fun h => ho ?_) _ _
  exact (address_inj.mp h).2

/-- The frames below. -/
lemma word_store_of_lt (hfp : s.fp = BitVec.ofNat _ i) (hj : j < i) (hi : i < 2 ^ tlog stackSize) :
    word (s.store offset v).mem j o = word s.mem j o := by
  refine Function.update_of_ne (fun h => ?_) _ _
  have hnum := (address_inj.mp h).1
  rw [hfp, ← BitVec.toNat_inj, BitVec.toNat_ofNat, BitVec.toNat_ofNat, Nat.mod_eq_of_lt hi,
    Nat.mod_eq_of_lt (by omega)] at hnum
  omega

lemma fp_push (hfp : s.fp = BitVec.ofNat _ i) : s.push.fp = BitVec.ofNat _ (i + 1) := by
  rw [push, hfp, BitVec.ofNat_add]
  exact StackReg.least_allOnes _

lemma fp_pop (hfp : s.fp = BitVec.ofNat _ (i + 1)) : s.pop.fp = BitVec.ofNat _ i := by
  rw [pop, hfp, BitVec.ofNat_add]
  exact (StackReg.greatest_zero _).trans (BitVec.add_sub_cancel _ _)

/-- A word is read when there is no response. -/
lemma exists_loadstart (hnil : s.responses.items = []) (offset : BitVec (tlog frameSize)) :
    ∃ q, s.loadstart offset = some { s with responses := q } ∧ q.items = [s.mem (s.fp ++ offset)] := by
  obtain ⟨q, hq, hitems⟩ := Fifo.exists_enq (n := 3) (q := s.responses) (by rw [hnil]; exact Nat.zero_lt_succ _)
    (s.mem (s.fp ++ offset))
  exact ⟨q, by rw [loadstart, hq, Option.map_some], by rw [hitems, hnil, List.nil_append]⟩

lemma exists_loadfinish (h : s.responses.items = [v]) :
    ∃ q, s.loadfinish = some (v, { s with responses := q }) ∧ q.items = [] := by
  obtain ⟨q, hq, hitems⟩ := Fifo.exists_deq h
  exact ⟨q, by rw [loadfinish, hq, Option.map_some], hitems⟩

end Stack

/-! ## The source -/

namespace Fib

/-- `FSState`. -/
inductive FSState
  | idle
  | state1
  | state2
  | state3
  | complete
  | calling
  | returning
  deriving DecidableEq

/-- The number of a state. -/
def FSState.pack : FSState → BitVec 3
  | .idle => 0
  | .state1 => 1
  | .state2 => 2
  | .state3 => 3
  | .complete => 4
  | .calling => 5
  | .returning => 6

/-- The state with a number; 7 is not used. -/
def FSState.unpack (x : BitVec 3) : FSState :=
  if x = 1 then .state1 else if x = 2 then .state2 else if x = 3 then .state3 else if x = 4 then .complete
  else if x = 5 then .calling else if x = 6 then .returning else .idle

/-- The offsets in a frame. -/
def fsoffsetn : BitVec (tlog 3) := 0

def fsoffsettmp1 : BitVec (tlog 3) := 1

def fsoffsetnext : BitVec (tlog 3) := 2

end Fib

instance neZeroSix : NeZero 6 := ⟨by decide⟩

/-- The state of `mkFibRequest`. The sequencers are at their next action, if they have been started. -/
structure Fib where
  fibn : BitVec 16
  fibtmp1 : BitVec 16
  fibstate : Fib.FSState
  fibretval : BitVec 16
  stack : Stack 128 3 (BitVec 16)
  fibcallarg : BitVec 16
  fibcallreturnto : Fib.FSState
  callFibFSM : Option (Fin 6)
  fibreturnFSM : Option (Fin 5)

namespace Fib

/-- After reset, with whatever the memory holds. -/
def reset (ram : BitVec (tlog 128 + tlog 3) → BitVec 16) : Fib where
  fibn := 0
  fibtmp1 := 0
  fibstate := .idle
  fibretval := 0
  stack := ⟨ram, 0, .empty⟩
  fibcallarg := 0
  fibcallreturnto := .idle
  callFibFSM := none
  fibreturnFSM := none

/-- The actions of `callfibstmt`. -/
def callfibstmt (s : Fib) : Fin 6 → Fib
  | 0 => { s with stack := s.stack.store fsoffsetn s.fibn, callFibFSM := some 1 }
  | 1 => { s with stack := s.stack.store fsoffsettmp1 s.fibtmp1, callFibFSM := some 2 }
  | 2 => { s with stack := s.stack.store fsoffsetnext (s.fibcallreturnto.pack.setWidth 16), callFibFSM := some 3 }
  | 3 => { s with stack := s.stack.push, callFibFSM := some 4 }
  | 4 => { s with fibn := s.fibcallarg, callFibFSM := some 5 }
  | 5 => { s with fibstate := .state1, callFibFSM := none }

/-- The actions of `fibreturnstmt`. -/
def fibreturnstmt (s : Fib) : Fin 5 → Option Fib
  | 0 => some { s with stack := s.stack.pop, fibreturnFSM := some 1 }
  | 1 => do
    let stack ← s.stack.loadstart fsoffsetn
    return { s with stack, fibreturnFSM := some 2 }
  | 2 => do
    let (t, stack) ← s.stack.loadfinish
    let stack ← stack.loadstart fsoffsettmp1
    return { s with stack, fibn := t, fibreturnFSM := some 3 }
  | 3 => do
    let (t, stack) ← s.stack.loadfinish
    let stack ← stack.loadstart fsoffsetnext
    return { s with stack, fibtmp1 := t, fibreturnFSM := some 4 }
  | 4 => do
    let (t, stack) ← s.stack.loadfinish
    return { s with stack, fibstate := .unpack (t.setWidth 3), fibreturnFSM := none }

/-- `callfib`, which needs its sequencer to be idle. -/
def callfib (s : Fib) (arg : BitVec 16) (returnto : FSState) : Option Fib :=
  if s.callFibFSM = none then
    some { s with fibstate := .calling, fibcallarg := arg, fibcallreturnto := returnto, callFibFSM := some 0 }
  else none

/-- `fibreturn`, likewise. -/
def fibreturn (s : Fib) (returnval : BitVec 16) : Option Fib :=
  if s.fibreturnFSM = none then some { s with fibstate := .returning, fibretval := returnval, fibreturnFSM := some 0 }
  else none

/-- A request, and the rules. -/
inductive Action
  | fib (v : BitVec 32)
  | fib1
  | fib2
  | fib3
  | fibcomplete
  | callFibFSM
  | fibreturnFSM
  deriving DecidableEq

inductive Event
  | requested (v : BitVec 32)
  | fibnote (v : BitVec 32)
  | fibresult (v : BitVec 32)

def step (s : Fib) : Action → Option (Fib × List Event)
  | .fib v =>
    (({ s with fibn := v.setWidth 16 } : Fib).callfib (v.setWidth 16) .complete).map fun s' =>
      (s', [.requested v, .fibnote 8])
  | .fib1 =>
    if s.fibstate = .state1 then
      (if s.fibn = 0 then s.fibreturn 0
        else if s.fibn = 1 then s.fibreturn 1
        else s.callfib (s.fibn - 1) .state2).map fun s' => (s', [])
    else none
  | .fib2 =>
    if s.fibstate = .state2 then
      (({ s with fibtmp1 := s.fibretval } : Fib).callfib (s.fibn - 2) .state3).map fun s' => (s', [])
    else none
  | .fib3 => if s.fibstate = .state3 then (s.fibreturn (s.fibtmp1 + s.fibretval)).map fun s' => (s', []) else none
  | .fibcomplete =>
    if s.fibstate = .complete then some ({ s with fibstate := .idle }, [.fibresult (s.fibretval.setWidth 32)]) else none
  | .callFibFSM => s.callFibFSM.map fun p => (s.callfibstmt p, [])
  | .fibreturnFSM => s.fibreturnFSM.bind fun p => (s.fibreturnstmt p).map fun s' => (s', [])

/-- The caller waits for the result of one request before the next, and asks for what fits. -/
def Waits (s : Fib) : Action → Prop
  | .fib v => s.fibstate = .idle ∧ (v.setWidth 16).toNat ≤ 127
  | _ => True

instance (s : Fib) (a : Action) : Decidable (s.Waits a) := by
  cases a <;> unfold Waits <;> infer_instance

/-- Nothing new is asked for. -/
def Action.quiet : Action → Bool
  | .fib _ => false
  | _ => true

end Fib

/-- `mkFibRequest`. -/
def fib : RuleSystem Fib Fib.Action Fib.Event where
  step s a := s.step a

namespace Fib

/-! ## The trace -/

/-- The arguments that were asked for. -/
def requests (tr : List Event) : List (BitVec 32) :=
  tr.filterMap fun
    | .requested v => some v
    | _ => none

def results (tr : List Event) : List (BitVec 32) :=
  tr.filterMap fun
    | .fibresult v => some v
    | _ => none

section Traces

variable (tr : List Event) (v w : BitVec 32)

lemma requests_requested : requests (tr ++ [Event.requested v, Event.fibnote w]) = requests tr ++ [v] :=
  List.filterMap_append

lemma requests_fibresult : requests (tr ++ [Event.fibresult v]) = requests tr := by
  rw [requests, List.filterMap_append]
  exact List.append_nil _

lemma results_requested : results (tr ++ [Event.requested v, Event.fibnote w]) = results tr := by
  rw [results, List.filterMap_append]
  exact List.append_nil _

lemma results_fibresult : results (tr ++ [Event.fibresult v]) = results tr ++ [v] := List.filterMap_append

end Traces

/-! ## The frames -/

/-- A state as a word of the memory. -/
def FSState.word (st : FSState) : BitVec 16 := st.pack.setWidth 16

lemma FSState.unpack_word (st : FSState) : FSState.unpack (st.word.setWidth 3) = st := by cases st <;> rfl

/-- What a frame stands for; the deepest one, which has nothing to do with a result, is that of the request. -/
def Keeps (n tmp1 : BitVec 16) (st : FSState) : Option FibCont → Prop
  | none => st = .complete
  | some (.first m) => st = .state2 ∧ n = BitVec.ofNat 16 m
  | some (.second x) => st = .state3 ∧ tmp1 = x

/-- The memory with the frames. -/
abbrev FrameMem : Type := BitVec (tlog 128 + tlog 3) → BitVec 16

/-- The frame number `i`. -/
def KeepsAt (mem : FrameMem) (i : ℕ) (c : Option FibCont) : Prop :=
  ∃ st : FSState, Stack.word mem i fsoffsetnext = st.word ∧
    Keeps (Stack.word mem i fsoffsetn) (Stack.word mem i fsoffsettmp1) st c

/-- The frames of what is to be done with the result, the deepest one at 0. -/
def Saved (mem : FrameMem) : List FibCont → Prop
  | [] => KeepsAt mem 0 none
  | c :: k => KeepsAt mem (k.length + 1) (some c) ∧ Saved mem k

/-- All of them but the first. -/
def Below (mem : FrameMem) : List FibCont → Prop
  | [] => True
  | _ :: k => Saved mem k

section Frames

variable {stack : Stack 128 3 (BitVec 16)} {k : List FibCont} {i : ℕ} {o : BitVec (tlog 3)} {v : BitVec 16}

lemma saved_iff {mem : FrameMem} : Saved mem k ↔ KeepsAt mem k.length k.head? ∧ Below mem k := by
  cases k with
  | nil => exact ⟨fun h => ⟨h, trivial⟩, fun h => h.1⟩
  | cons c k => exact Iff.rfl

/-- Words are stored above the frames. -/
lemma Saved.store (h : Saved stack.mem k) (hfp : stack.fp = BitVec.ofNat _ i) (hk : k.length < i) (hi : i < 128) :
    Saved (stack.store o v).mem k := by
  have hkeeps {j : ℕ} {c : Option FibCont} (hj : j < i) (hc : KeepsAt stack.mem j c) :
      KeepsAt (stack.store o v).mem j c := by
    rw [KeepsAt, Stack.word_store_of_lt hfp hj hi, Stack.word_store_of_lt hfp hj hi, Stack.word_store_of_lt hfp hj hi]
    exact hc
  induction k with
  | nil => exact hkeeps hk h
  | cons c k ih =>
    rw [List.length_cons] at hk
    exact ⟨hkeeps hk h.1, ih h.2 (by omega)⟩

lemma Below.store (h : Below stack.mem k) (hfp : stack.fp = BitVec.ofNat _ k.length) (hk : k.length < 128) :
    Below (stack.store o v).mem k := by
  cases k with
  | nil => trivial
  | cons c k => exact Saved.store h hfp (Nat.lt_succ_self _) hk

end Frames

/-! ## The machine that calls and returns -/

/-- While a frame is stored: the frame above those of `k` gets the words that belong to the first of `k`. -/
structure Storing (s : Fib) (k : List FibCont) (p : ℕ) : Prop where
  fp : s.stack.fp = BitVec.ofNat _ k.length
  below : Below s.stack.mem k
  keeps : Keeps s.fibn s.fibtmp1 s.fibcallreturnto k.head?
  word_n : 1 ≤ p → Stack.word s.stack.mem k.length fsoffsetn = s.fibn
  word_tmp1 : 2 ≤ p → Stack.word s.stack.mem k.length fsoffsettmp1 = s.fibtmp1
  word_next : 3 ≤ p → Stack.word s.stack.mem k.length fsoffsetnext = s.fibcallreturnto.word

/-- While a frame is loaded: the words that are there already, and the one that is being read. -/
structure Loading (s : Fib) (k : List FibCont) (p : ℕ) : Prop where
  fp : s.stack.fp = BitVec.ofNat _ (if p = 0 then k.length + 1 else k.length)
  saved : Saved s.stack.mem k
  responses : s.stack.responses.items =
    if p = 2 then [Stack.word s.stack.mem k.length fsoffsetn] else if p = 3 then [Stack.word s.stack.mem k.length fsoffsettmp1]
    else if p = 4 then [Stack.word s.stack.mem k.length fsoffsetnext] else []
  word_n : 3 ≤ p → s.fibn = Stack.word s.stack.mem k.length fsoffsetn
  word_tmp1 : 4 ≤ p → s.fibtmp1 = Stack.word s.stack.mem k.length fsoffsettmp1

/-- **The representation** of the machine that calls and returns, with the actions of the sequencers that are left. -/
inductive Matches (s : Fib) : FibConfig → ℕ → Prop
  | storing (n : ℕ) (k : List FibCont) (p : Fin 6) (hp : p.val ≤ 3) (hfsm : s.callFibFSM = some p)
    (hidle : s.fibreturnFSM = none) (hstate : s.fibstate = .calling) (harg : s.fibcallarg = BitVec.ofNat 16 n)
    (hresp : s.stack.responses.items = []) (h : Storing s k p) : Matches s (.call n k) (6 - p)
  | entering (n : ℕ) (k : List FibCont) (p : Fin 6) (hp : 4 ≤ p.val) (hfsm : s.callFibFSM = some p)
    (hidle : s.fibreturnFSM = none) (hstate : s.fibstate = .calling) (harg : s.fibcallarg = BitVec.ofNat 16 n)
    (hresp : s.stack.responses.items = []) (hfp : s.stack.fp = BitVec.ofNat _ (k.length + 1)) (hk : Saved s.stack.mem k)
    (hn : p.val = 5 → s.fibn = BitVec.ofNat 16 n) : Matches s (.call n k) (6 - p)
  | called (n : ℕ) (k : List FibCont) (hcall : s.callFibFSM = none) (hidle : s.fibreturnFSM = none)
    (hstate : s.fibstate = .state1) (hn : s.fibn = BitVec.ofNat 16 n) (hresp : s.stack.responses.items = [])
    (hfp : s.stack.fp = BitVec.ofNat _ (k.length + 1)) (hk : Saved s.stack.mem k) : Matches s (.call n k) 0
  | loading (k : List FibCont) (p : Fin 5) (hcall : s.callFibFSM = none) (hfsm : s.fibreturnFSM = some p)
    (hstate : s.fibstate = .returning) (h : Loading s k p) : Matches s (.ret s.fibretval k) (5 - p)
  | returned (k : List FibCont) (hcall : s.callFibFSM = none) (hidle : s.fibreturnFSM = none)
    (hkeeps : Keeps s.fibn s.fibtmp1 s.fibstate k.head?) (hresp : s.stack.responses.items = [])
    (hfp : s.stack.fp = BitVec.ofNat _ k.length) (hk : Below s.stack.mem k) : Matches s (.ret s.fibretval k) 0

variable {s s' : Fib} {f : FibConfig} {r : ℕ}

/-- A call starts to store the frame. -/
lemma exists_callfib (hcall : s.callFibFSM = none) (hidle : s.fibreturnFSM = none) (hresp : s.stack.responses.items = [])
    {k : List FibCont} (hfp : s.stack.fp = BitVec.ofNat _ k.length) (hk : Below s.stack.mem k) (st : FSState)
    (hkeeps : Keeps s.fibn s.fibtmp1 st k.head?) (n : ℕ) :
    ∃ s', s.callfib (BitVec.ofNat 16 n) st = some s' ∧ Matches s' (.call n k) 6 := by
  refine ⟨_, if_pos hcall, .storing n k 0 (Nat.zero_le _) rfl hidle rfl rfl hresp ⟨hfp, hk, hkeeps, ?_, ?_, ?_⟩⟩
  all_goals exact fun h => absurd h (by decide)

/-- A return starts to load the frame. -/
lemma exists_fibreturn (hcall : s.callFibFSM = none) (hidle : s.fibreturnFSM = none) (hresp : s.stack.responses.items = [])
    {k : List FibCont} (hfp : s.stack.fp = BitVec.ofNat _ (k.length + 1)) (hk : Saved s.stack.mem k) (x : BitVec 16) :
    ∃ s', s.fibreturn x = some s' ∧ Matches s' (.ret x k) 5 := by
  refine ⟨_, if_pos hidle, .loading k 0 hcall rfl rfl ⟨hfp, hk, hresp, ?_, ?_⟩⟩
  all_goals exact fun h => absurd h (by decide)

/-- A word of the frame is stored. -/
lemma Storing.callfibstmt {k : List FibCont} {p : Fin 6} (h : Storing s k p) (hp : p.val ≤ 3) (hk : k.length < 127)
    {n : ℕ} (hidle : s.fibreturnFSM = none) (hstate : s.fibstate = .calling) (harg : s.fibcallarg = BitVec.ofNat 16 n)
    (hresp : s.stack.responses.items = []) : Matches (s.callfibstmt p) (.call n k) (5 - p) := by
  have hne : fsoffsetn ≠ fsoffsettmp1 ∧ fsoffsetn ≠ fsoffsetnext ∧ fsoffsettmp1 ≠ fsoffsetnext := by decide
  match p with
  | 0 =>
    refine .storing n k 1 (by decide) rfl hidle hstate harg hresp ⟨h.fp, h.below.store h.fp (by omega), h.keeps, ?_, ?_, ?_⟩
    · exact fun _ => Stack.word_store_self h.fp
    · exact fun h => absurd h (by decide)
    · exact fun h => absurd h (by decide)
  | 1 =>
    refine .storing n k 2 (by decide) rfl hidle hstate harg hresp ⟨h.fp, h.below.store h.fp (by omega), h.keeps, ?_, ?_, ?_⟩
    · exact fun _ => (Stack.word_store_of_offset_ne hne.1).trans (h.word_n (by decide))
    · exact fun _ => Stack.word_store_self h.fp
    · exact fun h => absurd h (by decide)
  | 2 =>
    refine .storing n k 3 (by decide) rfl hidle hstate harg hresp ⟨h.fp, h.below.store h.fp (by omega), h.keeps, ?_, ?_, ?_⟩
    · exact fun _ => (Stack.word_store_of_offset_ne hne.2.1).trans (h.word_n (by decide))
    · exact fun _ => (Stack.word_store_of_offset_ne hne.2.2).trans (h.word_tmp1 (by decide))
    · exact fun _ => Stack.word_store_self h.fp
  | 3 =>
    refine .entering n k 4 (by decide) rfl hidle hstate harg hresp (Stack.fp_push h.fp) (saved_iff.mpr ⟨?_, h.below⟩)
      fun h => absurd h (by decide)
    refine ⟨s.fibcallreturnto, h.word_next (by decide), ?_⟩
    have hkeeps := h.keeps
    rw [← h.word_n (by decide), ← h.word_tmp1 (by decide)] at hkeeps
    exact hkeeps
  | 4 | 5 => exact absurd hp (by decide)

/-- A word of the frame is loaded. -/
lemma Loading.fibreturnstmt {k : List FibCont} {p : Fin 5} (h : Loading s k p) (hcall : s.callFibFSM = none)
    (hstate : s.fibstate = .returning) :
    ∃ s', s.fibreturnstmt p = some s' ∧ Matches s' (.ret s.fibretval k) (4 - p) := by
  match p with
  | 0 =>
    exact ⟨_, rfl, .loading k 1 hcall rfl hstate ⟨Stack.fp_pop h.fp, h.saved, h.responses, fun h => absurd h (by decide),
      fun h => absurd h (by decide)⟩⟩
  | 1 =>
    obtain ⟨q, hq, hitems⟩ := Stack.exists_loadstart h.responses fsoffsetn
    refine ⟨{ s with stack := { s.stack with responses := q }, fibreturnFSM := some 2 }, by simp [Fib.fibreturnstmt, hq],
      .loading k 2 hcall rfl hstate ⟨h.fp, h.saved, ?_, fun h => absurd h (by decide), fun h => absurd h (by decide)⟩⟩
    rw [h.fp] at hitems
    exact hitems
  | 2 =>
    obtain ⟨q, hq, hnil⟩ := Stack.exists_loadfinish h.responses
    obtain ⟨q', hq', hitems⟩ := Stack.exists_loadstart (s := { s.stack with responses := q }) hnil fsoffsettmp1
    refine ⟨{ s with stack := { s.stack with responses := q' }, fibn := Stack.word s.stack.mem k.length fsoffsetn, fibreturnFSM := some 3 },
      by simp [Fib.fibreturnstmt, hq, hq'],
      .loading k 3 hcall rfl hstate ⟨h.fp, h.saved, ?_, fun _ => rfl, fun h => absurd h (by decide)⟩⟩
    rw [h.fp] at hitems
    exact hitems
  | 3 =>
    obtain ⟨q, hq, hnil⟩ := Stack.exists_loadfinish h.responses
    obtain ⟨q', hq', hitems⟩ := Stack.exists_loadstart (s := { s.stack with responses := q }) hnil fsoffsetnext
    refine ⟨{ s with stack := { s.stack with responses := q' }, fibtmp1 := Stack.word s.stack.mem k.length fsoffsettmp1, fibreturnFSM := some 4 },
      by simp [Fib.fibreturnstmt, hq, hq'],
      .loading k 4 hcall rfl hstate ⟨h.fp, h.saved, ?_, fun _ => h.word_n (by decide), fun _ => rfl⟩⟩
    rw [h.fp] at hitems
    exact hitems
  | 4 =>
    obtain ⟨q, hq, hnil⟩ := Stack.exists_loadfinish h.responses
    obtain ⟨⟨st, hword, hkeeps⟩, hbelow⟩ := saved_iff.mp h.saved
    refine ⟨{ s with stack := { s.stack with responses := q }, fibstate := st, fibreturnFSM := none }, ?_,
      .returned k hcall rfl ?_ hnil h.fp hbelow⟩
    · have hunpack : FSState.unpack ((Stack.word s.stack.mem k.length fsoffsetnext).setWidth 3) = st := by
        rw [hword, FSState.unpack_word]
      simp [Fib.fibreturnstmt, hq, hunpack]
    · rw [← h.word_n (by decide), ← h.word_tmp1 (by decide)] at hkeeps
      exact hkeeps

/-! ## Whose turn it is -/

/-- The action that can be next. -/
def turn (s : Fib) : Option Action :=
  match s.fibstate with
  | .idle => none
  | .state1 => some .fib1
  | .state2 => some .fib2
  | .state3 => some .fib3
  | .complete => some .fibcomplete
  | .calling => some .callFibFSM
  | .returning => some .fibreturnFSM

/-- The sequencers are idle unless the state says that they are not. -/
def Tidy (s : Fib) : Prop :=
  (s.callFibFSM = none ∨ s.fibstate = .calling) ∧ (s.fibreturnFSM = none ∨ s.fibstate = .returning)

/-- Nothing else can be done. -/
lemma Tidy.turn_eq (h : s.Tidy) {a : Action} {es : List Event} (ha : a.quiet = true) (hs : s.step a = some (s', es)) :
    s.turn = some a := by
  cases a with
  | fib v => cases ha
  | fib1 =>
    rw [Fib.step, Option.ite_none_right_eq_some] at hs
    rw [turn, hs.1]
  | fib2 =>
    rw [Fib.step, Option.ite_none_right_eq_some] at hs
    rw [turn, hs.1]
  | fib3 =>
    rw [Fib.step, Option.ite_none_right_eq_some] at hs
    rw [turn, hs.1]
  | fibcomplete =>
    rw [Fib.step, Option.ite_none_right_eq_some] at hs
    rw [turn, hs.1]
  | callFibFSM =>
    obtain ⟨p, hp, -⟩ := Option.map_eq_some_iff.mp hs
    rcases h.1 with hnone | hstate
    · cases hp.symm.trans hnone
    · rw [turn, hstate]
  | fibreturnFSM =>
    obtain ⟨p, hp, -⟩ := Option.bind_eq_some_iff.mp hs
    rcases h.2 with hnone | hstate
    · cases hp.symm.trans hnone
    · rw [turn, hstate]

lemma Matches.tidy (h : Matches s f r) : s.Tidy := by
  cases h with
  | storing n k p hp hfsm hidle hstate harg hresp h => exact ⟨.inr hstate, .inl hidle⟩
  | entering n k p hp hfsm hidle hstate harg hresp hfp hk hn => exact ⟨.inr hstate, .inl hidle⟩
  | called n k hcall hidle hstate hn hresp hfp hk => exact ⟨.inl hcall, .inl hidle⟩
  | loading k p hcall hfsm hstate h => exact ⟨.inl hcall, .inr hstate⟩
  | returned k hcall hidle hkeeps hresp hfp hk => exact ⟨.inl hcall, .inl hidle⟩

/-- **A rule fires**: the machine that calls and returns makes a step, or an action of a sequencer is done, until it has
returned to the request. -/
lemma Matches.exists_step (h : Matches s f r) (hfits : f.Fits 127) :
    (∃ x, f = .ret x [] ∧ r = 0) ∨ ∃ a s', s.turn = some a ∧ s.step a = some (s', []) ∧
      ∃ f' r', Matches s' f' r' ∧ f'.Fits 127 ∧ f'.value = f.value ∧ 7 * f'.left + r' < 7 * f.left + r := by
  cases h with
  | storing n k p hp hfsm hidle hstate harg hresp h =>
    refine .inr ⟨.callFibFSM, _, by rw [turn, hstate], by rw [Fib.step, hfsm]; rfl, .call n k, 5 - p, ?_, hfits, rfl, by omega⟩
    exact h.callfibstmt hp hfits.2.1 hidle hstate harg hresp
  | entering n k p hp hfsm hidle hstate harg hresp hfp hk hn =>
    refine .inr ⟨.callFibFSM, _, by rw [turn, hstate], by rw [Fib.step, hfsm]; rfl, .call n k, 5 - p, ?_, hfits, rfl, by omega⟩
    match p with
    | 4 => exact .entering n k 5 (by decide) rfl hidle hstate harg hresp hfp hk fun _ => harg
    | 5 => exact .called n k rfl hidle rfl (hn rfl) hresp hfp hk
    | 0 | 1 | 2 | 3 => exact absurd hp (by decide)
  | called n k hcall hidle hstate hn hresp hfp hk =>
    have hpos := FibConfig.left_call_pos n k
    match n with
    | 0 =>
      obtain ⟨s', hs', hm⟩ := exists_fibreturn hcall hidle hresp hfp hk 0
      have hstep : s.step .fib1 = (s.fibreturn 0).map fun s' => (s', []) := by
        rw [Fib.step, if_pos hstate, hn]
        rfl
      have hleft : FibConfig.left (.ret 0 k) = FibConfig.left (.call 0 k) - 1 := FibConfig.left_step (.call 0 k)
      exact .inr ⟨.fib1, s', by rw [turn, hstate], by rw [hstep, hs', Option.map_some], .ret 0 k, 5, hm, hfits.step,
        FibConfig.value_step (.call 0 k), by omega⟩
    | 1 =>
      obtain ⟨s', hs', hm⟩ := exists_fibreturn hcall hidle hresp hfp hk 1
      have hstep : s.step .fib1 = (s.fibreturn 1).map fun s' => (s', []) := by
        rw [Fib.step, if_pos hstate, hn]
        rfl
      have hleft : FibConfig.left (.ret 1 k) = FibConfig.left (.call 1 k) - 1 := FibConfig.left_step (.call 1 k)
      exact .inr ⟨.fib1, s', by rw [turn, hstate], by rw [hstep, hs', Option.map_some], .ret 1 k, 5, hm, hfits.step,
        FibConfig.value_step (.call 1 k), by omega⟩
    | n + 2 =>
      have hle : n + 2 + k.length ≤ 127 := hfits.1
      obtain ⟨hzero, hone⟩ := ofNat_add_two_ne (n := n) (by omega)
      obtain ⟨s', hs', hm⟩ := exists_callfib (k := .first (n + 2) :: k) hcall hidle hresp hfp hk .state2
        ⟨rfl, hn⟩ (n + 1)
      have hstep : s.step .fib1 = (s.callfib (BitVec.ofNat 16 (n + 1)) .state2).map fun s' => (s', []) := by
        rw [Fib.step, if_pos hstate, hn, if_neg hzero, if_neg hone, ofNat_add_two_sub_one]
      have hleft : FibConfig.left (.call (n + 1) (.first (n + 2) :: k)) = FibConfig.left (.call (n + 2) k) - 1 :=
        FibConfig.left_step (.call (n + 2) k)
      exact .inr ⟨.fib1, s', by rw [turn, hstate], by rw [hstep, hs', Option.map_some], _, 6, hm, hfits.step,
        FibConfig.value_step (.call (n + 2) k), by omega⟩
  | loading k p hcall hfsm hstate h =>
    obtain ⟨s', hs', hm⟩ := h.fibreturnstmt hcall hstate
    exact .inr ⟨.fibreturnFSM, s', by rw [turn, hstate], by simp [Fib.step, hfsm, hs'], _, _, hm, hfits, rfl, by omega⟩
  | returned k hcall hidle hkeeps hresp hfp hk =>
    match k with
    | [] => exact .inl ⟨_, rfl, rfl⟩
    | .first n :: k =>
      obtain ⟨hstate, hn⟩ := hkeeps
      obtain ⟨htwo, hle, hconts⟩ := hfits
      obtain ⟨s', hs', hm⟩ := exists_callfib (s := { s with fibtmp1 := s.fibretval }) (k := .second s.fibretval :: k)
        hcall hidle hresp hfp hk .state3 ⟨rfl, rfl⟩ (n - 2)
      have hleft : FibConfig.left (.call (n - 2) (.second s.fibretval :: k)) =
          FibConfig.left (.ret s.fibretval (.first n :: k)) - 1 := FibConfig.left_step (.ret s.fibretval (.first n :: k))
      have hpos : 0 < FibConfig.left (.ret s.fibretval (.first n :: k)) := by
        simp only [FibConfig.left, FibConfig.pending]
        omega
      refine .inr ⟨.fib2, s', by rw [turn, hstate], ?_, _, 6, hm, ?_, FibConfig.value_step (.ret _ (.first n :: k)), by omega⟩
      · have hsub' : s.fibn - 2 = BitVec.ofNat 16 (n - 2) := by rw [hn, ofNat_sub_two htwo]
        rw [Fib.step, if_pos hstate, hsub', hs', Option.map_some]
      · exact FibConfig.Fits.step (c := .ret s.fibretval (.first n :: k)) ⟨htwo, hle, hconts⟩
    | .second tmp1 :: k =>
      obtain ⟨hstate, htmp1⟩ := hkeeps
      obtain ⟨s', hs', hm⟩ := exists_fibreturn hcall hidle hresp hfp hk (tmp1 + s.fibretval)
      have hleft : FibConfig.left (.ret (tmp1 + s.fibretval) k) =
          FibConfig.left (.ret s.fibretval (.second tmp1 :: k)) - 1 := FibConfig.left_step (.ret s.fibretval (.second tmp1 :: k))
      have hpos : 0 < FibConfig.left (.ret s.fibretval (.second tmp1 :: k)) := by
        simp only [FibConfig.left, FibConfig.pending]
        omega
      refine .inr ⟨.fib3, s', by rw [turn, hstate], ?_, _, 5, hm, hfits,
        FibConfig.value_step (.ret s.fibretval (.second tmp1 :: k)), by omega⟩
      rw [Fib.step, if_pos hstate, htmp1, hs', Option.map_some]

/-! ## Runs -/

/-- Between two requests, or with one of them under way. The number bounds the actions that are left. -/
inductive Serves (tr : List Event) (s : Fib) : ℕ → Prop
  | idle (hstate : s.fibstate = .idle) (hcall : s.callFibFSM = none) (hidle : s.fibreturnFSM = none)
    (hresp : s.stack.responses.items = []) (hfp : s.stack.fp = BitVec.ofNat _ 0)
    (htr : results tr = (requests tr).map fibAnswer) : Serves tr s 0
  | busy (f : FibConfig) (r : ℕ) (hf : Matches s f r) (hfits : f.Fits 127)
    (htr : results tr ++ [f.value.setWidth 32] = (requests tr).map fibAnswer) : Serves tr s (7 * f.left + r + 1)

variable {tr es : List Event} {m : ℕ}

lemma serves_reset (ram : FrameMem) : Serves [] (reset ram) 0 := .idle rfl rfl rfl rfl rfl rfl

lemma Matches.state_ne (h : Matches s f r) : s.fibstate ≠ .idle := by
  intro hidle
  cases h with
  | storing n k p hp hfsm hidle' hstate harg hresp h => cases hstate.symm.trans hidle
  | entering n k p hp hfsm hidle' hstate harg hresp hfp hk hn => cases hstate.symm.trans hidle
  | called n k hcall hidle' hstate hn hresp hfp hk => cases hstate.symm.trans hidle
  | loading k p hcall hfsm hstate h => cases hstate.symm.trans hidle
  | returned k hcall hidle' hkeeps hresp hfp hk =>
    match k with
    | [] => cases Eq.trans (Eq.symm hkeeps) hidle
    | .first n :: k => cases hkeeps.1.symm.trans hidle
    | .second tmp1 :: k => cases hkeeps.1.symm.trans hidle

/-- The result has come back to the request. -/
lemma Matches.complete {x : BitVec 16} (h : Matches s (.ret x []) 0) :
    s.fibretval = x ∧ s.fibstate = .complete ∧ s.callFibFSM = none ∧ s.fibreturnFSM = none ∧
      s.stack.responses.items = [] ∧ s.stack.fp = BitVec.ofNat _ 0 := by
  generalize hr : 0 = r at h
  cases h with
  | loading k p hcall hfsm hstate h => exact absurd hr (by omega)
  | returned k hcall hidle hkeeps hresp hfp hk => exact ⟨rfl, hkeeps, hcall, hidle, hresp, hfp⟩

lemma Serves.idle_iff (h : Serves tr s m) : s.fibstate = .idle ↔ m = 0 := by
  cases h with
  | idle hstate hcall hidle hresp hfp htr => exact ⟨fun _ => rfl, fun _ => hstate⟩
  | busy f r hf hfits htr => exact ⟨fun h => absurd h hf.state_ne, fun h => absurd h (Nat.succ_ne_zero _)⟩

/-- A request is taken. -/
lemma Serves.request (h : Serves tr s 0) {v : BitVec 32} (hv : (v.setWidth 16).toNat ≤ 127)
    (hs : s.step (.fib v) = some (s', es)) : ∃ m, Serves (tr ++ es) s' m := by
  cases h with
  | idle hstate hcall hidle hresp hfp htr =>
    have harg : BitVec.ofNat 16 (v.setWidth 16).toNat = v.setWidth 16 := by rw [BitVec.ofNat_toNat, BitVec.setWidth_eq]
    obtain ⟨s₁, hs₁, hm⟩ := exists_callfib (s := { s with fibn := v.setWidth 16 }) (k := []) hcall hidle hresp
      hfp trivial .complete rfl (v.setWidth 16).toNat
    rw [harg] at hs₁
    rw [Fib.step, hs₁, Option.map_some] at hs
    cases hs
    refine ⟨_, .busy _ _ hm ⟨hv, by decide, trivial⟩ ?_⟩
    rw [results_requested, requests_requested, List.map_append, htr]
    rfl

/-- **What a rule does**: it brings the result nearer. -/
lemma Serves.step (h : Serves tr s m) {a : Action} (ha : a.quiet = true) (hs : s.step a = some (s', es)) :
    (∃ m' < m, Serves (tr ++ es) s' m') ∧ requests (tr ++ es) = requests tr := by
  cases h with
  | idle hstate hcall hidle hresp hfp htr =>
    have hturn := Tidy.turn_eq ⟨.inl hcall, .inl hidle⟩ ha hs
    rw [turn, hstate] at hturn
    cases hturn
  | busy f r hf hfits htr =>
    have hturn := hf.tidy.turn_eq ha hs
    rcases hf.exists_step hfits with ⟨x, rfl, rfl⟩ | ⟨b, s₁, hb, hs₁, f', r', hm, hfits', hval, hlt⟩
    · -- the request gets its result
      obtain ⟨rfl, hstate, hcall, hidle, hresp, hfp⟩ := hf.complete
      rw [turn, hstate] at hturn
      cases hturn
      rw [Fib.step, if_pos hstate] at hs
      cases hs
      refine ⟨⟨0, Nat.succ_pos _, .idle rfl hcall hidle hresp hfp ?_⟩, requests_fibresult _ _⟩
      rw [results_fibresult, requests_fibresult]
      exact htr
    · cases hb.symm.trans hturn
      cases hs₁.symm.trans hs
      rw [List.append_nil]
      exact ⟨⟨_, Nat.succ_lt_succ hlt, .busy f' r' hm hfits' (hval ▸ htr)⟩, rfl⟩

/-- As long as a request is under way some rule can fire. -/
lemma Serves.exists_step (h : Serves tr s m) (hm : m ≠ 0) : ∃ a s' es, a.quiet = true ∧ s.step a = some (s', es) := by
  cases h with
  | idle hstate hcall hidle hresp hfp htr => exact absurd rfl hm
  | busy f r hf hfits htr =>
    rcases hf.exists_step hfits with ⟨x, rfl, rfl⟩ | ⟨b, s₁, hb, hs₁, -⟩
    · exact ⟨.fibcomplete, _, _, rfl, if_pos hf.complete.2.1⟩
    · refine ⟨b, s₁, [], ?_, hs₁⟩
      cases b with
      | fib v =>
        rw [turn] at hb
        split at hb <;> cases hb
      | fib1 | fib2 | fib3 | fibcomplete | callFibFSM | fibreturnFSM => rfl

/-- What holds in every run in which the caller waits. -/
lemma exists_serves {ram : FrameMem} (h : (fib.guard Waits).Reaches (reset ram) tr s) : ∃ m, Serves tr s m := by
  refine h.invariant (I := fun tr s => ∃ m, Serves tr s m) ⟨0, serves_reset ram⟩ fun {tr s a s' es} hI hs => ?_
  obtain ⟨m, hm⟩ := hI
  obtain ⟨hw, hs⟩ := RuleSystem.guard_step.mp hs
  cases hq : a.quiet with
  | true =>
    obtain ⟨⟨m', -, hm'⟩, -⟩ := hm.step hq hs
    exact ⟨m', hm'⟩
  | false =>
    cases a with
    | fib v =>
      obtain rfl := hm.idle_iff.mp hw.1
      exact hm.request hw.2 hs
    | fib1 | fib2 | fib3 | fibcomplete | callFibFSM | fibreturnFSM => cases hq

/-- **The indications are the Fibonacci numbers that were asked for**, in order, when the caller waits for each of them and
asks for no argument above 127. From every state each run of the rules ends, with the last of them. -/
theorem fib_answers (ram : BitVec (tlog 128 + tlog 3) → BitVec 16) {tr : List Event} {s : Fib}
    (h : (fib.guard Waits).Reaches (reset ram) tr s) :
    results tr <+: (requests tr).map fibAnswer ∧ (s.fibstate = .idle → results tr = (requests tr).map fibAnswer) ∧
      (fib.guard fun _ a => a.quiet = true).Ends
        (fun tr' s' => s'.fibstate = .idle ∧ results tr' = (requests tr).map fibAnswer) tr s := by
  obtain ⟨m, hm⟩ := exists_serves h
  have hidle {us : List Event} {t : Fib} {n : ℕ} (hn : Serves us t n) (ht : t.fibstate = .idle) :
      results us = (requests us).map fibAnswer := by
    obtain rfl := hn.idle_iff.mp ht
    cases hn with
    | idle hstate hcall hidle hresp hfp htr => exact htr
  refine ⟨?_, hidle hm, RuleSystem.Ends.of_bound (I := fun n us t => Serves us t n ∧ requests us = requests tr) ?_ ?_
    ⟨hm, rfl⟩⟩
  · cases hm with
    | idle hstate hcall hidle hresp hfp htr => exact htr ▸ List.prefix_refl _
    | busy f r hf hfits htr => exact ⟨_, htr⟩
  · rintro n us t a t' es ⟨hn, hus⟩ hs
    obtain ⟨ha, hs⟩ := RuleSystem.guard_step.mp hs
    obtain ⟨⟨n', hlt, hn'⟩, hreq⟩ := hn.step ha hs
    exact ⟨n', hlt, hn', hreq.trans hus⟩
  · rintro n us t ⟨hn, hus⟩ hstuck
    have hzero : n = 0 := by
      by_contra hne
      obtain ⟨a, t', es, ha, hs⟩ := hn.exists_step hne
      have hguard := RuleSystem.guard_step (M := fib) (C := fun _ a => a.quiet = true).mpr ⟨ha, hs⟩
      rw [hstuck] at hguard
      cases hguard
    have ht := hn.idle_iff.mpr hzero
    rw [← hus]
    exact ⟨ht, hidle hn ht⟩

/-- A request for the second Fibonacci number: the calls for 2, 1 and 0. -/
def second :=
  (fib.guard Waits).run (reset fun _ => 0)
    (Action.fib 2 :: (List.replicate 6 .callFibFSM ++ .fib1 :: (List.replicate 6 .callFibFSM ++
      .fib1 :: (List.replicate 5 .fibreturnFSM ++ .fib2 :: (List.replicate 6 .callFibFSM ++
      .fib1 :: (List.replicate 5 .fibreturnFSM ++ .fib3 :: (List.replicate 5 .fibreturnFSM ++ [.fibcomplete])))))))

theorem fib_answers_second : results second.2 = [1] ∧ results second.2 <+: (requests second.2).map fibAnswer :=
  ⟨by decide +kernel, (fib_answers (fun _ => 0) (RuleSystem.reaches_run _ _)).1⟩

end Fib

end Xbsv
