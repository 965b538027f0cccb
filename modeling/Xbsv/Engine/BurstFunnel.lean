import Xbsv.Engine.BramFifos
import Xbsv.Engine.Pipe
import Xbsv.Rules.System

set_option relaxedAutoImplicit false
set_option autoImplicit false

/-!
# The burst funnel

`mkBurstFunnel`: data from `k` inputs comes out of one output in bursts that are not mixed. `loadIdx`
says which input the next burst is from, and gives the burst one of four names. The data of a burst enters
a funnel with its name, so that bursts from different inputs, which the funnel may mix, can be told apart
at its end; there a queue for each name holds them. Bursts leave in the order in which they began to
enter (`inFlight`), and get the number of their input back (`drainRename`).

The length of a burst is read from the register of its input twice: when its first element enters, and
when its first element is drained. A count of 0 stands for the beginning of a burst as well as for its
end. The registers that only serve measurements (`cycle`, `last_entry`, `drain_cnt`) are left out.

## Main definitions

* `Xbsv.BurstFunnel` — the state.
* `Xbsv.burstFunnel` — the rules and methods, as a system.
* `Xbsv.deal` — what comes out: for each call of `loadIdx` in turn, the next elements of its input.
-/

namespace Xbsv

open Rules

/-- The state of `mkBurstFunnel`. The indices in `loadIdxs`, `inFlight` and `drainRename` are those given
to `loadIdx`, which are numbers of inputs; a name has two bits. -/
structure BurstFunnel (k w : ℕ) where
  nameGen : Fin 4
  complBuff : UGBramFifos 4 16 (BitVec w × Bool)
  compCnts : Fin 4 → BitVec 16
  dataIn : Net (funnelCap k (bitsPerCycle k) 2) (Fin 4 × (BitVec w × Bool))
  burstLen : Fin k → BitVec 8
  injCtrl : BitVec 8
  loadIdxs : Fifo 32 (Fin k × Fin 4)
  inFlight : Fifo 4 (Fin k × Fin 4)
  drainCnt : BitVec 8
  exitData : Fifo 2 (Fin k × BitVec w)
  drainRename : Fifo 2 (Fin k)

namespace BurstFunnel

variable {k w : ℕ}

/-- The state after reset, with the given contents of the block RAM. -/
def reset (k w : ℕ) (buff : BitVec (buffAddrSz 4 16) → BitVec w × Bool) : BurstFunnel k w where
  nameGen := 0
  complBuff := .reset 4 16 buff
  compCnts _ := 0
  dataIn := .empty
  burstLen _ := 0
  injCtrl := 0
  loadIdxs := .empty
  inFlight := .empty
  drainCnt := 0
  exitData := .empty
  drainRename := .empty

/-- Method `loadIdx`. -/
def loadIdx (s : BurstFunnel k w) (i : Fin k) : Option (BurstFunnel k w) := do
  let loadIdxs ← s.loadIdxs.enq (i, s.nameGen)
  return { s with
    loadIdxs
    nameGen := s.nameGen + 1 }

/-- `burstLen[i] <= v`. A length of more than 16 ends a simulation. -/
def setBurstLen (s : BurstFunnel k w) (i : Fin k) (v : BitVec 8) : BurstFunnel k w :=
  { s with burstLen := Function.update s.burstLen i v }

/-- `dataIn[i].enq` (`enter_data`). -/
def enq (s : BurstFunnel k w) (i : Fin k) (v : BitVec w) : Option (BurstFunnel k w) := do
  let (old_name, new_name) ← s.loadIdxs.first
  if old_name = i then
    let first := decide (s.injCtrl = 0)
    let cnt := if first then s.burstLen i else s.injCtrl
    let new_cnt := cnt - 1
    let last := decide (new_cnt = 0)
    let inFlight ← s.inFlight.enqIf first (old_name, new_name)
    let loadIdxs ← s.loadIdxs.dropIf last
    let dataIn ← s.dataIn.enq (stages k (bitsPerCycle k), i) (new_name, (v, last))
    return { s with
      injCtrl := new_cnt
      inFlight
      loadIdxs
      dataIn }
  else none

/-- An element moves on in the funnel. -/
def moveData (s : BurstFunnel k w) (n : Node) : Option (BurstFunnel k w) := do
  let dataIn ← s.dataIn.move (funnelRoute k (bitsPerCycle k)) n
  return { s with dataIn }

/-- Rule `drain_funnel`. -/
def drainFunnel (s : BurstFunnel k w) : Option (BurstFunnel k w) := do
  let ((new_name, x), dataIn) ← s.dataIn.deq (0, 0)
  return { s with
    dataIn
    complBuff := s.complBuff.enq new_name x
    compCnts := Function.update s.compCnts new_name (s.compCnts new_name + 1) }

/-- Rule `drain_req`. -/
def drainReq (s : BurstFunnel k w) : Option (BurstFunnel k w) := do
  let (old_name, new_name) ← s.inFlight.first
  if s.compCnts new_name > 0 then
    let new_drainCnt := if s.drainCnt = 0 then s.burstLen old_name - 1 else s.drainCnt - 1
    let drainRename ← s.drainRename.enqIf (decide (s.drainCnt = 0)) old_name
    let inFlight ← s.inFlight.dropIf (decide (new_drainCnt = 0))
    let complBuff ← s.complBuff.firstReq new_name
    return { s with
      drainRename
      inFlight
      complBuff := complBuff.deq new_name
      drainCnt := new_drainCnt
      compCnts := Function.update s.compCnts new_name (s.compCnts new_name - 1) }
  else none

/-- Rule `drain_resp`. -/
def drainResp (s : BurstFunnel k w) : Option (BurstFunnel k w) := do
  let ((data, last), complBuff) ← s.complBuff.firstResp
  let i ← s.drainRename.first
  let drainRename ← s.drainRename.dropIf last
  let exitData ← s.exitData.enq (i, data)
  return { s with
    complBuff
    drainRename
    exitData }

/-- `dataOut.first` and `dataOut.deq`. -/
def deq (s : BurstFunnel k w) : Option ((Fin k × BitVec w) × BurstFunnel k w) := do
  let (x, exitData) ← s.exitData.deq
  return (x, { s with exitData })

/-! Only `setBurstLen` writes the registers. -/

section Registers

variable {s s' : BurstFunnel k w}

lemma burstLen_loadIdx {i : Fin k} (h : s.loadIdx i = some s') : s'.burstLen = s.burstLen := by
  simp only [loadIdx, bind, pure, Option.bind_eq_some_iff, Option.some.injEq] at h
  obtain ⟨_, -, rfl⟩ := h
  rfl

lemma burstLen_enq {i : Fin k} {v : BitVec w} (h : s.enq i v = some s') : s'.burstLen = s.burstLen := by
  simp only [enq, bind, pure, Option.bind_eq_some_iff, Prod.exists, Option.ite_none_right_eq_some,
    Option.some.injEq] at h
  obtain ⟨_, _, -, -, _, -, _, -, _, -, rfl⟩ := h
  rfl

lemma burstLen_moveData {n : Node} (h : s.moveData n = some s') : s'.burstLen = s.burstLen := by
  simp only [moveData, bind, pure, Option.bind_eq_some_iff, Option.some.injEq] at h
  obtain ⟨_, -, rfl⟩ := h
  rfl

lemma burstLen_drainFunnel (h : s.drainFunnel = some s') : s'.burstLen = s.burstLen := by
  simp only [drainFunnel, bind, pure, Option.bind_eq_some_iff, Prod.exists, Option.some.injEq] at h
  obtain ⟨_, _, _, _, -, rfl⟩ := h
  rfl

lemma burstLen_drainReq (h : s.drainReq = some s') : s'.burstLen = s.burstLen := by
  simp only [drainReq, bind, pure, Option.bind_eq_some_iff, Prod.exists,
    Option.ite_none_right_eq_some, Option.some.injEq] at h
  obtain ⟨_, _, -, -, _, -, _, -, _, -, rfl⟩ := h
  rfl

lemma burstLen_drainResp (h : s.drainResp = some s') : s'.burstLen = s.burstLen := by
  simp only [drainResp, bind, pure, Option.bind_eq_some_iff, Prod.exists, Option.some.injEq] at h
  obtain ⟨_, _, _, -, _, -, _, -, _, -, rfl⟩ := h
  rfl

lemma burstLen_deq {x : Fin k × BitVec w} (h : s.deq = some (x, s')) : s'.burstLen = s.burstLen := by
  simp only [deq, bind, pure, Option.bind_eq_some_iff, Prod.exists, Option.some.injEq,
    Prod.mk.injEq] at h
  obtain ⟨_, _, _, -, -, rfl⟩ := h
  rfl

end Registers

/-- The methods and rules. -/
inductive Action (k w : ℕ) where
  /-- `loadIdx` -/
  | loadIdx (i : Fin k)
  /-- `burstLen[i] <= v` -/
  | setBurstLen (i : Fin k) (v : BitVec 8)
  /-- `dataIn[i].enq` -/
  | enq (i : Fin k) (v : BitVec w)
  /-- A connection in the funnel. -/
  | moveData (n : Node)
  /-- Rule `drain_funnel`. -/
  | drainFunnel
  /-- Rule `drain_req`. -/
  | drainReq
  /-- Rule `drain_resp`. -/
  | drainResp
  /-- `dataOut.deq` -/
  | deq

/-- What can be seen of a run. -/
inductive Event (k w : ℕ) where
  /-- A burst from input `i` was asked for. -/
  | called (i : Fin k)
  /-- An element entered at input `i`. -/
  | entered (i : Fin k) (v : BitVec w)
  /-- An element left, as one from input `i`. -/
  | left (i : Fin k) (v : BitVec w)
  deriving DecidableEq

end BurstFunnel

open BurstFunnel

/-- `mkBurstFunnel` as a system of rules. -/
def burstFunnel (k w : ℕ) : RuleSystem (BurstFunnel k w) (Action k w) (BurstFunnel.Event k w) where
  step s
    | .loadIdx i => do
      let s ← s.loadIdx i
      return (s, [.called i])
    | .setBurstLen i v => some (s.setBurstLen i v, [])
    | .enq i v => do
      let s ← s.enq i v
      return (s, [.entered i v])
    | .moveData n => do
      let s ← s.moveData n
      return (s, [])
    | .drainFunnel => do
      let s ← s.drainFunnel
      return (s, [])
    | .drainReq => do
      let s ← s.drainReq
      return (s, [])
    | .drainResp => do
      let s ← s.drainResp
      return (s, [])
    | .deq => do
      let (x, s) ← s.deq
      return (s, [.left x.1 x.2])

/-- The bursts that the calls ask for, in turn: each takes the next elements of its input, as many as its
length says, and labels them with the input. -/
def deal {k : ℕ} {α : Type} : (Fin k → List α) → List (Fin k × ℕ) → List (Fin k × α)
  | _, [] => []
  | st, (i, n) :: cs => ((st i).take n).map (fun v => (i, v)) ++
      deal (Function.update st i ((st i).drop n)) cs

namespace BurstFunnel

section Traces

variable {k w : ℕ}

/-- The call of `loadIdx`. -/
def Event.called? : Event k w → Option (Fin k)
  | .called i => some i
  | _ => none

/-- The element that entered, with its input. -/
def Event.entered? : Event k w → Option (Fin k × BitVec w)
  | .entered i v => some (i, v)
  | _ => none

/-- The element that left, with its label. -/
def Event.left? : Event k w → Option (Fin k × BitVec w)
  | .left i v => some (i, v)
  | _ => none

variable (tr : List (Event k w))

/-- The calls of `loadIdx`. -/
def calls : List (Fin k) := tr.filterMap Event.called?

/-- The elements that entered, in the order in which they did. -/
def entries : List (Fin k × BitVec w) := tr.filterMap Event.entered?

/-- The elements that entered at input `i`. -/
def enteredAt (i : Fin k) : List (BitVec w) := ((entries tr).filter fun e => e.1 = i).map Prod.snd

/-- The elements that left. -/
def outputs : List (Fin k × BitVec w) := tr.filterMap Event.left?

end Traces

end BurstFunnel

end Xbsv
