import Xbsv.Engine.Loader
import Xbsv.Rules.System

set_option relaxedAutoImplicit false
set_option autoImplicit false

/-!
# The read engine

`mkMemreadEngineBuff`: each of `numServers` servers takes commands and delivers the data they ask for in
a pipe of its own. The bursts that the loader hands on become requests to the memory (`readReq`), and
`workf` keeps for each of them the number of beats, the server and whether it is the last of its
command. The memory answers in the order of the requests (`readData`); the beats go through an unfunnel
into a buffer per server. Credit for a burst is taken by the loader and given back, beat by beat, when
the pipe is read.

A beat carries a mark when it is the last of its command. When a marked beat is read the command is
complete, which `response` tells.

## Main definitions

* `Xbsv.MemreadEngine` — the state.
* `Xbsv.memreadEngine` — the rules and methods, as a system.
* `Xbsv.MemreadEngine.Event` — what can be seen of a run, with the server that a request is for, and the
  movements of commands in and out of the queues of the loader.
-/

namespace Xbsv

open Rules

/-- The queues between `readData` and the pipes: `read_data`, the unfunnel and the buffers. -/
abbrev dataCap (bufferSizeBeats : ℕ) : Node → ℕ := unfunnelCap bufferSizeBeats

/-- The state of `mkMemreadEngineBuff`; the entries of `workf` are the number of beats of a burst, its
server and whether it is the last of its command. -/
structure MemreadEngine (dataWidth cmdQDepth numServers bufferSizeBeats : ℕ) where
  loader : Loader cmdQDepth numServers
  workf : Fifo 32 (BitVec 8 × Fin numServers × Bool)
  respCnt : BitVec 8
  readData : Net (dataCap bufferSizeBeats)
    (BitVec (tlog numServers) × (BitVec dataWidth × Bool))

namespace MemreadEngine

/-- The methods and rules. -/
inductive Action (dataWidth numServers : ℕ) where
  /-- `readServers[i].request.put` -/
  | put (i : Fin numServers) (c : MemengineCmd)
  /-- `readServers[i].response.get` -/
  | get (i : Fin numServers)
  /-- A connection in the funnel of the commands. -/
  | moveCmd (n : Node)
  /-- Rule `store_cmd`. -/
  | storeCmd
  /-- Rule `load_ctxt_a`. -/
  | loadCtxtA
  /-- Rule `load_ctxt_b`. -/
  | loadCtxtB
  /-- Rule `load_ctxt_c`. -/
  | loadCtxtC
  /-- `dmaClient.readReq.get` -/
  | readReq
  /-- `dmaClient.readData.put` -/
  | readData (d : BitVec dataWidth)
  /-- A rule of the unfunnel, or the connection of one of its outputs. -/
  | moveData (n : Node)
  /-- `dataPipes[i].deq` -/
  | deq (i : Fin numServers)

/-- What can be seen of a run. -/
inductive Event (dataWidth numServers : ℕ) where
  /-- A command was put on server `i`. -/
  | accepted (i : Fin numServers) (c : MemengineCmd)
  /-- A command went into the queue of server `i`. -/
  | stored (i : Fin numServers)
  /-- The loader handed on a burst of server `i`, when `c` was left of the command. -/
  | loaded (i : Fin numServers) (c : MemengineCmd)
  /-- A request for server `i`. -/
  | request (i : Fin numServers) (r : ObjectRequest)
  /-- A beat from the memory. -/
  | data (d : BitVec dataWidth)
  /-- A beat was read from pipe `i`. -/
  | dequeued (i : Fin numServers) (d : BitVec dataWidth)
  /-- A response of server `i`. -/
  | response (i : Fin numServers)
  deriving DecidableEq

variable {dataWidth cmdQDepth numServers bufferSizeBeats : ℕ}

/-- The state after reset, with the given contents of the block RAM. -/
def reset (dataWidth cmdQDepth numServers bufferSizeBeats : ℕ)
    (buff : BitVec (buffAddrSz numServers cmdQDepth) → MemengineCmd) :
    MemreadEngine dataWidth cmdQDepth numServers bufferSizeBeats :=
  ⟨.reset cmdQDepth numServers (BitVec.ofNat 16 bufferSizeBeats) buff, .empty, 0, .empty⟩

/-- Method `readReq.get`. -/
def getReadReq (dataWidthBytes : ℕ) (s : MemreadEngine dataWidth cmdQDepth numServers bufferSizeBeats) :
    Option ((Fin numServers × ObjectRequest) ×
      MemreadEngine dataWidth cmdQDepth numServers bufferSizeBeats) := do
  let ((idx, cmd), loader) ← s.loader.takeBurst
  let workf ← s.workf.enq (cmd.bl >>> beatShift dataWidthBytes, idx, cmd.isLast)
  return ((idx, cmd.request), { s with loader, workf })

/-- The node of `read_data`. -/
def dataTop (numServers : ℕ) : Node := (stages numServers (bitsPerCycle numServers) + 1, 0)

/-- Method `readData.put`. -/
def putReadData (s : MemreadEngine dataWidth cmdQDepth numServers bufferSizeBeats)
    (d : BitVec dataWidth) : Option (MemreadEngine dataWidth cmdQDepth numServers bufferSizeBeats) := do
  let (rc, idx, last) ← s.workf.first
  let new_respCnt := s.respCnt + 1
  if new_respCnt = rc then
    let (_, workf) ← s.workf.deq
    let readData ← s.readData.enq (dataTop numServers) (BitVec.ofNat _ idx, (d, last))
    return { s with respCnt := 0, workf, readData }
  else
    let readData ← s.readData.enq (dataTop numServers) (BitVec.ofNat _ idx, (d, false))
    return { s with respCnt := new_respCnt, readData }

/-- `dataPipes[i].first` and `dataPipes[i].deq`. -/
def deq (s : MemreadEngine dataWidth cmdQDepth numServers bufferSizeBeats) (i : Fin numServers) :
    Option (BitVec dataWidth × MemreadEngine dataWidth cmdQDepth numServers bufferSizeBeats) := do
  let ((_, d, last), readData) ← s.readData.deq (0, i)
  let loader ← (s.loader.giveCredit i).finishIf i last
  return (d, { s with loader, readData })

end MemreadEngine

open MemreadEngine

/-- `mkMemreadEngineBuff` as a system of rules. -/
def memreadEngine (dataWidth dataWidthBytes cmdQDepth numServers bufferSizeBeats : ℕ) :
    RuleSystem (MemreadEngine dataWidth cmdQDepth numServers bufferSizeBeats)
      (Action dataWidth numServers) (Event dataWidth numServers) where
  step s
    | .put i c => do
      let loader ← s.loader.put i c
      return ({ s with loader }, [.accepted i c])
    | .get i => do
      let loader ← s.loader.get i
      return ({ s with loader }, [.response i])
    | .moveCmd n => do
      let loader ← s.loader.moveCmd n
      return ({ s with loader }, [])
    | .storeCmd => do
      let (i, loader) ← s.loader.storeCmd
      return ({ s with loader }, [.stored i])
    | .loadCtxtA => do
      let loader ← s.loader.loadCtxtA
      return ({ s with loader }, [])
    | .loadCtxtB => do
      let loader ← s.loader.loadCtxtB dataWidthBytes
      return ({ s with loader }, [])
    | .loadCtxtC => do
      let (loader, burst) ← s.loader.loadCtxtC dataWidthBytes
      return ({ s with loader }, burst.toList.map fun b => .loaded b.1 b.2)
    | .readReq => do
      let ((i, r), s) ← s.getReadReq dataWidthBytes
      return (s, [.request i r])
    | .readData d => do
      let s ← s.putReadData d
      return (s, [.data d])
    | .moveData n => do
      let readData ← s.readData.move (unfunnelRoute numServers (bitsPerCycle numServers)) n
      return ({ s with readData }, [])
    | .deq i => do
      let (d, s) ← s.deq i
      return (s, [.dequeued i d])

namespace MemreadEngine

section Traces

variable {dataWidth numServers : ℕ} (i : Fin numServers)

/-- The command put on server `i`. -/
def Event.accepted? : Event dataWidth numServers → Option MemengineCmd
  | .accepted j c => if j = i then some c else none
  | _ => none

/-- The burst of server `i` that the loader handed on. -/
def Event.loaded? : Event dataWidth numServers → Option MemengineCmd
  | .loaded j c => if j = i then some c else none
  | _ => none

/-- A request, with its server. -/
def Event.request? : Event dataWidth numServers → Option (Fin numServers × ObjectRequest)
  | .request j r => some (j, r)
  | _ => none

/-- A beat from the memory. -/
def Event.data? : Event dataWidth numServers → Option (BitVec dataWidth)
  | .data d => some d
  | _ => none

/-- The beat read from pipe `i`. -/
def Event.dequeued? : Event dataWidth numServers → Option (BitVec dataWidth)
  | .dequeued j d => if j = i then some d else none
  | _ => none

variable (tr : List (Event dataWidth numServers))

/-- The commands put on server `i`. -/
def accepted : List MemengineCmd := tr.filterMap (Event.accepted? i)

/-- The requests for all servers. -/
def requests : List (Fin numServers × ObjectRequest) := tr.filterMap Event.request?

/-- The requests for server `i`. -/
def requestsOf : List ObjectRequest := ((requests tr).filter fun r => r.1 = i).map Prod.snd

/-- The beats from the memory. -/
def given : List (BitVec dataWidth) := tr.filterMap Event.data?

/-- The beats read from pipe `i`. -/
def dequeued : List (BitVec dataWidth) := tr.filterMap (Event.dequeued? i)

/-- The number of responses of server `i`. -/
def responses : ℕ := tr.count (.response i)

/-- The number of commands that went into the queue of server `i`. -/
def stored : ℕ := tr.count (.stored i)

/-- The bursts of server `i` that the loader handed on. -/
def loaded : List MemengineCmd := tr.filterMap (Event.loaded? i)

/-- The number of commands that left the queue of server `i`: those whose last burst was handed on. -/
def removed : ℕ := (loaded i tr).countP MemengineCmd.isLast

/-- The places of the beats that a request asks for. -/
def places (dataWidthBytes : ℕ) (r : ObjectRequest) : List (BitVec 32 × BitVec 40) :=
  (List.range (r.burstLen.toNat / dataWidthBytes)).map fun j =>
    (r.pointer, r.offset + BitVec.ofNat 40 (j * dataWidthBytes))

/-- The beats that the memory gave for server `i`, with their places: the memory answers in the order of
the requests. -/
def givenTo (dataWidthBytes : ℕ) : List ((BitVec 32 × BitVec 40) × BitVec dataWidth) :=
  ((((requests tr).flatMap fun r => (places dataWidthBytes r.2).map fun p => (r.1, p)).zip
    (given tr)).filter fun b => b.1.1 = i).map fun b => (b.1.2, b.2)

end Traces

end MemreadEngine

end Xbsv
