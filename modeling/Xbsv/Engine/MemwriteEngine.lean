import Xbsv.Engine.BurstFunnel
import Xbsv.Engine.Loader

set_option relaxedAutoImplicit false
set_option autoImplicit false

/-!
# The write engine

`mkMemwriteEngineBuff`: each of `numServers` servers takes commands and, from a pipe of its own, the data
to write. Credit for a burst is given, beat by beat, when data comes into the buffer of the pipe
(`check_in`) and taken by the loader. For each burst that it hands on, the loader tells the burst funnel
which buffer its data comes from (`loadIdx`), and the burst becomes a request to the memory (`writeReq`);
`workf` keeps the number of its beats, its server and whether it is the last of its command. The data is
given in the order of the requests (`writeData`) and so are the answers (`writeDone`), of which the last
of a command completes it.

The burst funnel does not take the number of beats from the burst: it reads it from a register per
server, which is written when a command is put.

## Main definitions

* `Xbsv.MemwriteEngine` — the state.
* `Xbsv.memwriteEngine` — the rules and methods, as a system.
* `Xbsv.MemwriteEngine.Event` — what can be seen of a run, with the server that a request or a beat is for,
  and the movements of bursts and data inside.
* `Xbsv.MemwriteEngine.Record` — the events of a run, sorted.
-/

namespace Xbsv

open Rules

/-- The state of `mkMemwriteEngineBuff`; the entries of `workf` are the number of beats of a burst, its
server and whether it is the last of its command, and those of `donef` the last two of these. -/
structure MemwriteEngine (dataWidth cmdQDepth numServers bufferSizeBeats : ℕ) where
  loader : Loader cmdQDepth numServers
  workf : Fifo 32 (BitVec 8 × Fin numServers × Bool)
  donef : Fifo 32 (Fin numServers × Bool)
  respCnt : BitVec 8
  writeDataBuffs : Fin numServers → Fifo bufferSizeBeats (BitVec dataWidth)
  writeDataFunnel : BurstFunnel numServers dataWidth

namespace MemwriteEngine

/-- The methods and rules. -/
inductive Action (dataWidth numServers : ℕ) where
  /-- `writeServers[i].request.put` -/
  | put (i : Fin numServers) (c : MemengineCmd)
  /-- `writeServers[i].response.get` -/
  | get (i : Fin numServers)
  /-- A connection in the funnel of the commands. -/
  | moveCmd (n : Node)
  /-- Rule `store_cmd`. -/
  | storeCmd
  /-- Rule `load_ctxt_a`. -/
  | loadCtxtA
  /-- Rule `load_ctxt_b`. -/
  | loadCtxtB
  /-- Rule `load_ctxt_c`. -/
  | loadCtxtC
  /-- `dataPipes[i].enq` -/
  | pipe (i : Fin numServers) (v : BitVec dataWidth)
  /-- The connection of a buffer to the burst funnel. -/
  | inject (i : Fin numServers)
  /-- A connection in the funnel of the data. -/
  | moveData (n : Node)
  /-- Rule `drain_funnel` of the burst funnel. -/
  | drainFunnel
  /-- Rule `drain_req` of the burst funnel. -/
  | drainReq
  /-- Rule `drain_resp` of the burst funnel. -/
  | drainResp
  /-- `dmaClient.writeReq.get` -/
  | writeReq
  /-- `dmaClient.writeData.get` -/
  | writeData
  /-- `dmaClient.writeDone.put` -/
  | writeDone

/-- What can be seen of a run. -/
inductive Event (dataWidth numServers : ℕ) where
  /-- A command was put on server `i`. -/
  | accepted (i : Fin numServers) (c : MemengineCmd)
  /-- The loader handed on a burst of server `i`, when `c` was left of the command. -/
  | loaded (i : Fin numServers) (c : MemengineCmd)
  /-- A request for server `i`. -/
  | request (i : Fin numServers) (r : ObjectRequest)
  /-- A beat came into the buffer of server `i`. -/
  | piped (i : Fin numServers) (v : BitVec dataWidth)
  /-- A beat went from the buffer of server `i` into the burst funnel. -/
  | injected (i : Fin numServers) (v : BitVec dataWidth)
  /-- A beat was given to the memory, for a burst of server `i`. -/
  | written (i : Fin numServers) (v : BitVec dataWidth)
  /-- The beat given for a burst of server `i` came from server `j`: the simulation ends. -/
  | burstsOo (i j : Fin numServers)
  /-- The memory answered a burst. -/
  | done
  /-- A response of server `i`. -/
  | response (i : Fin numServers)
  deriving DecidableEq

variable {dataWidth cmdQDepth numServers bufferSizeBeats : ℕ}

/-- The state after reset, with the given contents of the block RAMs. -/
def reset (dataWidth cmdQDepth numServers bufferSizeBeats : ℕ)
    (buff : BitVec (buffAddrSz numServers cmdQDepth) → MemengineCmd)
    (complBuff : BitVec (buffAddrSz 4 16) → BitVec dataWidth × Bool) :
    MemwriteEngine dataWidth cmdQDepth numServers bufferSizeBeats :=
  ⟨.reset cmdQDepth numServers 0 buff, .empty, .empty, 0, fun _ => .empty,
    .reset numServers dataWidth complBuff⟩

/-- `request.put` of server `i`. -/
def put (dataWidthBytes : ℕ) (s : MemwriteEngine dataWidth cmdQDepth numServers bufferSizeBeats)
    (i : Fin numServers) (c : MemengineCmd) :
    Option (MemwriteEngine dataWidth cmdQDepth numServers bufferSizeBeats) := do
  let loader ← s.loader.put i c
  return { s with
    loader
    writeDataFunnel := s.writeDataFunnel.setBurstLen i (c.burstLen >>> beatShift dataWidthBytes) }

/-- `write_data_funnel.loadIdx`, for the burst that `load_ctxt_c` hands on, if any. -/
def loadIdx (f : BurstFunnel numServers dataWidth) :
    Option (Fin numServers × MemengineCmd) → Option (BurstFunnel numServers dataWidth)
  | none => some f
  | some (i, _) => f.loadIdx i

/-- Rule `load_ctxt_c`, with the burst that it hands on. -/
def loadCtxtC (dataWidthBytes : ℕ) (s : MemwriteEngine dataWidth cmdQDepth numServers bufferSizeBeats) :
    Option (Option (Fin numServers × MemengineCmd) ×
      MemwriteEngine dataWidth cmdQDepth numServers bufferSizeBeats) := do
  let (loader, burst) ← s.loader.loadCtxtC dataWidthBytes
  let writeDataFunnel ← loadIdx s.writeDataFunnel burst
  return (burst, { s with loader, writeDataFunnel })

/-- `dataPipes[i].enq` (`check_in`). -/
def pipe (s : MemwriteEngine dataWidth cmdQDepth numServers bufferSizeBeats) (i : Fin numServers)
    (v : BitVec dataWidth) : Option (MemwriteEngine dataWidth cmdQDepth numServers bufferSizeBeats) := do
  let f ← (s.writeDataBuffs i).enq v
  return { s with
    writeDataBuffs := Function.update s.writeDataBuffs i f
    loader := s.loader.giveCredit i }

/-- `mkConnection(foo[i], write_data_funnel.dataIn[i])`. -/
def inject (s : MemwriteEngine dataWidth cmdQDepth numServers bufferSizeBeats) (i : Fin numServers) :
    Option (BitVec dataWidth × MemwriteEngine dataWidth cmdQDepth numServers bufferSizeBeats) := do
  let (v, f) ← (s.writeDataBuffs i).deq
  let writeDataFunnel ← s.writeDataFunnel.enq i v
  return (v, { s with
    writeDataBuffs := Function.update s.writeDataBuffs i f
    writeDataFunnel })

/-- Method `writeReq.get`. -/
def getWriteReq (dataWidthBytes : ℕ) (s : MemwriteEngine dataWidth cmdQDepth numServers bufferSizeBeats) :
    Option ((Fin numServers × ObjectRequest) ×
      MemwriteEngine dataWidth cmdQDepth numServers bufferSizeBeats) := do
  let ((idx, cmd), loader) ← s.loader.takeBurst
  let workf ← s.workf.enq (cmd.bl >>> beatShift dataWidthBytes, idx, cmd.isLast)
  return ((idx, cmd.request), { s with loader, workf })

/-- Method `writeData.get`: the server of the burst, and the beat with the server it came from. -/
def getWriteData (s : MemwriteEngine dataWidth cmdQDepth numServers bufferSizeBeats) :
    Option ((Fin numServers × Fin numServers × BitVec dataWidth) ×
      MemwriteEngine dataWidth cmdQDepth numServers bufferSizeBeats) := do
  let (rc, idx, last) ← s.workf.first
  let new_respCnt := s.respCnt + 1
  let done := decide (new_respCnt = rc)
  let workf ← s.workf.dropIf done
  let donef ← s.donef.enqIf done (idx, last)
  let (wd, writeDataFunnel) ← s.writeDataFunnel.deq
  return ((idx, wd), { s with
    respCnt := if done then 0 else new_respCnt
    workf
    donef
    writeDataFunnel })

/-- Method `writeDone.put`. -/
def putWriteDone (s : MemwriteEngine dataWidth cmdQDepth numServers bufferSizeBeats) :
    Option (MemwriteEngine dataWidth cmdQDepth numServers bufferSizeBeats) := do
  let ((idx, last), donef) ← s.donef.deq
  let loader ← s.loader.finishIf idx last
  return { s with donef, loader }

end MemwriteEngine

open MemwriteEngine

/-- `mkMemwriteEngineBuff` as a system of rules. -/
def memwriteEngine (dataWidth dataWidthBytes cmdQDepth numServers bufferSizeBeats : ℕ) :
    RuleSystem (MemwriteEngine dataWidth cmdQDepth numServers bufferSizeBeats)
      (MemwriteEngine.Action dataWidth numServers) (MemwriteEngine.Event dataWidth numServers) where
  step s
    | .put i c => do
      let s ← s.put dataWidthBytes i c
      return (s, [.accepted i c])
    | .get i => do
      let loader ← s.loader.get i
      return ({ s with loader }, [.response i])
    | .moveCmd n => do
      let loader ← s.loader.moveCmd n
      return ({ s with loader }, [])
    | .storeCmd => do
      let (_, loader) ← s.loader.storeCmd
      return ({ s with loader }, [])
    | .loadCtxtA => do
      let loader ← s.loader.loadCtxtA
      return ({ s with loader }, [])
    | .loadCtxtB => do
      let loader ← s.loader.loadCtxtB dataWidthBytes
      return ({ s with loader }, [])
    | .loadCtxtC => do
      let (burst, s) ← s.loadCtxtC dataWidthBytes
      return (s, burst.toList.map fun b => .loaded b.1 b.2)
    | .pipe i v => do
      let s ← s.pipe i v
      return (s, [.piped i v])
    | .inject i => do
      let (v, s) ← s.inject i
      return (s, [.injected i v])
    | .moveData n => do
      let writeDataFunnel ← s.writeDataFunnel.moveData n
      return ({ s with writeDataFunnel }, [])
    | .drainFunnel => do
      let writeDataFunnel ← s.writeDataFunnel.drainFunnel
      return ({ s with writeDataFunnel }, [])
    | .drainReq => do
      let writeDataFunnel ← s.writeDataFunnel.drainReq
      return ({ s with writeDataFunnel }, [])
    | .drainResp => do
      let writeDataFunnel ← s.writeDataFunnel.drainResp
      return ({ s with writeDataFunnel }, [])
    | .writeReq => do
      let ((i, r), s) ← s.getWriteReq dataWidthBytes
      return (s, [.request i r])
    | .writeData => do
      let ((i, j, v), s) ← s.getWriteData
      return (s, .written i v :: if j = i then [] else [.burstsOo i j])
    | .writeDone => do
      let s ← s.putWriteDone
      return (s, [.done])

namespace MemwriteEngine

/-- What can be seen of a run, sorted. -/
structure Record (dataWidth numServers : ℕ) where
  /-- The commands put on each server. -/
  accepted : Fin numServers → List MemengineCmd
  /-- The bursts that the loader handed on, each as what was left of its command. -/
  loads : List (Fin numServers × MemengineCmd)
  requests : List (Fin numServers × ObjectRequest)
  /-- The beats that came into the buffer of each server. -/
  piped : Fin numServers → List (BitVec dataWidth)
  /-- The beats that went into the burst funnel. -/
  injected : List (Fin numServers × BitVec dataWidth)
  /-- The beats given to the memory, with the servers of their bursts. -/
  written : List (Fin numServers × BitVec dataWidth)
  /-- The beats that came from the wrong server. -/
  oo : List (Fin numServers × Fin numServers)
  /-- The number of bursts that the memory has answered. -/
  dones : ℕ
  /-- The number of responses of each server. -/
  responses : Fin numServers → ℕ

namespace Record

variable {dataWidth numServers : ℕ}

/-- The record before anything has happened. -/
def empty : Record dataWidth numServers :=
  ⟨fun _ => [], [], [], fun _ => [], [], [], [], 0, fun _ => 0⟩

/-- One more event. -/
def add (R : Record dataWidth numServers) : Event dataWidth numServers → Record dataWidth numServers
  | .accepted i c => { R with accepted := Function.update R.accepted i (R.accepted i ++ [c]) }
  | .loaded i c => { R with loads := R.loads ++ [(i, c)] }
  | .request i r => { R with requests := R.requests ++ [(i, r)] }
  | .piped i v => { R with piped := Function.update R.piped i (R.piped i ++ [v]) }
  | .injected i v => { R with injected := R.injected ++ [(i, v)] }
  | .written i v => { R with written := R.written ++ [(i, v)] }
  | .burstsOo i j => { R with oo := R.oo ++ [(i, j)] }
  | .done => { R with dones := R.dones + 1 }
  | .response i => { R with responses := Function.update R.responses i (R.responses i + 1) }

end Record

/-- The record of a trace. -/
def recordOf {dataWidth numServers : ℕ} (tr : List (Event dataWidth numServers)) :
    Record dataWidth numServers := tr.foldl Record.add .empty

end MemwriteEngine

end Xbsv
