import Xbsv.Engine.BramFifos
import Xbsv.Engine.Command
import Xbsv.Engine.Pipe

set_option relaxedAutoImplicit false
set_option autoImplicit false

/-!
# The command loader of the memory engines

The part that `mkMemreadEngineBuff` and `mkMemwriteEngineBuff` have in common. Commands enter through a
funnel and are kept in a queue per server (`store_cmd`). Three rules go round the servers: the first
reads the oldest command of a server, the second tests whether there is credit for its next burst, and
the third hands the burst on, if there was, and either removes the command or writes back what is left
of it.

`loadIdx` counts in `TLog#(numServers)` bits. What the hardware does with an index that is not one of a
server is not defined, so the model has no step there.

## Main definitions

* `Xbsv.Loader` — the state.
* `Xbsv.Loader.storeCmd`, `Xbsv.Loader.loadCtxtA`, `Xbsv.Loader.loadCtxtB`, `Xbsv.Loader.loadCtxtC` —
  the rules.
* `Xbsv.Loader.put`, `Xbsv.Loader.get` — the methods of a server.
* `Xbsv.Loader.Keeps` — the loader against a record of what went in and came out.
-/

namespace Xbsv

open Rules

/-- `outCntSz`: the width of the counters of commands. -/
abbrev outCntSz (cmdQDepth : ℕ) : ℕ := 1 + tlog cmdQDepth

/-- The queues of the command funnel: `cmds_in` are of size 1. -/
abbrev cmdCap (numServers : ℕ) : Node → ℕ := funnelCap numServers (bitsPerCycle numServers) 1

/-- The state of the loader. -/
structure Loader (cmdQDepth numServers : ℕ) where
  outs1 : Fin numServers → BitVec (outCntSz cmdQDepth)
  outs0 : Fin numServers → BitVec (outCntSz cmdQDepth)
  buffCap : Fin numServers → BitVec 16
  cmdBuf : UGBramFifos numServers cmdQDepth MemengineCmd
  loadInProgress : Bool
  loadfB : Fifo 1 (MemengineCmd × Bool × Bool)
  loadfC : Fifo 1 (Fin numServers × MemengineCmd)
  outfs : Fin numServers → Fifo 1 Unit
  cmdsIn : Net (cmdCap numServers) (Fin numServers × MemengineCmd)
  loadIdx : BitVec (tlog numServers)

/-- The server with a given index, if there is one. -/
def serverOf (numServers : ℕ) (idx : BitVec (tlog numServers)) : Option (Fin numServers) :=
  if h : idx.toNat < numServers then some ⟨idx.toNat, h⟩ else none

namespace Loader

variable {cmdQDepth numServers : ℕ}

/-- The state after reset: `credit` is the initial value of the counters `buffCap`, and `buff` are the
contents of the block RAM. -/
def reset (cmdQDepth numServers : ℕ) (credit : BitVec 16)
    (buff : BitVec (buffAddrSz numServers cmdQDepth) → MemengineCmd) :
    Loader cmdQDepth numServers where
  outs1 _ := 0
  outs0 _ := 0
  buffCap _ := credit
  cmdBuf := .reset numServers cmdQDepth buff
  loadInProgress := false
  loadfB := .empty
  loadfC := .empty
  outfs _ := .empty
  cmdsIn := .empty
  loadIdx := 0

/-- `request.put` of server `i`. The message about bursts that do not fit the buffer is left out. -/
def put (l : Loader cmdQDepth numServers) (i : Fin numServers) (c : MemengineCmd) :
    Option (Loader cmdQDepth numServers) :=
  if l.outs0 i < BitVec.ofNat _ cmdQDepth then do
    let cmdsIn ← l.cmdsIn.enq (stages numServers (bitsPerCycle numServers), i) (i, c)
    return { l with
      outs0 := Function.update l.outs0 i (l.outs0 i + 1)
      cmdsIn }
  else none

/-- `response.get` of server `i`. -/
def get (l : Loader cmdQDepth numServers) (i : Fin numServers) :
    Option (Loader cmdQDepth numServers) := do
  let (_, outf) ← (l.outfs i).deq
  return { l with
    outfs := Function.update l.outfs i outf
    outs0 := Function.update l.outs0 i (l.outs0 i - 1) }

/-- A command moves on in the funnel. -/
def moveCmd (l : Loader cmdQDepth numServers) (n : Node) : Option (Loader cmdQDepth numServers) := do
  let cmdsIn ← l.cmdsIn.move (funnelRoute numServers (bitsPerCycle numServers)) n
  return { l with cmdsIn }

/-- Rule `store_cmd`. -/
def storeCmd (l : Loader cmdQDepth numServers) :
    Option (Fin numServers × Loader cmdQDepth numServers) := do
  let ((idx, cmd), cmdsIn) ← l.cmdsIn.deq (0, 0)
  return (idx, { l with
    outs1 := Function.update l.outs1 idx (l.outs1 idx + 1)
    cmdBuf := l.cmdBuf.enq idx cmd
    cmdsIn })

/-- Rule `load_ctxt_a`. -/
def loadCtxtA (l : Loader cmdQDepth numServers) : Option (Loader cmdQDepth numServers) :=
  if l.loadInProgress then none
  else do
    let i ← serverOf numServers l.loadIdx
    if l.outs1 i > 0 then
      let cmdBuf ← l.cmdBuf.firstReq i
      return { l with
        loadInProgress := true
        cmdBuf }
    else
      return { l with loadIdx := l.loadIdx + 1 }

/-- Rule `load_ctxt_b`: `cond0` is that there is credit for a burst, `cond1` that it is the last. -/
def loadCtxtB (dataWidthBytes : ℕ) (l : Loader cmdQDepth numServers) :
    Option (Loader cmdQDepth numServers) := do
  let (cmd, cmdBuf) ← l.cmdBuf.firstResp
  let i ← serverOf numServers l.loadIdx
  let cond0 := decide (l.buffCap i ≥ (cmd.burstLen >>> beatShift dataWidthBytes).setWidth 16)
  let loadfB ← l.loadfB.enq (cmd, cond0, cmd.isLast)
  return { l with
    cmdBuf
    loadfB }

/-- Rule `load_ctxt_c`, with the burst that it hands on, and whether it removes the command. -/
def loadCtxtC (dataWidthBytes : ℕ) (l : Loader cmdQDepth numServers) :
    Option (Loader cmdQDepth numServers × Option (Fin numServers × MemengineCmd)) := do
  let ((cmd, cond0, cond1), loadfB) ← l.loadfB.deq
  let i ← serverOf numServers l.loadIdx
  let l := { l with
    loadInProgress := false
    loadIdx := l.loadIdx + 1
    loadfB }
  if cond0 then
    let loadfC ← l.loadfC.enq (i, cmd)
    let l := { l with
      buffCap := Function.update l.buffCap i
        (l.buffCap i - (cmd.burstLen >>> beatShift dataWidthBytes).setWidth 16)
      loadfC }
    if cond1 then
      return ({ l with
        outs1 := Function.update l.outs1 i (l.outs1 i - 1)
        cmdBuf := l.cmdBuf.deq i }, some (i, cmd))
    else
      let cmdBuf ← l.cmdBuf.updHead i cmd.next
      return ({ l with cmdBuf }, some (i, cmd))
  else
    return (l, none)

/-- `toGet(loadf_c).get`: the next burst. -/
def takeBurst (l : Loader cmdQDepth numServers) :
    Option ((Fin numServers × MemengineCmd) × Loader cmdQDepth numServers) := do
  let (b, loadfC) ← l.loadfC.deq
  return (b, { l with loadfC })

/-- `buffCap[i].increment(1)`. -/
def giveCredit (l : Loader cmdQDepth numServers) (i : Fin numServers) :
    Loader cmdQDepth numServers :=
  { l with buffCap := Function.update l.buffCap i (l.buffCap i + 1) }

/-- `outfs[i].enq`: a command is complete. -/
def finish (l : Loader cmdQDepth numServers) (i : Fin numServers) :
    Option (Loader cmdQDepth numServers) := do
  let outf ← (l.outfs i).enq ()
  return { l with outfs := Function.update l.outfs i outf }

/-- `if (last) outfs[i].enq`. -/
def finishIf (l : Loader cmdQDepth numServers) (i : Fin numServers) (last : Bool) :
    Option (Loader cmdQDepth numServers) := if last then l.finish i else some l

end Loader

end Xbsv
