import Xbsv.Engine.Pipe

set_option relaxedAutoImplicit false
set_option autoImplicit false

/-!
# `CtrlMux.bsv`

The slaves of a bus share its address range: the upper part of an address, the page select, tells the
slave, and the rest is the address within its page. A multiplexer remembers the slave of a request in a queue
of one element until the response is taken. `mkMemSlaveMux` talks to the slaves directly. `mkSlaveMux` sends
data to them through a pipelined unfunnel and collects the data that they have read through a funnel.

The number of a slave has just as many bits as are needed, and a page select is truncated to it. It may still
be beyond the last slave. Then there is no slave that responds, and what is put to it is put to nobody.

The slaves stand for any slaves that respond to their requests in order; what they respond, and when, is part
of the action. The master puts a beat of data after the request it belongs to, as `mkMemMasterEngine` does,
which makes a beat available when its request is taken.

Reading and writing share nothing in a multiplexer: it is two systems side by side.

## Main definitions

* `Xbsv.PageSelect` — how an address is cut.
* `Xbsv.memSlaveMux`, `Xbsv.slaveMux` — the multiplexers, as systems of rules.
* `Xbsv.ReadMux.Event`, `Xbsv.WriteMux.Event` — what can be seen of a run.
-/

namespace Xbsv

open Rules

/-- How the addresses for `n` slaves are cut: `psel` of `selWidth` bits stands above `asel` of `aw` bits. -/
structure PageSelect (n : ℕ) where
  addrWidth : ℕ
  aw : ℕ
  selWidth : ℕ
  /-- The proviso `Add#(a__, TLog#(n), selWidth)`. -/
  fits : tlog n ≤ selWidth

namespace PageSelect

/-- In `mkMemSlaveMux` all upper bits are the page select: `Add#(selWidth,aw,addrWidth)`. -/
def mem (n aw selWidth : ℕ) (fits : tlog n ≤ selWidth) : PageSelect n := ⟨selWidth + aw, aw, selWidth, fits⟩

/-- In `mkSlaveMux` the page select has 4 bits. -/
def ctrl (n addrWidth aw : ℕ) (fits : tlog n ≤ 4) : PageSelect n := ⟨addrWidth, aw, 4, fits⟩

variable {n : ℕ} (P : PageSelect n)

def psel (a : BitVec P.addrWidth) : BitVec P.selWidth := a.extractLsb' P.aw P.selWidth

def asel (a : BitVec P.addrWidth) : BitVec P.aw := a.extractLsb' 0 P.aw

/-- A request as it is put to a slave. -/
def inPage (req : MemRequest P.addrWidth) : MemRequest P.aw := ⟨P.asel req.addr, req.burstLen, req.tag⟩

/-- What is remembered of an address: `truncate(psel(addr))`. -/
def slaveSel (a : BitVec P.addrWidth) : BitVec (tlog n) := (P.psel a).setWidth (tlog n)

end PageSelect

/-- `portalIfcs[sel]`, if there is this slave. -/
def portalIfcs {n : ℕ} (sel : BitVec (tlog n)) : Option (Fin n) :=
  if h : sel.toNat < n then some ⟨sel.toNat, h⟩ else none

/-! ## Reading -/

/-- The queues for reading, and the requests that the slaves have not responded to. -/
structure ReadMux (n aw : ℕ) where
  req_ars : Fifo 1 (MemRequest aw)
  rs : Fifo 1 (BitVec (tlog n))
  slaves : Fin n → List (MemRequest aw)

namespace ReadMux

/-- What can be seen of reading. -/
inductive Event (n addrWidth aw dataWidth : ℕ) where
  | requested (req : MemRequest addrWidth)
  | delivered (i : Fin n) (req : MemRequest aw)
  /-- The slave `i` gives out data for this request. -/
  | answered (i : Fin n) (req : MemRequest aw) (data : ObjectData dataWidth)
  | returned (data : ObjectData dataWidth)
  deriving DecidableEq

variable {n aw addrWidth dataWidth : ℕ}

/-- The state after reset. -/
def reset (n aw : ℕ) : ReadMux n aw := ⟨.empty, .empty, fun _ => []⟩

/-- Method `readReq`. -/
def readReq (P : PageSelect n) (s : ReadMux n P.aw) (req : MemRequest P.addrWidth) :
    Option (ReadMux n P.aw) := do
  let req_ars ← s.req_ars.enq (P.inPage req)
  let rs ← s.rs.enq (P.slaveSel req.addr)
  return { s with req_ars, rs }

/-- Rule `req_ar`. -/
def req_ar (s : ReadMux n aw) : Option (ReadMux n aw × List (Event n addrWidth aw dataWidth)) := do
  let (req, req_ars) ← s.req_ars.deq
  let sel ← s.rs.first
  match portalIfcs sel with
  | some i =>
    return ({ s with req_ars, slaves := Function.update s.slaves i (s.slaves i ++ [req]) }, [.delivered i req])
  | none => return ({ s with req_ars }, [])

/-- The slave `i` responds to its oldest request. -/
def answer (s : ReadMux n aw) (i : Fin n) : Option (MemRequest aw × ReadMux n aw) :=
  match s.slaves i with
  | req :: rest => some (req, { s with slaves := Function.update s.slaves i rest })
  | [] => none

end ReadMux

/-- What can happen on the read side of `mkMemSlaveMux`. -/
inductive MemSlaveMux.ReadAction (addrWidth dataWidth : ℕ) where
  | readReq (req : MemRequest addrWidth)
  | req_ar
  /-- Method `readData`: the slave responds with `data`. -/
  | readData (data : ObjectData dataWidth)

/-- The read side of `mkMemSlaveMux`. -/
def memSlaveMuxReads {n : ℕ} (P : PageSelect n) (dataWidth : ℕ) :
    RuleSystem (ReadMux n P.aw) (MemSlaveMux.ReadAction P.addrWidth dataWidth)
      (ReadMux.Event n P.addrWidth P.aw dataWidth) where
  step s
    | .readReq req => do
      let s ← ReadMux.readReq P s req
      return (s, [.requested req])
    | .req_ar => s.req_ar
    | .readData data => do
      let sel ← s.rs.first
      let i ← portalIfcs sel
      let (req, s) ← s.answer i
      let (_, rs) ← s.rs.deq
      return ({ s with rs }, [.answered i req data, .returned data])

/-- The read side of `mkSlaveMux`. -/
structure SlaveMux.Reads (n aw dataWidth : ℕ) where
  mux : ReadMux n aw
  read_data_funnel : Net (funnelCap n (bitsPerCycle n) 2) (ObjectData dataWidth)

/-- What can happen on the read side of `mkSlaveMux`. -/
inductive SlaveMux.ReadAction (n addrWidth dataWidth : ℕ) where
  | readReq (req : MemRequest addrWidth)
  | req_ar
  /-- Rule `connect` of the `mkPipeOut` of a slave, which responds with `data`. -/
  | connect (i : Fin n) (data : ObjectData dataWidth)
  /-- A connection of the funnel. -/
  | move (node : Node)
  | readData

/-- The read side of `mkSlaveMux`. -/
def slaveMuxReads {n : ℕ} (P : PageSelect n) (dataWidth : ℕ) :
    RuleSystem (SlaveMux.Reads n P.aw dataWidth) (SlaveMux.ReadAction n P.addrWidth dataWidth)
      (ReadMux.Event n P.addrWidth P.aw dataWidth) where
  step s
    | .readReq req => do
      let mux ← ReadMux.readReq P s.mux req
      return ({ s with mux }, [.requested req])
    | .req_ar => do
      let (mux, es) ← s.mux.req_ar
      return ({ s with mux }, es)
    | .connect i data => do
      let (req, mux) ← s.mux.answer i
      let read_data_funnel ← s.read_data_funnel.enq (stages n (bitsPerCycle n), i) data
      return (⟨mux, read_data_funnel⟩, [.answered i req data])
    | .move node => do
      let read_data_funnel ← s.read_data_funnel.move (funnelRoute n (bitsPerCycle n)) node
      return ({ s with read_data_funnel }, [])
    | .readData => do
      let (data, read_data_funnel) ← s.read_data_funnel.deq (0, 0)
      let (_, rs) ← s.mux.rs.deq
      return (⟨{ s.mux with rs }, read_data_funnel⟩, [.returned data])

/-! ## Writing -/

/-- The queues for writing, the number of beats that the master has yet to put, and what the slaves have
not responded to. -/
structure WriteMux (n aw dataWidth : ℕ) where
  req_aws : Fifo 1 (MemRequest aw)
  ws : Fifo 1 (BitVec (tlog n))
  owed : ℕ
  slaveReqs : Fin n → List (MemRequest aw)
  slaveData : Fin n → List (ObjectData dataWidth)

namespace WriteMux

/-- What can be seen of writing. -/
inductive Event (n addrWidth aw dataWidth : ℕ) where
  | requested (req : MemRequest addrWidth)
  | delivered (i : Fin n) (req : MemRequest aw)
  | dataPut (data : ObjectData dataWidth)
  | dataDelivered (i : Fin n) (data : ObjectData dataWidth)
  /-- The slave `i` responds to this request, which it has got this beat for. -/
  | answered (i : Fin n) (req : MemRequest aw) (data : ObjectData dataWidth) (tag : BitVec 6)
  | done (tag : BitVec 6)
  deriving DecidableEq

variable {n aw addrWidth dataWidth : ℕ}

/-- The state after reset. -/
def reset (n aw dataWidth : ℕ) : WriteMux n aw dataWidth := ⟨.empty, .empty, 0, fun _ => [], fun _ => []⟩

/-- Method `writeReq`. -/
def writeReq (P : PageSelect n) (s : WriteMux n P.aw dataWidth) (req : MemRequest P.addrWidth) :
    Option (WriteMux n P.aw dataWidth) := do
  let req_aws ← s.req_aws.enq (P.inPage req)
  let ws ← s.ws.enq (P.slaveSel req.addr)
  return { s with req_aws, ws, owed := s.owed + 1 }

/-- Rule `req_aw`. -/
def req_aw (s : WriteMux n aw dataWidth) :
    Option (WriteMux n aw dataWidth × List (Event n addrWidth aw dataWidth)) := do
  let (req, req_aws) ← s.req_aws.deq
  let sel ← s.ws.first
  match portalIfcs sel with
  | some i =>
    return ({ s with req_aws, slaveReqs := Function.update s.slaveReqs i (s.slaveReqs i ++ [req]) },
      [.delivered i req])
  | none => return ({ s with req_aws }, [])

/-- A slave takes a beat. -/
def deliverData (s : WriteMux n aw dataWidth) (i : Fin n) (data : ObjectData dataWidth) :
    WriteMux n aw dataWidth × List (Event n addrWidth aw dataWidth) :=
  ({ s with slaveData := Function.update s.slaveData i (s.slaveData i ++ [data]) }, [.dataDelivered i data])

/-- Method `writeDone`: the slave responds with `tag` to its oldest request. -/
def writeDone (s : WriteMux n aw dataWidth) (tag : BitVec 6) :
    Option (WriteMux n aw dataWidth × List (Event n addrWidth aw dataWidth)) := do
  let sel ← s.ws.first
  let i ← portalIfcs sel
  let (_, ws) ← s.ws.deq
  match s.slaveReqs i, s.slaveData i with
  | req :: reqs, data :: datas =>
    return ({ s with
      ws
      slaveReqs := Function.update s.slaveReqs i reqs
      slaveData := Function.update s.slaveData i datas }, [.answered i req data tag, .done tag])
  | _, _ => none

end WriteMux

/-- What can happen on the write side of `mkMemSlaveMux`. -/
inductive MemSlaveMux.WriteAction (addrWidth dataWidth : ℕ) where
  | writeReq (req : MemRequest addrWidth)
  | req_aw
  | writeData (data : ObjectData dataWidth)
  | writeDone (tag : BitVec 6)

/-- The write side of `mkMemSlaveMux`. -/
def memSlaveMuxWrites {n : ℕ} (P : PageSelect n) (dataWidth : ℕ) :
    RuleSystem (WriteMux n P.aw dataWidth) (MemSlaveMux.WriteAction P.addrWidth dataWidth)
      (WriteMux.Event n P.addrWidth P.aw dataWidth) where
  step s
    | .writeReq req => do
      let s ← WriteMux.writeReq P s req
      return (s, [.requested req])
    | .req_aw => s.req_aw
    | .writeData data =>
      if s.owed = 0 then none
      else do
        let s := { s with owed := s.owed - 1 }
        let sel ← s.ws.first
        match portalIfcs sel with
        | some i =>
          let (s, es) := s.deliverData i data
          return (s, .dataPut data :: es)
        | none => return (s, [.dataPut data])
    | .writeDone tag => s.writeDone tag

/-- The write side of `mkSlaveMux`: the queue `write_data` is the input of the unfunnel, and the
`mkPipeIn`s of the slaves are at its outputs. -/
structure SlaveMux.Writes (n aw dataWidth : ℕ) where
  mux : WriteMux n aw dataWidth
  write_data_unfunnel : Net (unfunnelCap 2) (BitVec (tlog n) × ObjectData dataWidth)

/-- What can happen on the write side of `mkSlaveMux`. -/
inductive SlaveMux.WriteAction (n addrWidth dataWidth : ℕ) where
  | writeReq (req : MemRequest addrWidth)
  | req_aw
  | writeData (data : ObjectData dataWidth)
  /-- A rule `xfer` of the unfunnel, or a connection of one of its outputs. -/
  | move (node : Node)
  /-- Rule `connect` of the `mkPipeIn` of a slave. -/
  | connect (i : Fin n)
  | writeDone (tag : BitVec 6)

/-- The write side of `mkSlaveMux`. -/
def slaveMuxWrites {n : ℕ} (P : PageSelect n) (dataWidth : ℕ) :
    RuleSystem (SlaveMux.Writes n P.aw dataWidth) (SlaveMux.WriteAction n P.addrWidth dataWidth)
      (WriteMux.Event n P.addrWidth P.aw dataWidth) where
  step s
    | .writeReq req => do
      let mux ← WriteMux.writeReq P s.mux req
      return ({ s with mux }, [.requested req])
    | .req_aw => do
      let (mux, es) ← s.mux.req_aw
      return ({ s with mux }, es)
    | .writeData data =>
      if s.mux.owed = 0 then none
      else do
        let sel ← s.mux.ws.first
        let write_data_unfunnel ← s.write_data_unfunnel.enq (stages n (bitsPerCycle n) + 1, 0) (sel, data)
        return (⟨{ s.mux with owed := s.mux.owed - 1 }, write_data_unfunnel⟩, [.dataPut data])
    | .move node => do
      let write_data_unfunnel ← s.write_data_unfunnel.move (unfunnelRoute n (bitsPerCycle n)) node
      return ({ s with write_data_unfunnel }, [])
    | .connect i => do
      let ((_, data), write_data_unfunnel) ← s.write_data_unfunnel.deq (0, i)
      let (mux, es) := s.mux.deliverData i data
      return (⟨mux, write_data_unfunnel⟩, es)
    | .writeDone tag => do
      let (mux, es) ← s.mux.writeDone tag
      return ({ s with mux }, es)

/-! ## The multiplexers -/

/-- `mkMemSlaveMux`. -/
def memSlaveMux {n : ℕ} (P : PageSelect n) (dataWidth : ℕ) :=
  (memSlaveMuxReads P dataWidth).both (memSlaveMuxWrites P dataWidth)

/-- `mkSlaveMux`. -/
def slaveMux {n : ℕ} (P : PageSelect n) (dataWidth : ℕ) :=
  (slaveMuxReads P dataWidth).both (slaveMuxWrites P dataWidth)

/-- The state of `mkMemSlaveMux` after reset. -/
def MemSlaveMux.reset (n aw dataWidth : ℕ) : ReadMux n aw × WriteMux n aw dataWidth :=
  (.reset n aw, .reset n aw dataWidth)

/-- The state of `mkSlaveMux` after reset. -/
def SlaveMux.reset (n aw dataWidth : ℕ) : SlaveMux.Reads n aw dataWidth × SlaveMux.Writes n aw dataWidth :=
  (⟨.reset n aw, .empty⟩, ⟨.reset n aw dataWidth, .empty⟩)

end Xbsv
