import Xbsv.Dma.MemRead
import Xbsv.Dma.MemWrite

set_option relaxedAutoImplicit false
set_option autoImplicit false

/-!
# Memory servers

`mkConfigMemServerR` and `mkConfigMemServerW` of `MemServer.bsv`: several masters, each a read or a
write module, share one address server of the memory management unit through the arbiter
`mkSglAddrServer`; the software configures the unit, and can ask for translations of its own
(`addrRequest`), which go to the same address server but past the arbiter. The two servers differ in
the kind of master, in the port of the unit and in the error that `sglist` reports; those are
parameters. `mkConfigMemServerRW` puts one of each over a unit, and has configuration methods of its
own.

The clients of a server are distributed over its masters when the hardware is elaborated, so a
master simply has clients of its own. The debug and traffic counters are left out.

## Main definitions

* `Xbsv.addrServer` — an address server of the unit, `sgl.addr[i]`.
* `Xbsv.portRules` — the rules of the unit behind that server.
* `Xbsv.SglAddrServer`, `Xbsv.mkSglAddrServer` — the arbiter.
* `Xbsv.configMemServer` — a memory server as a rule system.
* `Xbsv.configMemServerR`, `Xbsv.configMemServerW` — the two servers.
* `Xbsv.configMemServerRW` — `mkConfigMemServerRW`, the two over one unit.
-/

namespace Xbsv

open Rules SGList

/-! ## Address servers -/

section Port

variable {addrWidth : ℕ}

/-- `sgl.addr[i]`. -/
def addrServer (i : Fin 2) : Server (SGList.State addrWidth) ReqTup (BitVec addrWidth) where
  put s req := ((s.port i).put req).map (s.setPort i)
  get s := (s.port i).get.map fun x => (x.1, s.setPort i x.2)

/-- The rules of the unit behind port `i`, while the configuration does not change. -/
def portRules (undef : Page → Offset → BitVec 40) (i : Fin 2) :
    RuleSystem (SGList.State addrWidth) SGList.Action (SGList.Event addrWidth) :=
  (mmu undef).guard fun _ a => a.isBehind i

end Port

/-! ## The arbiter -/

/-- The state of `mkSglAddrServer` for `n` servers, with that of the server it shares out. -/
structure SglAddrServer (σ : Type) (n : ℕ) where
  server : σ
  tokFifo : Fifo 9 (Fin n)
  arb : BitVec (tlog n)

namespace SglAddrServer

variable {σ ρ υ : Type} {n : ℕ} (base : Server σ ρ υ)

/-- The state after reset. -/
def reset (w : σ) : SglAddrServer σ n := ⟨w, .empty, 0⟩

/-- `servers[i].request.put`: only in the turn of `i`. -/
def put (i : Fin n) (s : SglAddrServer σ n) (req : ρ) : Option (SglAddrServer σ n) :=
  if s.arb = BitVec.ofNat (tlog n) i then do
    let tokFifo ← s.tokFifo.enq i
    let server ← base.put s.server req
    return { s with server, tokFifo }
  else none

/-- `servers[i].response.get`: only when the oldest token is that of `i`. -/
def get (i : Fin n) (s : SglAddrServer σ n) : Option (υ × SglAddrServer σ n) := do
  let (tok, tokFifo) ← s.tokFifo.deq
  if tok = i then
    let (rv, server) ← base.get s.server
    return (rv, { s with server, tokFifo })
  else none

/-- Rule `inc_arb`. -/
def incArb (s : SglAddrServer σ n) : SglAddrServer σ n := { s with arb := s.arb + 1 }

end SglAddrServer

/-- `mkSglAddrServer`: the servers that share `base`. -/
def mkSglAddrServer {σ ρ υ : Type} {n : ℕ} (base : Server σ ρ υ) (i : Fin n) :
    Server (SglAddrServer σ n) ρ υ where
  put := SglAddrServer.put base i
  get := SglAddrServer.get base i

/-! ## The servers -/

/-- The state of a memory server with `n` masters in states `S`. -/
structure ConfigServer (S : Type) (addrWidth n : ℕ) where
  sgl : SglAddrServer (SGList.State addrWidth) n
  masters : Fin n → S
  addrReqFifo : Fifo 2 Unit
  dmaErrorFifo : Fifo 2 DmaError

namespace ConfigServer

variable {S A E : Type} {addrWidth n : ℕ}

/-- The state after reset, with the given contents of the block RAMs and with masters in state
`m`. -/
def reset (t : Tables) (m : S) : ConfigServer S addrWidth n :=
  ⟨.reset (.reset addrWidth t), fun _ => m, .empty, .empty⟩

/-- Rules and methods of a memory server. -/
inductive Action (A : Type) (n : ℕ)
  | master (i : Fin n) (a : A)
  | incArb
  | addrRequest (pointer offset : BitVec 32)
  | sglistEntry
  | sglist (pref : BitVec 32) (addr : BitVec 64) (len : BitVec 32)
  | region (pointer : BitVec 32) (barr8 barr4 barr0 : BitVec 64)
  | dmaError
  | mmu (a : SGList.Action)
  deriving DecidableEq, Repr

/-- What a memory server makes visible. `config` shows the call that reaches the unit, and whether
it was reported as an error. -/
inductive Event (E : Type) (addrWidth n : ℕ)
  | master (i : Fin n) (e : E)
  | addrRequest (req : ReqTup)
  | addrResponse (physAddr : BitVec addrWidth)
  | config (c : ConfigCall) (reported : Bool)
  | dmaError (err : DmaError)
  deriving DecidableEq, Repr

/-- The request that `addrRequest` puts to the address server. -/
def addrTup (pointer offset : BitVec 32) : ReqTup := ⟨pointer.setWidth 5, offset.setWidth 40⟩

/-- The call that method `sglist` makes of the unit. -/
def sglistCall (pref : BitVec 32) (addr : BitVec 64) (len : BitVec 32) : ConfigCall :=
  .sglist pref (addr.setWidth 40) len

/-- The call that method `region` makes of the unit. -/
def regionCall (pointer : BitVec 32) (barr8 barr4 barr0 : BitVec 64) : ConfigCall :=
  .region pointer (barr8.setWidth 36) (barr4.setWidth 36) (barr0.setWidth 36)

/-- Method `sglist`: a bad pointer is reported, and the entry is written in any case. -/
def sglist (errorType : DmaErrorType) (s : ConfigServer S addrWidth n) (pref : BitVec 32)
    (addr : BitVec 64) (len : BitVec 32) : Option (ConfigServer S addrWidth n) := do
  let dmaErrorFifo ← enqError s.dmaErrorFifo
    (if badPointer pref then some ⟨errorType, pref⟩ else none)
  let server ← s.sgl.server.config (sglistCall pref addr len)
  return { s with
    sgl := { s.sgl with server }
    dmaErrorFifo }

/-- Method `addrRequest`, past the arbiter. -/
def addrRequest (port : Fin 2) (s : ConfigServer S addrWidth n) (pointer offset : BitVec 32) :
    Option (ConfigServer S addrWidth n) := do
  let addrReqFifo ← s.addrReqFifo.enq ()
  let server ← (addrServer port).put s.sgl.server (addrTup pointer offset)
  return { s with
    sgl := { s.sgl with server }
    addrReqFifo }

/-- Rule `sglistEntry`: the response for the software, past the arbiter. -/
def sglistEntry (port : Fin 2) (s : ConfigServer S addrWidth n) :
    Option (BitVec addrWidth × ConfigServer S addrWidth n) := do
  let (_, addrReqFifo) ← s.addrReqFifo.deq
  let (physAddr, server) ← (addrServer port).get s.sgl.server
  return (physAddr, { s with
    sgl := { s.sgl with server }
    addrReqFifo })

end ConfigServer

/-- A memory server on the given port of the unit. `master i srv` is master `i` as it uses the
server `srv`, and `errorType` the error that `sglist` reports. -/
def configMemServer {S A E : Type} {addrWidth n : ℕ} (undef : Page → Offset → BitVec 40)
    (port : Fin 2) (errorType : DmaErrorType)
    (master : Fin n → Server (SglAddrServer (SGList.State addrWidth) n) ReqTup (BitVec addrWidth) →
      RuleSystem (SglAddrServer (SGList.State addrWidth) n × S) A E) :
    RuleSystem (ConfigServer S addrWidth n) (ConfigServer.Action A n)
      (ConfigServer.Event E addrWidth n) where
  step s
    | .master i a => do
      let ((sgl, m), es) ←
        (master i (mkSglAddrServer (addrServer port) i)).step (s.sgl, s.masters i) a
      return ({ s with
          sgl
          masters := Function.update s.masters i m },
        es.map (.master i))
    | .incArb => some ({ s with sgl := s.sgl.incArb }, [])
    | .addrRequest pointer offset => do
      let s' ← s.addrRequest port pointer offset
      return (s', [.addrRequest (ConfigServer.addrTup pointer offset)])
    | .sglistEntry => do
      let (physAddr, s') ← s.sglistEntry port
      return (s', [.addrResponse physAddr])
    | .sglist pref addr len => do
      let s' ← s.sglist errorType pref addr len
      return (s', [.config (ConfigServer.sglistCall pref addr len) (badPointer pref)])
    | .region pointer barr8 barr4 barr0 => do
      let c := ConfigServer.regionCall pointer barr8 barr4 barr0
      let server ← s.sgl.server.config c
      return ({ s with sgl := { s.sgl with server } }, [.config c false])
    | .dmaError => do
      let (err, dmaErrorFifo) ← s.dmaErrorFifo.deq
      return ({ s with dmaErrorFifo }, [.dmaError err])
    | .mmu a => do
      let (server, _) ← (portRules undef port).step s.sgl.server a
      return ({ s with sgl := { s.sgl with server } }, [])

section Servers

variable {τ κ ε : Type} {numClients numTags addrWidth : ℕ} (n : ℕ)
  (undef : Page → Offset → BitVec 40) (tg : TagGen τ κ ε numClients numTags)

/-- `mkConfigMemServerR` with `n` masters: read modules, on port 0. -/
def configMemServerR (dataWidthBytes : ℕ) :
    RuleSystem (ConfigServer (MemRead τ numClients numTags addrWidth dataWidthBytes) addrWidth n)
      (ConfigServer.Action (MemRead.Action κ numClients dataWidthBytes) n)
      (ConfigServer.Event (MemRead.Event ε numClients numTags addrWidth dataWidthBytes)
        addrWidth n) :=
  configMemServer undef 0 .badPointer2 fun _ srv => memRead dataWidthBytes srv tg

/-- `mkConfigMemServerW` with `n` masters: write modules, on port 1; `stream i` gives the data of the
clients of master `i`. -/
def configMemServerW {dataWidthBytes : ℕ}
    (stream : Fin n → Fin numClients → ℕ → ObjectData (dataWidthBytes * 8)) :
    RuleSystem (ConfigServer (MemWrite τ numClients numTags addrWidth) addrWidth n)
      (ConfigServer.Action (MemWrite.Action κ numClients) n)
      (ConfigServer.Event (MemWrite.Event ε numClients numTags addrWidth dataWidthBytes)
        addrWidth n) :=
  configMemServer undef 1 .badPointer3 fun i srv => memWrite srv tg (stream i)

end Servers

/-! ## Reading and writing -/

/-- The state of `mkConfigMemServerRW`: a read server and a write server over one unit. -/
structure ConfigServerRW (SR SW : Type) (addrWidth n : ℕ) where
  reader : ConfigServer SR addrWidth n
  writer : ConfigServer SW addrWidth n
  dmaErrorFifo : Fifo 2 DmaError
  /-- The two servers are built over the same unit. -/
  shared : reader.sgl.server = writer.sgl.server

/-- The server with another state of the unit. -/
def ConfigServer.withUnit {S : Type} {addrWidth n : ℕ} (s : ConfigServer S addrWidth n)
    (server : SGList.State addrWidth) : ConfigServer S addrWidth n :=
  { s with sgl := { s.sgl with server } }

/-- The rules of a server and the methods of its masters: not its configuration methods, which the
read-write server does not call, and not the rules of the unit, which the two servers share. -/
def ConfigServer.Action.isOwn {A : Type} {n : ℕ} : ConfigServer.Action A n → Bool
  | .master _ _ => true
  | .incArb => true
  | .sglistEntry => true
  | .dmaError => true
  | _ => false

namespace ConfigServerRW

variable {SR SW AR AW ER EW : Type} {addrWidth n : ℕ}

/-- The state after reset. -/
def reset (t : Tables) (r : SR) (w : SW) : ConfigServerRW SR SW addrWidth n :=
  ⟨.reset t r, .reset t w, .empty, rfl⟩

/-- Rules and methods of the read-write server. -/
inductive Action (AR AW : Type) (n : ℕ)
  | reader (a : ConfigServer.Action AR n)
  | writer (a : ConfigServer.Action AW n)
  | addrRequest (pointer offset : BitVec 32)
  | sglist (pref : BitVec 32) (addr : BitVec 64) (len : BitVec 32)
  | region (pointer : BitVec 32) (barr8 barr4 barr0 : BitVec 64)
  | dmaError
  | mmu (a : SGList.Action)
  deriving DecidableEq, Repr

/-- What the read-write server makes visible. -/
inductive Event (ER EW : Type) (addrWidth n : ℕ)
  | reader (e : ConfigServer.Event ER addrWidth n)
  | writer (e : ConfigServer.Event EW addrWidth n)
  | config (c : ConfigCall) (reported : Bool)
  | dmaError (err : DmaError)
  deriving DecidableEq, Repr

/-- Both servers see the new state of the unit. -/
def setUnit (s : ConfigServerRW SR SW addrWidth n) (server : SGList.State addrWidth) :
    ConfigServerRW SR SW addrWidth n :=
  ⟨s.reader.withUnit server, s.writer.withUnit server, s.dmaErrorFifo, rfl⟩

/-- The state of the unit. -/
def unit (s : ConfigServerRW SR SW addrWidth n) : SGList.State addrWidth := s.reader.sgl.server

/-- A step of the read server. -/
def setReader (s : ConfigServerRW SR SW addrWidth n) (reader : ConfigServer SR addrWidth n) :
    ConfigServerRW SR SW addrWidth n :=
  ⟨reader, s.writer.withUnit reader.sgl.server, s.dmaErrorFifo, rfl⟩

/-- A step of the write server. -/
def setWriter (s : ConfigServerRW SR SW addrWidth n) (writer : ConfigServer SW addrWidth n) :
    ConfigServerRW SR SW addrWidth n :=
  ⟨s.reader.withUnit writer.sgl.server, writer, s.dmaErrorFifo, rfl⟩

/-- Method `sglist`: a bad pointer is reported, and the entry is written in any case. -/
def sglist (s : ConfigServerRW SR SW addrWidth n) (pref : BitVec 32) (addr : BitVec 64)
    (len : BitVec 32) : Option (ConfigServerRW SR SW addrWidth n) := do
  let dmaErrorFifo ← enqError s.dmaErrorFifo
    (if badPointer pref then some ⟨.badPointer1, pref⟩ else none)
  let server ← s.unit.config (ConfigServer.sglistCall pref addr len)
  return { s.setUnit server with dmaErrorFifo }

end ConfigServerRW

/-- `mkConfigMemServerRW` over a read server and a write server. -/
def configMemServerRW {SR SW AR AW ER EW : Type} {addrWidth n : ℕ}
    (undef : Page → Offset → BitVec 40)
    (R : RuleSystem (ConfigServer SR addrWidth n) (ConfigServer.Action AR n)
      (ConfigServer.Event ER addrWidth n))
    (W : RuleSystem (ConfigServer SW addrWidth n) (ConfigServer.Action AW n)
      (ConfigServer.Event EW addrWidth n)) :
    RuleSystem (ConfigServerRW SR SW addrWidth n) (ConfigServerRW.Action AR AW n)
      (ConfigServerRW.Event ER EW addrWidth n) where
  step s
    | .reader a =>
      if a.isOwn then do
        let (reader, es) ← R.step s.reader a
        return (s.setReader reader, es.map .reader)
      else none
    | .writer a =>
      if a.isOwn then do
        let (writer, es) ← W.step s.writer a
        return (s.setWriter writer, es.map .writer)
      else none
    | .addrRequest pointer offset => do
      let (writer, es) ← W.step s.writer (.addrRequest pointer offset)
      return (s.setWriter writer, es.map .writer)
    | .sglist pref addr len => do
      let s' ← s.sglist pref addr len
      return (s', [.config (ConfigServer.sglistCall pref addr len) (badPointer pref)])
    | .region pointer barr8 barr4 barr0 => do
      let c := ConfigServer.regionCall pointer barr8 barr4 barr0
      let server ← s.unit.config c
      return (s.setUnit server, [.config c false])
    | .dmaError => do
      let (err, dmaErrorFifo) ← s.dmaErrorFifo.deq
      return ({ s with dmaErrorFifo }, [.dmaError err])
    | .mmu a =>
      -- the methods of the unit's two ports are those of the two servers
      if a.isBehind 0 && a.isBehind 1 then do
        let (server, _) ← (SGList.mmu undef).step s.unit a
        return (s.setUnit server, [])
      else none

end Xbsv
