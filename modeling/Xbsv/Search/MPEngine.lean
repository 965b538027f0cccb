import Mathlib.Data.List.Basic
import Xbsv.Dma.SGList
import Xbsv.Rules.System
import Xbsv.Search.Dma2BRAM

set_option relaxedAutoImplicit false
set_option autoImplicit false

/-!
# `MPEngine.bsv`

The string search engine. The needle and its table are loaded into two block RAMs. In a search the engine fetches
needle characters and table entries ahead, one index after the other, while the haystack streams in. When the
haystack and the needle differ, and when the needle is complete, the index is set to another value and an epoch
begins; what was fetched in the epoch before is thrown away.

The rules are compiled with `-aggressive-conditions`: a rule needs only what the branch that it takes needs. Behind
each of the three readers there is a memory that answers in order. The software may write to the memory between
two searches.

## Main definitions

* `Xbsv.MPEngine` — the state of the engine, its methods and its rules.
* `Xbsv.Search`, `Xbsv.MPEngine.Event` — a search, and what is seen of it.
* `Xbsv.mpEngine` — the engine as a system of rules.
-/

namespace Xbsv

open Rules

/-- The number of characters of a beat, and the sizes of the queues that the engine is given. -/
structure MPEngineConfig where
  nc : ℕ
  nc_pos : 0 < nc
  nc_lt : nc < 2 ^ 8
  four_dvd : 4 ∣ nc
  compSize : ℕ
  confSize : ℕ
  locSize : ℕ
  compSize_pos : 0 < compSize
  confSize_pos : 0 < confSize
  locSize_pos : 0 < locSize

/-- `Stage`. -/
inductive Stage
  | idle | ready | run
  deriving DecidableEq

/-- A search for the needle in `haystack`, which is found at the offset `base`. -/
structure Search where
  base : BitVec 32
  haystack : List (BitVec 8)
  deriving DecidableEq

/-- The character of the haystack at a position. -/
def Search.char (h : Search) (k : ℕ) : BitVec 8 := h.haystack.getD k 0

/-- The state of `mkMPEngine`: the contents of `needle` and `mpNext` with the answers of their ports A, the queues
and the registers; and the memory. -/
structure MPEngine (c : MPEngineConfig) where
  needle : BitVec 10 → BitVec (8 * 1)
  needleResp : Fifo SGList.bramDepth (BitVec (8 * 1))
  mpNext : BitVec 10 → BitVec (8 * 4)
  mpNextResp : Fifo SGList.bramDepth (BitVec (8 * 4))
  haystack : Fifo (2 * c.nc) (BitVec (8 * 1))
  stage : Stage
  needleLenReg : BitVec 32
  haystackLenReg : BitVec 32
  haystackBase : BitVec 32
  jReg : BitVec 32
  iReg : BitVec 32
  epochReg : BitVec 2
  dmaTag : BitVec 6
  haystackOff : BitVec 32
  haystackPointer : BitVec 32
  n2b : BRAMReadClient 10 1 c.nc
  mp2b : BRAMReadClient 10 4 c.nc
  hreader : MemReader c.nc
  efifo : Fifo 2 (BitVec 2 × BitVec 32)
  compf : Fifo c.compSize Unit
  conff : Fifo c.confSize Unit
  locf : Fifo c.locSize (BitVec 32)
  memory : ObjectMemory

namespace MPEngine

variable {c : MPEngineConfig}

/-- After reset. -/
def reset (c : MPEngineConfig) (memory : ObjectMemory) : MPEngine c where
  needle _ := 0
  needleResp := .empty
  mpNext _ := 0
  mpNextResp := .empty
  haystack := .empty
  stage := .idle
  needleLenReg := 0
  haystackLenReg := 0
  haystackBase := 0
  jReg := 0
  iReg := 0
  epochReg := 0
  dmaTag := 0
  haystackOff := 0
  haystackPointer := 0
  n2b := .reset
  mp2b := .reset
  hreader := .reset
  efifo := .empty
  compf := .empty
  conff := .empty
  locf := .empty
  memory := memory

/-- What is seen: a search is requested, a location is put on `locf`, the end is put on `compf`. -/
inductive Event
  | search (h : Search)
  | loc (v : BitVec 32)
  | comp
  deriving DecidableEq

variable (s : MPEngine c)

/-- `setup`. -/
def setup (needle_pointer mpNext_pointer needle_len : BitVec 32) : MPEngine c :=
  { s with
    needleLenReg := needle_len
    n2b := s.n2b.start needle_pointer 0 0 (needle_len.setWidth 10)
    mp2b := s.mp2b.start mpNext_pointer 0 0 (needle_len.setWidth 10)
    jReg := 0
    iReg := 0 }

/-- `search`, for a haystack that is in memory. -/
def search (haystack_pointer haystack_len haystack_base : BitVec 32) : Option (MPEngine c × List Event) :=
  if s.stage = .ready ∧ s.efifo.items = [] ∧ s.haystack.items = [] then
    some
      ({ s with
          haystackLenReg := haystack_len
          haystackPointer := haystack_pointer
          haystackBase := haystack_base
          dmaTag := s.dmaTag + 1
          haystackOff := 0
          stage := .run
          iReg := 1
          jReg := 1
          efifo := .empty
          epochReg := 0 },
        [.search ⟨haystack_base, (List.range haystack_len.toNat).map fun k =>
          s.memory haystack_pointer (haystack_base.toNat + k)⟩])
  else none

/-- Rule `finish_setup`. -/
def finishSetup : Option (MPEngine c) := do
  let n2b ← s.n2b.finish
  let mp2b ← s.mp2b.finish
  let conff ← s.conff.enq ()
  return { s with n2b, mp2b, conff, stage := .ready }

/-- Rule `haystackReq`. -/
def haystackReq : Option (MPEngine c) :=
  if s.stage = .run ∧ s.haystackOff < s.haystackLenReg then do
    let hreader ← s.hreader.readReq
      ⟨s.haystackPointer, (s.haystackBase + s.haystackOff).setWidth 40, BitVec.ofNat 8 c.nc, s.dmaTag⟩
    return { s with hreader, haystackOff := s.haystackOff + BitVec.ofNat 32 c.nc }
  else none

/-- Rule `haystackResp`. -/
def haystackResp : Option (MPEngine c) := do
  let (rv, hreader) ← s.hreader.readData
  if rv.tag = s.dmaTag then do
    let haystack ← s.haystack.enqN (unpackVector 1 c.nc rv.data)
    return { s with hreader, haystack }
  else
    return { s with hreader }

/-- Rule `haystackDrain`. -/
def haystackDrain : Option (MPEngine c) :=
  if s.stage ≠ .run then do
    let (_, haystack) ← s.haystack.deq
    return { s with haystack }
  else none

/-- Rule `bramDrain`. -/
def bramDrain : Option (MPEngine c) :=
  if s.stage ≠ .run then do
    let (_, mpNextResp) ← s.mpNextResp.deq
    let (_, needleResp) ← s.needleResp.deq
    let (_, efifo) ← s.efifo.deq
    return { s with mpNextResp, needleResp, efifo }
  else none

/-- Rule `matchNeedleReq`. -/
def matchNeedleReq : Option (MPEngine c) :=
  if s.stage = .run then do
    let needleResp ← s.needleResp.enq (s.needle ((s.iReg - 1).setWidth 10))
    let mpNextResp ← s.mpNextResp.enq (s.mpNext (s.iReg.setWidth 10))
    let efifo ← s.efifo.enq (s.epochReg, s.iReg)
    return { s with needleResp, mpNextResp, efifo, iReg := s.iReg + 1 }
  else none

/-- The body of rule `matchNeedleResp`, for an answer of the current epoch. -/
def compare (nv : BitVec (8 * 1)) (mp : BitVec (8 * 4)) (i : BitVec 32) : Option (MPEngine c × List Event) :=
  if s.haystackLenReg < s.jReg then do
    -- the end of the haystack
    let compf ← s.compf.enq ()
    return ({ s with compf, stage := .ready }, [.comp])
  else if i = s.needleLenReg + 1 then do
    -- the end of the needle
    let locf ← s.locf.enq (s.haystackBase + s.jReg - i)
    return ({ s with locf, epochReg := s.epochReg + 1, iReg := 1 }, [.loc (s.haystackBase + s.jReg - i)])
  else do
    let hv ← s.haystack.first
    if 0 < i ∧ nv ≠ hv then
      return ({ s with epochReg := s.epochReg + 1, iReg := mp }, [])
    else
      let (_, haystack) ← s.haystack.deq
      return ({ s with jReg := s.jReg + 1, haystack }, [])

/-- Rule `matchNeedleResp`. -/
def matchNeedleResp : Option (MPEngine c × List Event) :=
  if s.stage = .run then do
    let (nv, needleResp) ← s.needleResp.deq
    let (mp, mpNextResp) ← s.mpNextResp.deq
    let ((epoch, i), efifo) ← s.efifo.deq
    let s' := { s with needleResp, mpNextResp, efifo }
    if epoch = s.epochReg then s'.compare nv mp i else return (s', [])
  else none

/-- The rules, the steps of the memory and of the readers of the three queues, and the calls. -/
inductive Action
  | finishSetup | haystackReq | haystackResp | haystackDrain | bramDrain | matchNeedleReq | matchNeedleResp
  | needle (a : BRAMReadClient.Action) | mpNext (a : BRAMReadClient.Action) | clientReq | clientData
  | conf | comp | loc
  | search (haystack_pointer haystack_len haystack_base : BitVec 32)
  | store (memory : ObjectMemory)

/-- Neither a search nor a write to the memory. -/
def Action.isInternal : Action → Bool
  | .search .. | .store _ => false
  | _ => true

end MPEngine

/-- The engine as a system of rules. -/
def mpEngine (c : MPEngineConfig) : RuleSystem (MPEngine c) MPEngine.Action MPEngine.Event where
  step s
    | .finishSetup => s.finishSetup.map (·, [])
    | .haystackReq => s.haystackReq.map (·, [])
    | .haystackResp => s.haystackResp.map (·, [])
    | .haystackDrain => s.haystackDrain.map (·, [])
    | .bramDrain => s.bramDrain.map (·, [])
    | .matchNeedleReq => s.matchNeedleReq.map (·, [])
    | .matchNeedleResp => s.matchNeedleResp
    | .needle a => (s.n2b.step s.memory s.needle a).map fun r => ({ s with n2b := r.1, needle := r.2 }, [])
    | .mpNext a => (s.mp2b.step s.memory s.mpNext a).map fun r => ({ s with mp2b := r.1, mpNext := r.2 }, [])
    | .clientReq => s.hreader.clientReq.map fun hreader => ({ s with hreader }, [])
    | .clientData => (s.hreader.clientData s.memory).map fun hreader => ({ s with hreader }, [])
    | .conf => s.conff.deq.map fun r => ({ s with conff := r.2 }, [])
    | .comp => s.compf.deq.map fun r => ({ s with compf := r.2 }, [])
    | .loc => s.locf.deq.map fun r => ({ s with locf := r.2 }, [])
    | .search haystack_pointer haystack_len haystack_base => s.search haystack_pointer haystack_len haystack_base
    | .store memory => if s.stage = .ready then some ({ s with memory }, []) else none

end Xbsv
