import Xbsv.Engine.ObjectStore
import Xbsv.Engine.ReadDelivery

set_option relaxedAutoImplicit false
set_option autoImplicit false

/-!
# Copying an object

`mkMemcpy` of `examples/memcpy`: a read engine and a write engine with one server each, and between them a queue of 16
double words. `startCopy` says what to copy, in bursts of `burstLen` words, and how many times. A burst is read only when
there is room for it in the queue (`rdBuffer`), and written only when it is in the queue (`wrBuffer`). Whenever the write
engine has carried out a command and there is none to follow, `done` is indicated.

The engines have queues for one command.

## Main definitions

* `Xbsv.Memcpy` — the state.
* `Xbsv.memcpy` — the rules and methods, as a system.
* `Xbsv.Memcpy.Fires` — everything a step can do.
-/

namespace Xbsv

open Rules

/-- The engines of `mkMemcpy`: 8 bytes to a beat, one server, one command, and buffers of 256 bytes. -/
abbrev CopyReader : Type := MemreadEngine (8 * 8) 1 1 32

abbrev CopyWriter : Type := MemwriteEngine (8 * 8) 1 1 32

abbrev copyReader : RuleSystem CopyReader (MemreadEngine.Action (8 * 8) 1) (MemreadEngine.Event (8 * 8) 1) :=
  memreadEngine (8 * 8) 8 1 1 32

abbrev copyWriter : RuleSystem CopyWriter (MemwriteEngine.Action (8 * 8) 1) (MemwriteEngine.Event (8 * 8) 1) :=
  memwriteEngine (8 * 8) 8 1 1 32

/-- The state of `mkMemcpy`. -/
structure Memcpy where
  re : CopyReader
  we : CopyWriter
  rdIterCnt : BitVec 32
  wrIterCnt : BitVec 32
  rdCnt : BitVec 32
  wrCnt : BitVec 32
  rdPointer : BitVec 32
  wrPointer : BitVec 32
  burstLen : BitVec 32
  numWords : BitVec 32
  buffer : Fifo 16 (BitVec (8 * 8))
  rdBuffer : BitVec 32
  wrBuffer : BitVec 32

/-- The rules of the read engine, and the methods that the memory calls. -/
def MemreadEngine.Action.isInner {dataWidth numServers : ℕ} : MemreadEngine.Action dataWidth numServers → Bool
  | .put _ _ => false
  | .get _ => false
  | .deq _ => false
  | _ => true

/-- The same for the write engine. -/
def MemwriteEngine.Action.isInner {dataWidth numServers : ℕ} : MemwriteEngine.Action dataWidth numServers → Bool
  | .put _ _ => false
  | .get _ => false
  | .pipe _ _ => false
  | _ => true

namespace Memcpy

/-- The state after reset, over the contents of the block RAMs of the engines. -/
def reset (rdBuff wrBuff : BitVec (buffAddrSz 1 1) → MemengineCmd)
    (complBuff : BitVec (buffAddrSz 4 16) → BitVec (8 * 8) × Bool) : Memcpy where
  re := .reset (8 * 8) 1 1 32 rdBuff
  we := .reset (8 * 8) 1 1 32 wrBuff complBuff
  rdIterCnt := 0
  wrIterCnt := 0
  rdCnt := 0
  wrCnt := 0
  rdPointer := 0
  wrPointer := 0
  burstLen := 0
  numWords := 0
  buffer := .empty
  rdBuffer := 32
  wrBuffer := 0

/-- Rules and methods. -/
inductive Action
  | startRead
  | startWrite
  | readFinish
  | writeFinish
  | fillBuffer
  | drainBuffer
  | startCopy (wp rp nw bl ic : BitVec 32)
  | re (a : MemreadEngine.Action (8 * 8) 1)
  | we (a : MemwriteEngine.Action (8 * 8) 1)

/-- What can be seen of a run: the events of the engines, and the indications. -/
inductive Event
  | engine (e : EngineEvent 8 1 1)
  | started
  | done
  deriving DecidableEq

/-- The command for the next burst of an object. -/
def command (pointer cnt burstLen : BitVec 32) : MemengineCmd :=
  ⟨pointer, (cnt * 4).setWidth 40, (burstLen * 4).setWidth 8, burstLen * 4⟩

/-- The counters of words and of iterations after a burst. -/
def count (numWords burstLen cnt iterCnt : BitVec 32) : BitVec 32 × BitVec 32 :=
  if cnt + burstLen ≥ numWords then (0, iterCnt - 1) else (cnt + burstLen, iterCnt)

/-- Rule `start_read`. -/
def startRead (s : Memcpy) : Option (Memcpy × List Event) :=
  if s.rdIterCnt > 0 ∧ s.rdBuffer ≥ s.burstLen then do
    let (re, es) ← copyReader.step s.re (.put 0 (command s.rdPointer s.rdCnt s.burstLen))
    let (rdCnt, rdIterCnt) := count s.numWords s.burstLen s.rdCnt s.rdIterCnt
    return ({ s with re, rdBuffer := s.rdBuffer - s.burstLen, rdCnt, rdIterCnt }, es.map fun e => .engine (.read e))
  else none

/-- Rule `start_write`. -/
def startWrite (s : Memcpy) : Option (Memcpy × List Event) :=
  if s.wrIterCnt > 0 ∧ s.wrBuffer ≥ s.burstLen then do
    let (we, es) ← copyWriter.step s.we (.put 0 (command s.wrPointer s.wrCnt s.burstLen))
    let (wrCnt, wrIterCnt) := count s.numWords s.burstLen s.wrCnt s.wrIterCnt
    return ({ s with we, wrBuffer := s.wrBuffer - s.burstLen, wrCnt, wrIterCnt }, es.map fun e => .engine (.write e))
  else none

/-- Rule `read_finish`. -/
def readFinish (s : Memcpy) : Option (Memcpy × List Event) := do
  let (re, es) ← copyReader.step s.re (.get 0)
  return ({ s with re }, es.map fun e => .engine (.read e))

/-- Rule `write_finish`. -/
def writeFinish (s : Memcpy) : Option (Memcpy × List Event) := do
  let (we, es) ← copyWriter.step s.we (.get 0)
  return ({ s with we }, es.map (fun e => .engine (.write e)) ++ if s.wrIterCnt = 0 then [.done] else [])

/-- Rule `fill_buffer`. -/
def fillBuffer (s : Memcpy) : Option (Memcpy × List Event) := do
  let (v, re) ← s.re.deq 0
  let buffer ← s.buffer.enq v
  return ({ s with re, buffer, wrBuffer := s.wrBuffer + 2 }, [.engine (.read (.dequeued 0 v))])

/-- Rule `drain_buffer`. -/
def drainBuffer (s : Memcpy) : Option (Memcpy × List Event) := do
  let (v, buffer) ← s.buffer.deq
  let we ← s.we.pipe 0 v
  return ({ s with we, buffer, rdBuffer := s.rdBuffer + 2 }, [.engine (.write (.piped 0 v))])

/-- Method `startCopy`. -/
def startCopy (s : Memcpy) (wp rp nw bl ic : BitVec 32) : Memcpy :=
  { s with wrPointer := wp, rdPointer := rp, numWords := nw, wrIterCnt := ic, rdIterCnt := ic, burstLen := bl }

end Memcpy

/-- `mkMemcpy` as a system of rules. -/
def memcpy : RuleSystem Memcpy Memcpy.Action Memcpy.Event where
  step s
    | .startRead => s.startRead
    | .startWrite => s.startWrite
    | .readFinish => s.readFinish
    | .writeFinish => s.writeFinish
    | .fillBuffer => s.fillBuffer
    | .drainBuffer => s.drainBuffer
    | .startCopy wp rp nw bl ic => some (s.startCopy wp rp nw bl ic, [.started])
    | .re a =>
      if a.isInner then do
        let (re, es) ← copyReader.step s.re a
        return ({ s with re }, es.map fun e => .engine (.read e))
      else none
    | .we a =>
      if a.isInner then do
        let (we, es) ← copyWriter.step s.we a
        return ({ s with we }, es.map fun e => .engine (.write e))
      else none

namespace Memcpy

/-! ## What a step does -/

/-- Everything a step can do, but for `startCopy`. -/
inductive Fires (s : Memcpy) : Memcpy → List Event → Prop
  | startRead {re : CopyReader} {es : List (MemreadEngine.Event (8 * 8) 1)} (some_left : s.rdIterCnt > 0)
      (room : s.rdBuffer ≥ s.burstLen)
      (put : copyReader.step s.re (.put 0 (command s.rdPointer s.rdCnt s.burstLen)) = some (re, es)) :
      Fires s
        { s with
          re := re
          rdBuffer := s.rdBuffer - s.burstLen
          rdCnt := (count s.numWords s.burstLen s.rdCnt s.rdIterCnt).1
          rdIterCnt := (count s.numWords s.burstLen s.rdCnt s.rdIterCnt).2 }
        (es.map fun e => .engine (.read e))
  | startWrite {we : CopyWriter} {es : List (MemwriteEngine.Event (8 * 8) 1)} (some_left : s.wrIterCnt > 0)
      (there : s.wrBuffer ≥ s.burstLen)
      (put : copyWriter.step s.we (.put 0 (command s.wrPointer s.wrCnt s.burstLen)) = some (we, es)) :
      Fires s
        { s with
          we := we
          wrBuffer := s.wrBuffer - s.burstLen
          wrCnt := (count s.numWords s.burstLen s.wrCnt s.wrIterCnt).1
          wrIterCnt := (count s.numWords s.burstLen s.wrCnt s.wrIterCnt).2 }
        (es.map fun e => .engine (.write e))
  | readFinish {re : CopyReader} {es : List (MemreadEngine.Event (8 * 8) 1)}
      (get : copyReader.step s.re (.get 0) = some (re, es)) :
      Fires s { s with re := re } (es.map fun e => .engine (.read e))
  | writeFinish {we : CopyWriter} {es : List (MemwriteEngine.Event (8 * 8) 1)}
      (get : copyWriter.step s.we (.get 0) = some (we, es)) :
      Fires s { s with we := we } (es.map (fun e => .engine (.write e)) ++ if s.wrIterCnt = 0 then [.done] else [])
  | fillBuffer {re : CopyReader} {v : BitVec (8 * 8)} {buffer : Fifo 16 (BitVec (8 * 8))}
      (deq : copyReader.step s.re (.deq 0) = some (re, [.dequeued 0 v]))
      (enq : buffer.items = s.buffer.items ++ [v]) :
      Fires s { s with re := re, buffer := buffer, wrBuffer := s.wrBuffer + 2 } [.engine (.read (.dequeued 0 v))]
  | drainBuffer {we : CopyWriter} {v : BitVec (8 * 8)} {buffer : Fifo 16 (BitVec (8 * 8))}
      (deq : s.buffer.items = v :: buffer.items)
      (pipe : copyWriter.step s.we (.pipe 0 v) = some (we, [.piped 0 v])) :
      Fires s { s with we := we, buffer := buffer, rdBuffer := s.rdBuffer + 2 } [.engine (.write (.piped 0 v))]
  | re {a : MemreadEngine.Action (8 * 8) 1} {re : CopyReader} {es : List (MemreadEngine.Event (8 * 8) 1)}
      (inner : a.isInner) (step : copyReader.step s.re a = some (re, es)) :
      Fires s { s with re := re } (es.map fun e => .engine (.read e))
  | we {a : MemwriteEngine.Action (8 * 8) 1} {we : CopyWriter} {es : List (MemwriteEngine.Event (8 * 8) 1)}
      (inner : a.isInner) (step : copyWriter.step s.we a = some (we, es)) :
      Fires s { s with we := we } (es.map fun e => .engine (.write e))

/-- The step is a call of `startCopy`. -/
def Action.isStart : Action → Bool
  | .startCopy .. => true
  | _ => false

/-- A step is one of the firings listed. -/
theorem fires_of_step {s s' : Memcpy} {a : Action} {es : List Event} (ha : a.isStart = false)
    (h : memcpy.step s a = some (s', es)) : Fires s s' es := by
  cases a with
  | startRead =>
    simp only [memcpy, Memcpy.startRead, bind, pure, Option.ite_none_right_eq_some, Option.bind_eq_some_iff, Prod.exists,
      Option.some.injEq, Prod.mk.injEq] at h
    obtain ⟨⟨hleft, hroom⟩, re, es, hput, rfl, rfl⟩ := h
    exact .startRead hleft hroom hput
  | startWrite =>
    simp only [memcpy, Memcpy.startWrite, bind, pure, Option.ite_none_right_eq_some, Option.bind_eq_some_iff, Prod.exists,
      Option.some.injEq, Prod.mk.injEq] at h
    obtain ⟨⟨hleft, hthere⟩, we, es, hput, rfl, rfl⟩ := h
    exact .startWrite hleft hthere hput
  | readFinish =>
    simp only [memcpy, Memcpy.readFinish, bind, pure, Option.bind_eq_some_iff, Prod.exists, Option.some.injEq,
      Prod.mk.injEq] at h
    obtain ⟨re, es, hget, rfl, rfl⟩ := h
    exact .readFinish hget
  | writeFinish =>
    simp only [memcpy, Memcpy.writeFinish, bind, pure, Option.bind_eq_some_iff, Prod.exists, Option.some.injEq,
      Prod.mk.injEq] at h
    obtain ⟨we, es, hget, rfl, rfl⟩ := h
    exact .writeFinish hget
  | fillBuffer =>
    simp only [memcpy, Memcpy.fillBuffer, bind, pure, Option.bind_eq_some_iff, Prod.exists, Fifo.enq_eq_some,
      Option.some.injEq, Prod.mk.injEq] at h
    obtain ⟨v, re, hdeq, buffer, ⟨-, henq⟩, rfl, rfl⟩ := h
    exact .fillBuffer (by simp [copyReader, memreadEngine, hdeq]) henq
  | drainBuffer =>
    simp only [memcpy, Memcpy.drainBuffer, bind, pure, Option.bind_eq_some_iff, Prod.exists, Fifo.deq_eq_some,
      Option.some.injEq, Prod.mk.injEq] at h
    obtain ⟨v, buffer, hdeq, we, hpipe, rfl, rfl⟩ := h
    exact .drainBuffer hdeq (by simp [copyWriter, memwriteEngine, hpipe])
  | startCopy wp rp nw bl ic => cases ha
  | re a =>
    simp only [memcpy, bind, pure, Option.ite_none_right_eq_some, Option.bind_eq_some_iff, Prod.exists, Option.some.injEq,
      Prod.mk.injEq] at h
    obtain ⟨hinner, re, es, hstep, rfl, rfl⟩ := h
    exact .re hinner hstep
  | we a =>
    simp only [memcpy, bind, pure, Option.ite_none_right_eq_some, Option.bind_eq_some_iff, Prod.exists, Option.some.injEq,
      Prod.mk.injEq] at h
    obtain ⟨hinner, we, es, hstep, rfl, rfl⟩ := h
    exact .we hinner hstep

end Memcpy

end Xbsv
