import Mathlib.Logic.Function.Basic
import Xbsv.Portal.MemPortal

set_option relaxedAutoImplicit false
set_option autoImplicit false

/-!
# Indications through a portal

The hardware calls the methods of an indication interface: each call is put into the `mkToBit` of its
method. A thread that runs `portalExec_event` reads the queue-status register of the portal. As long as it
is not 0 it names the last method that has a message, and the handler of this method reads the words of the
message, one bus read for each, and calls back. The hardware goes on calling between any two of these
accesses.

## Main definitions

* `Xbsv.PortalCtrl` — the registers, `mkPortalCtrlMemSlave`.
* `Xbsv.PipeOut.readData` — the slave of a method, `mkPipeOutMemSlave`.
* `Xbsv.indications` — the thread, the slaves and the hardware, as a system.
* `Xbsv.Indications.callbacks`, `Xbsv.Indications.enqueued` — the calls made to the software, and those the
  hardware has made.

## Main results

* `Xbsv.Indications.Waits.step` — how far the thread is with the messages of a method.
* `Xbsv.indications_delivered` — the callbacks are the calls of the hardware, for messages of at most
  2 ^ 32 bits.
-/

namespace Xbsv

open Rules Bits

/-- The methods of an indication interface: `fromInteger(i)` gives the number of each as a `Bit#(32)`. -/
structure IndicationMethods (k : ℕ) where
  size : Fin k → RequestSize
  numbered : k ≤ 2 ^ 32

/-- The registers of `mkPortalCtrlMemSlave`. -/
structure PortalCtrl where
  ctrlWriteDoneFifo : Fifo 2 (BitVec 6)
  underflowReadCountReg : BitVec 32
  outOfRangeReadCountReg : BitVec 32
  outOfRangeWriteCount : BitVec 32
  interruptEnableReg : Bool

namespace PortalCtrl

/-- The state after reset. -/
def reset : PortalCtrl := ⟨.empty, 0, 0, 0, false⟩

section Ready

variable {k : ℕ} (readyBits : Fin k → Bool)

/-- Some method has a message. -/
def interruptStatus : Bool := Fin.foldl k (fun v i => if readyBits i then true else v) false

/-- The last method that has a message. -/
def readyChannel : BitVec 32 := Fin.foldl k (fun v i => if readyBits i then BitVec.ofNat 32 i else v) (-1)

/-- The loop over the methods: the channel is that of a method with a message, if there is one. -/
lemma readyChannel_of_interruptStatus (h : interruptStatus readyBits = true) :
    ∃ c : Fin k, readyBits c = true ∧ readyChannel readyBits = BitVec.ofNat 32 c := by
  induction k with
  | zero => cases h
  | succ k ih =>
    rw [interruptStatus, Fin.foldl_succ_last] at h
    rw [readyChannel, Fin.foldl_succ_last]
    by_cases hlast : readyBits (Fin.last k) = true
    · exact ⟨Fin.last k, hlast, if_pos hlast⟩
    · rw [if_neg hlast] at h
      obtain ⟨c, hc, heq⟩ := ih (fun i => readyBits i.castSucc) h
      refine ⟨c.castSucc, hc, ?_⟩
      rw [if_neg hlast]
      exact heq

end Ready

variable {k : ℕ}

/-- `readData`. -/
def readData (s : PortalCtrl) (readyBits : Fin k → Bool) (b : AddrBeat) : BitVec 32 :=
  if b.addr = 0x000 then (if interruptStatus readyBits then 1 else 0)
  else if b.addr = 0x004 then (if s.interruptEnableReg then 1 else 0)
  else if b.addr = 0x008 then 7
  else if b.addr = 0x00C then s.underflowReadCountReg
  else if b.addr = 0x010 then s.outOfRangeReadCountReg
  else if b.addr = 0x014 then s.outOfRangeWriteCount
  else if b.addr = 0x018 then (if interruptStatus readyBits then readyChannel readyBits + 1 else 0)
  else 0x05a05a0

/-- `writeData`. -/
def writeData (s : PortalCtrl) (b : AddrBeat) (d : BitVec 32) : Option PortalCtrl := do
  let ctrlWriteDoneFifo ← s.ctrlWriteDoneFifo.enqIf b.last b.tag
  let s := { s with ctrlWriteDoneFifo }
  if b.addr = 0x004 then return { s with interruptEnableReg := d.getLsbD 0 }
  else return s

/-- The queue-status register is 0, or one more than the number of a method that has a message. -/
lemma readData_queueStatus (s : PortalCtrl) (readyBits : Fin k → Bool) (tag : BitVec 6) (last : Bool) :
    s.readData readyBits ⟨0x018, tag, last⟩ = 0 ∨
      ∃ c : Fin k, readyBits c = true ∧ s.readData readyBits ⟨0x018, tag, last⟩ = BitVec.ofNat 32 c + 1 := by
  have hread : s.readData readyBits ⟨0x018, tag, last⟩ =
      if interruptStatus readyBits then readyChannel readyBits + 1 else 0 := rfl
  rw [hread]
  by_cases h : interruptStatus readyBits = true
  · obtain ⟨c, hc, heq⟩ := readyChannel_of_interruptStatus readyBits h
    rw [if_pos h, heq]
    exact .inr ⟨c, hc, rfl⟩
  · exact .inl (if_neg h)

end PortalCtrl

namespace PipeOut

variable {asz : ℕ}

/-- `readData`: at 0 stands the next word, at 4 whether there is one. -/
def readData (methodPipe : ToBit 32 asz) (b : AddrBeat) : Option (BitVec 32 × ToBit 32 asz) :=
  if b.addr = 0 then do
    let v ← methodPipe.first
    let methodPipe ← methodPipe.deq
    return (v, methodPipe)
  else if b.addr = 4 then some (if methodPipe.notEmpty then 1 else 0, methodPipe)
  else some (0, methodPipe)

end PipeOut

/-- What the thread is doing. -/
inductive Poller (k : ℕ) where
  /-- Something else. -/
  | idle
  /-- It reads the queue-status register; `asked` is whether the request is on the bus. -/
  | status (asked : Bool)
  /-- It is in the handler of the channel `c`, which has read the words `got`. -/
  | handler (c : Fin k) (got : List (BitVec 32)) (asked : Bool)
  /-- It enables the interrupts. -/
  | enable
  deriving DecidableEq

/-- The thread and the slaves of a portal with `k` indication methods. -/
structure Indications {k : ℕ} (I : IndicationMethods k) where
  thread : Poller k
  ctrlPort : PortalCtrl
  indicationPipes : (m : Fin k) → ToBit 32 (I.size m).asz

namespace Indications

variable {k : ℕ} {I : IndicationMethods k}

/-- What can happen. -/
inductive Action (I : IndicationMethods k) where
  /-- `portalExec_event` is called. -/
  | event
  /-- The request of a read reaches the slave. -/
  | readReq
  /-- The data of a read is fetched. -/
  | readData (tag : BitVec 6) (last : Bool)
  /-- `ENABLE_INTERRUPTS`. -/
  | write (tag : BitVec 6) (last : Bool)
  /-- The answer to a write is fetched. -/
  | writeDone
  /-- The hardware calls a method. -/
  | enq (m : Fin k) (val : BitVec (I.size m).asz)

/-- What can be seen of a run. -/
inductive Event (I : IndicationMethods k) where
  | enqueued (m : Fin k) (val : BitVec (I.size m).asz)
  /-- The request of a word reaches the slave of a method that has no message. -/
  | underflow (m : Fin k)
  /-- The handler of a method has read these words and calls back. -/
  | callback (m : Fin k) (words : List (BitVec 32))
  deriving DecidableEq

/-- The state after reset. -/
def reset (I : IndicationMethods k) : Indications I :=
  ⟨.idle, .reset, fun m => .reset 32 (I.size m).asz⟩

/-- The methods that have a message. -/
def readyBits (s : Indications I) (m : Fin k) : Bool := (s.indicationPipes m).notEmpty

/-- The thread after it has read the queue status `v`: the handler of an unknown channel does nothing. -/
def Poller.gotStatus (k : ℕ) (v : BitVec 32) : Poller k :=
  if v = 0 then .enable
  else if h : (v - 1).toNat < k then .handler ⟨_, h⟩ [] false
  else .status false

/-- The thread after its handler has read the words `got`: it calls back once it has all of them. -/
def Poller.gotWord (I : IndicationMethods k) (c : Fin k) (got : List (BitVec 32)) :
    Poller k × List (Event I) :=
  if got.length = nwords 32 (I.size c).asz then (.status false, [.callback c got])
  else (.handler c got false, [])

end Indications

open Indications

variable {k : ℕ} {I : IndicationMethods k}

/-- The system. -/
def indications (I : IndicationMethods k) :
    RuleSystem (Indications I) (Indications.Action I) (Indications.Event I) where
  step s
    | .event =>
      match s.thread with
      | .idle => some ({ s with thread := .status false }, [])
      | _ => none
    | .readReq =>
      match s.thread with
      | .status false => some ({ s with thread := .status true }, [])
      | .handler c got false =>
        some ({ s with thread := .handler c got true },
          if (s.indicationPipes c).notEmpty then [] else [.underflow c])
      | _ => none
    | .readData tag last =>
      match s.thread with
      | .status true =>
        some ({ s with thread := Poller.gotStatus k (s.ctrlPort.readData s.readyBits ⟨0x018, tag, last⟩) }, [])
      | .handler c got true => do
        let (v, pipe) ← PipeOut.readData (s.indicationPipes c) ⟨0, tag, last⟩
        let (thread, es) := Poller.gotWord I c (got ++ [v])
        return ({ s with thread, indicationPipes := Function.update s.indicationPipes c pipe }, es)
      | _ => none
    | .write tag last =>
      match s.thread with
      | .enable => do
        let ctrlPort ← s.ctrlPort.writeData ⟨0x004, tag, last⟩ 1
        return ({ s with thread := .idle, ctrlPort }, [])
      | _ => none
    | .writeDone => do
      let (_, ctrlWriteDoneFifo) ← s.ctrlPort.ctrlWriteDoneFifo.deq
      return ({ s with ctrlPort := { s.ctrlPort with ctrlWriteDoneFifo } }, [])
    | .enq m val => do
      let pipe ← (s.indicationPipes m).enq val
      return ({ s with indicationPipes := Function.update s.indicationPipes m pipe }, [.enqueued m val])

namespace Indications

/-- The value of an event that is the hardware calling the method `m`. -/
def Event.enqueued? (m : Fin k) : Event I → Option (BitVec (I.size m).asz)
  | .enqueued m' val => if h : m' = m then some (h ▸ val) else none
  | _ => none

/-- The words of an event that is a callback of the method `m`. -/
def Event.callback? (m : Fin k) : Event I → Option (List (BitVec 32))
  | .callback m' words => if m' = m then some words else none
  | _ => none

/-- The calls of the method `m` that the hardware has made. -/
def enqueued (m : Fin k) (tr : List (Event I)) : List (BitVec (I.size m).asz) :=
  tr.filterMap (Event.enqueued? m)

/-- The words of the callbacks of the method `m`. -/
def callbacks (m : Fin k) (tr : List (Event I)) : List (List (BitVec 32)) :=
  tr.filterMap (Event.callback? m)

/-- The arguments of a callback with the given words. -/
def arguments (I : IndicationMethods k) (m : Fin k) (words : List (BitVec 32)) : BitVec (I.size m).asz :=
  BitVec.ofNat _ (ofWords words)

/-- The words of a message. -/
def messageWords (I : IndicationMethods k) (m : Fin k) (val : BitVec (I.size m).asz) : List (BitVec 32) :=
  words 32 (nwords 32 (I.size m).asz) val.toNat

/-! ## One method

A run is followed for one method at a time. -/

section Traces

variable (m : Fin k) (tr es : List (Event I))

@[simp] lemma enqueued_append : enqueued m (tr ++ es) = enqueued m tr ++ enqueued m es :=
  List.filterMap_append

@[simp] lemma callbacks_append : callbacks m (tr ++ es) = callbacks m tr ++ callbacks m es :=
  List.filterMap_append

end Traces

/-- Where the thread is with the method `m`, whose messages `queued` are waiting: of the first of them the
words `got` have been read. -/
inductive Position (I : IndicationMethods k) (m : Fin k) :
    Poller k → List (BitVec (I.size m).asz) → List (BitVec 32) → Prop
  | elsewhere {t : Poller k} {queued : List (BitVec (I.size m).asz)}
      (h : ∀ got asked, t ≠ .handler m got asked) : Position I m t queued []
  | reads {x : BitVec (I.size m).asz} {got : List (BitVec 32)} {asked : Bool}
      (h : got <+: messageWords I m x) : Position I m (.handler m got asked) [x] got

/-- The run agrees with the pipe of `m`: the messages `past` have been called back and `queued` are
waiting. -/
structure Waits (m : Fin k) (tr : List (Event I)) (s : Indications I)
    (past queued : List (BitVec (I.size m).asz)) (got : List (BitVec 32)) : Prop where
  position : Position I m s.thread queued got
  enqueued : enqueued m tr = past ++ queued
  callbacks : callbacks m tr = past.map (messageWords I m)
  items : (s.indicationPipes m).fifo.items = queued.map (BitVec.setWidth _)
  sends : (s.indicationPipes m).Sends got.length
  underflow : .underflow m ∉ tr

namespace Waits

variable {m : Fin k} {tr es : List (Event I)} {s s' : Indications I}
  {past queued : List (BitVec (I.size m).asz)} {got : List (BitVec 32)}

lemma reset (m : Fin k) : Waits m [] (Indications.reset I) [] [] [] where
  position := .elsewhere fun _ _ h => by cases h
  enqueued := rfl
  callbacks := rfl
  items := rfl
  sends := ToBit.sends_reset (by decide) (I.size m).sized
  underflow := List.not_mem_nil

/-- **Frame**: what happens elsewhere, as long as the pipe of `m` is as it was. -/
lemma frame (h : Waits m tr s past queued got) (henq : Indications.enqueued m es = [])
    (hcall : Indications.callbacks m es = []) (hunder : .underflow m ∉ es)
    (hpipe : s'.indicationPipes m = s.indicationPipes m) (hpos : Position I m s'.thread queued got) :
    Waits m (tr ++ es) s' past queued got where
  position := hpos
  enqueued := by rw [enqueued_append, henq, List.append_nil, h.enqueued]
  callbacks := by rw [callbacks_append, hcall, List.append_nil, h.callbacks]
  items := by rw [hpipe, h.items]
  sends := by
    rw [hpipe]
    exact h.sends
  underflow hmem := (List.mem_append.mp hmem).elim h.underflow hunder

/-- Only the thread has moved, without an event. -/
lemma move (h : Waits m tr s past queued got) (hpipes : s'.indicationPipes = s.indicationPipes)
    (hpos : Position I m s'.thread queued got) : Waits m (tr ++ []) s' past queued got :=
  h.frame rfl rfl List.not_mem_nil (congrFun hpipes m) hpos

/-- The thread was elsewhere. -/
lemma got_eq_nil (h : Waits m tr s past queued got) (ht : ∀ got asked, s.thread ≠ .handler m got asked) :
    got = [] := by
  obtain ⟨thread, ctrlPort, indicationPipes⟩ := s
  have hpos := h.position
  cases hpos with
  | elsewhere _ => rfl
  | reads _ => exact absurd rfl (ht _ _)

/-- The hardware calls a method. -/
lemma enq (h : Waits m tr s past queued got) {m' : Fin k} {val : BitVec (I.size m').asz}
    {pipe : ToBit 32 (I.size m').asz} (hpipe : (s.indicationPipes m').enq val = some pipe) :
    ∃ queued', Waits m (tr ++ [Event.enqueued m' val])
      { s with indicationPipes := Function.update s.indicationPipes m' pipe } past queued' got := by
  rcases eq_or_ne m' m with rfl | hne
  · obtain ⟨hnil, hitems, hsends⟩ := h.sends.enq hpipe
    have hqueued : queued = [] := List.map_eq_nil_iff.mp (h.items.symm.trans hnil)
    subst hqueued
    refine ⟨[val], ⟨?_, ?_, ?_, ?_, ?_, ?_⟩⟩
    · have hpos := h.position
      obtain ⟨thread, ctrlPort, indicationPipes⟩ := s
      cases hpos with
      | elsewhere ht => exact .elsewhere ht
    · rw [enqueued_append, h.enqueued, List.append_nil]
      simp [Indications.enqueued, Event.enqueued?]
    · rw [callbacks_append, h.callbacks]
      exact List.append_nil _
    · simpa using hitems
    · simpa using hsends
    · intro hmem
      rcases List.mem_append.mp hmem with hmem | hmem
      · exact h.underflow hmem
      · cases List.mem_singleton.mp hmem
  · refine ⟨queued, h.frame ?_ rfl ?_ (Function.update_of_ne hne.symm _ _) h.position⟩
    · simp [Indications.enqueued, Event.enqueued?, hne]
    · intro hmem
      cases List.mem_singleton.mp hmem

/-- The thread has read the queue status: it goes to the handler of a method that has a message. -/
lemma gotStatus (h : Waits m tr s past queued got) (ht : s.thread = .status true) (tag : BitVec 6)
    (last : Bool) :
    Waits m (tr ++ []) { s with
      thread := Poller.gotStatus k (s.ctrlPort.readData s.readyBits ⟨0x018, tag, last⟩) } past queued got := by
  have hgot := h.got_eq_nil fun _ _ he => by rw [ht] at he; cases he
  subst hgot
  refine h.move rfl ?_
  simp only [Poller.gotStatus]
  split
  · exact .elsewhere fun _ _ he => by cases he
  · rename_i hv
    obtain h0 | ⟨c, hc, heq⟩ := s.ctrlPort.readData_queueStatus s.readyBits tag last
    · exact absurd h0 hv
    · have hnat : (BitVec.ofNat 32 c + 1 - 1).toNat = c := by
        rw [BitVec.add_sub_cancel, BitVec.toNat_ofNat]
        exact Nat.mod_eq_of_lt (Nat.lt_of_lt_of_le c.isLt I.numbered)
      rw [heq]
      split
      · rename_i hlt
        have hchannel : (⟨(BitVec.ofNat 32 c + 1 - 1).toNat, hlt⟩ : Fin k) = c := Fin.ext hnat
        rw [hchannel]
        rcases eq_or_ne c m with rfl | hne
        · -- the pipe of the channel holds a message
          have hitems := h.items
          have hlen := (s.indicationPipes c).fifo.length_le
          match queued with
          | [] =>
            simp [readyBits, ToBit.notEmpty, hitems] at hc
          | [x] => exact .reads (List.nil_prefix)
          | x :: y :: rest =>
            rw [hitems] at hlen
            simp at hlen
        · refine .elsewhere fun _ _ he => hne ?_
          cases he
          rfl
      · exact .elsewhere fun _ _ he => by cases he

/-- The next word of the message whose words are being read. -/
lemma readData (h : Waits m tr s past queued got) (hsize : (I.size m).asz ≤ 2 ^ 32)
    {x : BitVec (I.size m).asz} (hx : queued = [x]) (hgot : got <+: messageWords I m x) {b : AddrBeat}
    (hb : b.addr = 0) {v : BitVec 32} {pipe : ToBit 32 (I.size m).asz}
    (hread : PipeOut.readData (s.indicationPipes m) b = some (v, pipe)) :
    got ++ [v] <+: messageWords I m x ∧
      ((got.length + 1 = nwords 32 (I.size m).asz ∧ pipe.fifo.items = [] ∧ pipe.Sends 0) ∨
        (got.length + 1 < nwords 32 (I.size m).asz ∧ pipe.fifo = (s.indicationPipes m).fifo ∧
          pipe.Sends (got.length + 1))) := by
  subst hx
  have hm : nwords 32 (I.size m).asz ≤ 2 ^ 32 := (I.size m).counted.le
  have hw : (nwords 32 (I.size m).asz - 1) * 32 < 2 ^ 32 := by
    unfold nwords
    omega
  simp only [PipeOut.readData, hb, if_true, bind, pure, Option.bind_eq_some_iff, Option.some.injEq,
    Prod.mk.injEq] at hread
  obtain ⟨v', hfirst, pipe', hdeq, rfl, rfl⟩ := hread
  obtain ⟨-, -, hsent⟩ := h.sends.deq hm hdeq
  refine ⟨?_, hsent⟩
  rw [h.sends.first hw h.items, Option.some.injEq] at hfirst
  have hpow : 2 ^ (I.size m).asz ≤ 2 ^ aszn 32 (I.size m).asz :=
    Nat.pow_le_pow_right (by decide) (le_aszn (by decide))
  have hnat : (x.setWidth (aszn 32 (I.size m).asz)).toNat = x.toNat := by
    rw [BitVec.toNat_setWidth, Nat.mod_eq_of_lt (Nat.lt_of_lt_of_le x.isLt hpow)]
  have hlt : got.length < (messageWords I m x).length := by
    rw [messageWords, length_words]
    exact h.sends.lt
  have hword : (messageWords I m x)[got.length] = v' := by
    rw [← hfirst, hnat]
    exact getElem_words hlt
  have hconcat := List.concat_get_prefix hgot hlt
  rwa [List.get_eq_getElem, hword] at hconcat

/-- The handler has read a word. -/
lemma gotWord (h : Waits m tr s past queued got) (hsize : ∀ m, (I.size m).asz ≤ 2 ^ 32) {c : Fin k}
    {words : List (BitVec 32)} (ht : s.thread = .handler c words true) {b : AddrBeat} (hb : b.addr = 0)
    {v : BitVec 32} {pipe : ToBit 32 (I.size c).asz}
    (hread : PipeOut.readData (s.indicationPipes c) b = some (v, pipe)) :
    ∃ past' queued' got', Waits m (tr ++ (Poller.gotWord I c (words ++ [v])).2)
      { s with
        thread := (Poller.gotWord I c (words ++ [v])).1
        indicationPipes := Function.update s.indicationPipes c pipe } past' queued' got' := by
  have hlen : (words ++ [v]).length = words.length + 1 := by rw [List.length_append, List.length_singleton]
  rcases eq_or_ne c m with rfl | hne
  · have hpos := h.position
    rw [ht] at hpos
    cases hpos with
    | elsewhere ht => exact absurd rfl (ht _ _)
    | @reads x _ _ hgot =>
      obtain ⟨hnext, ⟨hlast, hnil, hsends⟩ | ⟨hlt, hfifo, hsends⟩⟩ := h.readData (hsize c) rfl hgot hb hread
      · -- the last word: the message leaves the pipe
        rw [Poller.gotWord, if_pos (hlen.trans hlast)]
        have hwhole : got ++ [v] = messageWords I c x :=
          hnext.eq_of_length (by rw [hlen, hlast, messageWords, length_words])
        refine ⟨past ++ [x], [], [], ⟨.elsewhere (fun _ _ he => by cases he), ?_, ?_, ?_, ?_, ?_⟩⟩
        · rw [enqueued_append, h.enqueued]
          simp [Indications.enqueued, Event.enqueued?]
        · rw [callbacks_append, h.callbacks, hwhole]
          simp [Indications.callbacks, Event.callback?]
        · simpa using hnil
        · simpa using hsends
        · intro hmem
          rcases List.mem_append.mp hmem with hmem | hmem
          · exact h.underflow hmem
          · cases List.mem_singleton.mp hmem
      · rw [Poller.gotWord, if_neg (by omega)]
        refine ⟨past, [x], got ++ [v], ⟨.reads hnext, ?_, ?_, ?_, ?_, ?_⟩⟩
        · rw [List.append_nil, h.enqueued]
        · rw [List.append_nil, h.callbacks]
        · show (Function.update s.indicationPipes c pipe c).fifo.items = _
          rw [Function.update_self, hfifo, h.items]
        · show (Function.update s.indicationPipes c pipe c).Sends _
          rw [Function.update_self, hlen]
          exact hsends
        · rw [List.append_nil]
          exact h.underflow
  · have hgot := h.got_eq_nil fun _ _ he => by
      rw [ht] at he
      cases he
      exact hne rfl
    subst hgot
    refine ⟨past, queued, [], h.frame ?_ ?_ ?_ (Function.update_of_ne hne.symm _ _) ?_⟩
    · unfold Poller.gotWord
      split <;> rfl
    · unfold Poller.gotWord
      split <;> simp [Indications.callbacks, Event.callback?, hne]
    · unfold Poller.gotWord
      split <;> simp
    · unfold Poller.gotWord
      refine .elsewhere fun _ _ => ?_
      split <;> simp [hne]

/-- **One step.** -/
lemma step (h : Waits m tr s past queued got) (hsize : ∀ m, (I.size m).asz ≤ 2 ^ 32) {a : Action I}
    (hs : (indications I).step s a = some (s', es)) :
    ∃ past' queued' got', Waits m (tr ++ es) s' past' queued' got' := by
  cases a with
  | event =>
    simp only [indications] at hs
    split at hs <;> simp only [Option.some.injEq, Prod.mk.injEq, reduceCtorEq] at hs
    rename_i ht
    obtain ⟨rfl, rfl⟩ := hs
    have hgot := h.got_eq_nil fun _ _ he => by rw [ht] at he; cases he
    subst hgot
    exact ⟨past, queued, [], h.move rfl (.elsewhere fun _ _ he => by cases he)⟩
  | readReq =>
    simp only [indications] at hs
    split at hs <;> simp only [Option.some.injEq, Prod.mk.injEq, reduceCtorEq] at hs
    · rename_i ht
      obtain ⟨rfl, rfl⟩ := hs
      have hgot := h.got_eq_nil fun _ _ he => by rw [ht] at he; cases he
      subst hgot
      exact ⟨past, queued, [], h.move rfl (.elsewhere fun _ _ he => by cases he)⟩
    · rename_i c words ht
      obtain ⟨rfl, rfl⟩ := hs
      have hpos := h.position
      rw [ht] at hpos
      rcases eq_or_ne c m with rfl | hne
      · cases hpos with
        | elsewhere ht => exact absurd rfl (ht _ _)
        | reads hgot =>
          -- the message is still there
          have hready : (s.indicationPipes c).notEmpty = true := by
            simp [ToBit.notEmpty, h.items]
          rw [if_pos hready]
          exact ⟨past, _, got, h.move rfl (.reads hgot)⟩
      · have hgot := h.got_eq_nil fun _ _ he => by
          rw [ht] at he
          cases he
          exact hne rfl
        subst hgot
        refine ⟨past, queued, [], h.frame ?_ ?_ ?_ rfl (.elsewhere fun _ _ he => by cases he; exact hne rfl)⟩
        · split <;> rfl
        · split <;> rfl
        · split
          · exact List.not_mem_nil
          · intro hmem
            cases List.mem_singleton.mp hmem
            exact hne rfl
  | readData tag last =>
    simp only [indications] at hs
    split at hs
    · rename_i ht
      simp only [Option.some.injEq, Prod.mk.injEq] at hs
      obtain ⟨rfl, rfl⟩ := hs
      exact ⟨past, queued, got, h.gotStatus ht tag last⟩
    · rename_i c words ht
      simp only [bind, pure, Option.bind_eq_some_iff, Prod.exists, Option.some.injEq, Prod.mk.injEq] at hs
      obtain ⟨v, pipe, hread, rfl, rfl⟩ := hs
      exact h.gotWord hsize ht rfl hread
    · cases hs
  | write tag last =>
    simp only [indications] at hs
    split at hs <;> simp only [bind, pure, Option.bind_eq_some_iff, Option.some.injEq, Prod.mk.injEq,
      reduceCtorEq] at hs
    rename_i ht
    obtain ⟨ctrlPort, -, rfl, rfl⟩ := hs
    have hgot := h.got_eq_nil fun _ _ he => by rw [ht] at he; cases he
    subst hgot
    exact ⟨past, queued, [], h.move rfl (.elsewhere fun _ _ he => by cases he)⟩
  | writeDone =>
    simp only [indications, bind, pure, Option.bind_eq_some_iff, Prod.exists, Option.some.injEq,
      Prod.mk.injEq] at hs
    obtain ⟨-, fifo, -, rfl, rfl⟩ := hs
    exact ⟨past, queued, got, h.move rfl h.position⟩
  | enq m' val =>
    simp only [indications, bind, pure, Option.bind_eq_some_iff, Option.some.injEq, Prod.mk.injEq] at hs
    obtain ⟨pipe, hpipe, rfl, rfl⟩ := hs
    obtain ⟨queued', h'⟩ := h.enq hpipe
    exact ⟨past, queued', got, h'⟩

end Waits

/-- The arguments of the words of a message are the message. -/
lemma arguments_messageWords (m : Fin k) (val : BitVec (I.size m).asz) :
    arguments I m (messageWords I m val) = val := by
  have hle : val.toNat < 2 ^ aszn 32 (I.size m).asz :=
    Nat.lt_of_lt_of_le val.isLt (Nat.pow_le_pow_right (by decide) (le_aszn (by decide)))
  rw [arguments, messageWords, ofWords_words, Nat.mod_eq_of_lt hle, BitVec.ofNat_toNat, BitVec.setWidth_eq]

/-- The indications of the method `m` are delivered. -/
structure Delivers (m : Fin k) (tr : List (Event I)) (s : Indications I) : Prop where
  /-- The callbacks are the first calls of the hardware, with the same arguments. -/
  callbacks : (callbacks m tr).map (arguments I m) <+: enqueued m tr
  /-- The words of each callback are those of one message. -/
  words : Indications.callbacks m tr <+: (enqueued m tr).map (messageWords I m)
  /-- No word is asked for while there is none. -/
  underflow : .underflow m ∉ tr
  /-- While a message is read the pipe is not empty, and the words read so far are the first of the message
  that is called back next. -/
  handler : ∀ got asked, s.thread = .handler m got asked → (s.indicationPipes m).notEmpty = true ∧
    ∃ val, (Indications.callbacks m tr).map (arguments I m) ++ [val] <+: enqueued m tr ∧
      got <+: messageWords I m val

lemma Waits.delivers {m : Fin k} {tr : List (Event I)} {s : Indications I}
    {past queued : List (BitVec (I.size m).asz)} {got : List (BitVec 32)} (h : Waits m tr s past queued got) :
    Delivers m tr s := by
  have hargs : (Indications.callbacks m tr).map (arguments I m) = past := by
    rw [h.callbacks, List.map_map]
    exact List.map_id'' (arguments_messageWords m) past
  refine ⟨?_, ?_, h.underflow, fun got' asked ht => ?_⟩
  · rw [hargs, h.enqueued]
    exact List.prefix_append _ _
  · rw [h.callbacks, h.enqueued, List.map_append]
    exact List.prefix_append _ _
  · have hpos := h.position
    rw [ht] at hpos
    cases hpos with
    | elsewhere hne => exact absurd rfl (hne _ _)
    | @reads x _ _ hgot =>
      refine ⟨by simp [ToBit.notEmpty, h.items], x, ?_, hgot⟩
      rw [hargs, h.enqueued]

end Indications

open Indications

/-- **Delivery.** For messages of at most 2 ^ 32 bits, the callbacks of each method are the first calls that
the hardware has made of it, in order and with the same arguments; no word is read from an empty pipe, and
the words of a callback are those of one message.

**Proof sketch.** The queue status names a method whose pipe is not empty (`readData_queueStatus`). The
message stays in the pipe until its last word has been taken, and only the handler takes words, so each word
the handler reads is the next one of this message (`Waits.readData`). -/
theorem indications_delivered (hsize : ∀ m, (I.size m).asz ≤ 2 ^ 32) {tr : List (Indications.Event I)}
    {s : Indications I} (h : (indications I).Reaches (Indications.reset I) tr s) (m : Fin k) :
    Delivers m tr s := by
  have hwaits : ∃ past queued got, Waits m tr s past queued got := by
    refine h.invariant (I := fun tr s => ∃ past queued got, Waits m tr s past queued got)
      ⟨[], [], [], Waits.reset m⟩ ?_
    rintro tr s a s' es ⟨past, queued, got, hw⟩ hs
    exact hw.step hsize hs
  obtain ⟨past, queued, got, hw⟩ := hwaits
  exact hw.delivers

/-- Two methods, with messages of one word and of two. -/
def twoIndications : IndicationMethods 2 where
  size := fun m => if m = 0 then ⟨17, by decide, by decide⟩ else ⟨40, by decide, by decide⟩
  numbered := by decide

/-- The thread reads a register or a word. -/
def readBus : List (Indications.Action twoIndications) := [.readReq, .readData 0 true]

/-- The hardware calls the first method while a message of the second is read, and calls the second again
before the first is read. -/
def overtaken :=
  (indications twoIndications).run (Indications.reset twoIndications)
    ([.enq 1 0x1200000034, .event] ++ readBus ++ readBus ++ [.enq 0 5] ++ readBus ++ [.enq 1 0x5600000078] ++
      readBus ++ readBus ++ readBus ++ readBus ++ readBus ++ readBus ++ [.write 0 true, .writeDone])

theorem indications_delivered_overtaken :
    callbacks 0 overtaken.2 = [[5]] ∧ callbacks 1 overtaken.2 = [[0x12, 0x34], [0x56, 0x78]] ∧
      ∀ m, Delivers m overtaken.2 overtaken.1 :=
  ⟨by decide +kernel, by decide +kernel, fun m =>
    indications_delivered (by decide) (RuleSystem.reaches_run _ _) m⟩

/-! ## Large messages

A message of one word more than 2 ^ 32 bits: the distance of its last word is computed as 0, so its first
word is read in place of the last one. -/

namespace Indications

/-- The handler of `c` reads a word of the message that is waiting. -/
lemma reaches_gotWord {tr : List (Event I)} {s : Indications I} {c : Fin k} {got : List (BitVec 32)}
    (h : (indications I).Reaches (reset I) tr s) (ht : s.thread = .handler c got false)
    {x : BitVec (aszn 32 (I.size c).asz)} (hx : (s.indicationPipes c).fifo.items = [x])
    (hsends : (s.indicationPipes c).Sends got.length) {w : BitVec 32}
    (hw : (s.indicationPipes c).first = some w) :
    ∃ s', (indications I).Reaches (reset I) (tr ++ (Poller.gotWord I c (got ++ [w])).2) s' ∧
      s'.thread = (Poller.gotWord I c (got ++ [w])).1 ∧
      (got.length + 1 < nwords 32 (I.size c).asz → (s'.indicationPipes c).fifo.items = [x] ∧
        (s'.indicationPipes c).Sends (got ++ [w]).length) := by
  obtain ⟨thread, ctrlPort, indicationPipes⟩ := s
  simp only at ht hx hsends hw
  subst ht
  obtain ⟨pipe, hdeq⟩ := ToBit.exists_deq hx
  obtain ⟨-, -, hsent⟩ := hsends.deq (I.size c).counted.le hdeq
  have hready : (indicationPipes c).notEmpty = true := by simp [ToBit.notEmpty, hx]
  have hreq : (indications I).step ⟨.handler c got false, ctrlPort, indicationPipes⟩ .readReq =
      some (⟨.handler c got true, ctrlPort, indicationPipes⟩, []) := by
    simp [indications, hready]
  have hdata : (indications I).step ⟨.handler c got true, ctrlPort, indicationPipes⟩ (.readData 0 true) =
      some (⟨(Poller.gotWord I c (got ++ [w])).1, ctrlPort, Function.update indicationPipes c pipe⟩,
        (Poller.gotWord I c (got ++ [w])).2) := by
    simp [indications, PipeOut.readData, hw, hdeq]
  have hreach := (h.step _ hreq).step _ hdata
  rw [List.append_nil] at hreach
  refine ⟨_, hreach, rfl, fun hlt => ?_⟩
  obtain ⟨hlast, -⟩ | ⟨-, hfifo, hsends'⟩ := hsent
  · omega
  · simp only [Function.update_self]
    rw [hfifo, List.length_append, List.length_singleton]
    exact ⟨hx, hsends'⟩

/-- All words of a message but the last can be read. -/
lemma reaches_gotWords {tr : List (Event I)} {s : Indications I} {c : Fin k}
    (h : (indications I).Reaches (reset I) tr s) (ht : s.thread = .handler c [] false)
    {x : BitVec (aszn 32 (I.size c).asz)} (hx : (s.indicationPipes c).fifo.items = [x])
    (hsends : (s.indicationPipes c).Sends 0) (j : ℕ) (hj : j < nwords 32 (I.size c).asz) :
    ∃ s' got, (indications I).Reaches (reset I) tr s' ∧ s'.thread = .handler c got false ∧ got.length = j ∧
      (s'.indicationPipes c).fifo.items = [x] ∧ (s'.indicationPipes c).Sends j := by
  induction j with
  | zero => exact ⟨s, [], h, ht, rfl, hx, hsends⟩
  | succ j ih =>
    obtain ⟨s₁, got, hreach, hthread, rfl, hitems, hsends₁⟩ := ih (by omega)
    have hfirst : ∃ w, (s₁.indicationPipes c).first = some w := by
      have hf : (s₁.indicationPipes c).fifo.first = some x := Fifo.first_eq_some.mpr ⟨[], hitems⟩
      simp only [ToBit.first, hf, bind, pure, Option.bind_some]
      exact ⟨_, rfl⟩
    obtain ⟨w, hw⟩ := hfirst
    obtain ⟨s₂, hreach₂, hthread₂, hrest⟩ := reaches_gotWord hreach hthread hitems hsends₁ hw
    have hlen : (got ++ [w]).length = got.length + 1 := by rw [List.length_append, List.length_singleton]
    rw [Poller.gotWord, if_neg (by omega)] at hreach₂ hthread₂
    obtain ⟨hitems₂, hsends₂⟩ := hrest hj
    rw [List.append_nil] at hreach₂
    rw [hlen] at hsends₂
    exact ⟨s₂, got ++ [w], hreach₂, hthread₂, hlen, hitems₂, hsends₂⟩

lemma sized_large (e : ℕ) : 1 ≤ 32 * (2 ^ e + 1) := by
  have hpow := Nat.two_pow_pos e
  omega

lemma counted_large {e : ℕ} (he : e < 32) : nwords 32 (32 * (2 ^ e + 1)) < 2 ^ 32 := by
  have hpow : 2 ^ e ≤ 2 ^ 31 := Nat.pow_le_pow_right (by decide) (by omega)
  unfold nwords
  omega

/-- One method, with messages of `2 ^ e + 1` words. -/
def largeIndication (e : ℕ) (he : e < 32) : IndicationMethods 1 where
  size _ := {
    asz := 32 * (2 ^ e + 1)
    sized := sized_large e
    counted := counted_large he }
  numbered := by decide

/-- The hardware calls a method and the thread goes to its handler. -/
lemma reaches_handler {e : ℕ} (he : e < 32) (val : BitVec ((largeIndication e he).size 0).asz) :
    ∃ s, (indications (largeIndication e he)).Reaches (reset _) [.enqueued 0 val] s ∧
      s.thread = .handler 0 [] false ∧ (s.indicationPipes 0).fifo.items = [val.setWidth _] ∧
      (s.indicationPipes 0).Sends 0 := by
  have hreset := ToBit.sends_reset (n := 32) (by decide) ((largeIndication e he).size 0).sized
  obtain ⟨fifo, henq, -⟩ := Fifo.exists_enq (q := (.empty : Fifo 1 (BitVec (aszn 32 _)))) Nat.zero_lt_one
    (val.setWidth (aszn 32 ((largeIndication e he).size 0).asz))
  have henq' : (ToBit.reset 32 ((largeIndication e he).size 0).asz).enq val = some ⟨fifo, 0⟩ := by
    simp only [ToBit.enq, ToBit.reset, henq, bind, pure, Option.bind_some]
  obtain ⟨-, hitems, hsends⟩ := hreset.enq henq'
  let pipes := Function.update (Indications.reset (largeIndication e he)).indicationPipes 0 ⟨fifo, 0⟩
  have hready : readyBits (I := largeIndication e he) ⟨.status true, .reset, pipes⟩ = fun _ => true := by
    funext m
    obtain rfl : m = 0 := Subsingleton.elim _ _
    simp only [readyBits, pipes, Function.update_self, ToBit.notEmpty]
    rw [hitems]
    rfl
  have hcall : (indications (largeIndication e he)).step (reset _) (.enq 0 val) =
      some (⟨.idle, .reset, pipes⟩, [.enqueued 0 val]) := by
    simp only [indications, Indications.reset, henq', bind, pure, Option.bind_some]
    rfl
  have hstatus : (indications (largeIndication e he)).step ⟨.status true, .reset, pipes⟩ (.readData 0 true) =
      some (⟨.handler 0 [] false, .reset, pipes⟩, []) := by
    simp only [indications]
    rw [hready]
    rfl
  have hreach := (((RuleSystem.Reaches.single _ hcall).step .event rfl).step .readReq rfl).step _ hstatus
  refine ⟨_, hreach, rfl, ?_, ?_⟩
  · simp only [pipes, Function.update_self]
    exact hitems
  · simp only [pipes, Function.update_self]
    exact hsends

/-- With `2 ^ 27 + 1` words the message 1 is called back with another value. -/
lemma exists_wrong_callback {e : ℕ} (he : e = 27) (hlt : e < 32) :
    ∃ tr s, (indications (largeIndication e hlt)).Reaches (reset _) tr s ∧
      enqueued (I := largeIndication e hlt) 0 tr = [1] ∧ ∃ words,
        callbacks (I := largeIndication e hlt) 0 tr = [words] ∧
        arguments (largeIndication e hlt) 0 words ≠ 1 := by
  have hwords : nwords 32 ((largeIndication e hlt).size 0).asz = 2 ^ e + 1 := by
    show nwords 32 (32 * (2 ^ e + 1)) = _
    unfold nwords
    omega
  obtain ⟨s, hreach, ht, hitems, hsends⟩ := reaches_handler hlt 1
  -- all words but the last
  obtain ⟨s₁, got, hreach₁, ht₁, hlen₁, hitems₁, hsends₁⟩ :=
    reaches_gotWords hreach ht hitems hsends (2 ^ e) (by omega)
  have hfirst := hsends₁.first_of_zero (by rw [he]; decide) hitems₁
  have hzero : (BitVec.setWidth (aszn 32 ((largeIndication e hlt).size 0).asz)
      (1 : BitVec ((largeIndication e hlt).size 0).asz)).toNat /
        2 ^ (aszn 32 ((largeIndication e hlt).size 0).asz - 32) = 0 := by
    have hpow := Nat.two_pow_pos e
    refine Nat.div_eq_of_lt (Nat.lt_of_le_of_lt (m := 1) ?_ (Nat.one_lt_two_pow ?_))
    · rw [BitVec.toNat_setWidth]
      refine (Nat.mod_le _ _).trans ?_
      show 1 % 2 ^ _ ≤ 1
      exact Nat.mod_le _ _
    · rw [aszn, hwords]
      omega
  rw [hzero] at hfirst
  rw [← hlen₁] at hsends₁
  obtain ⟨s₂, hreach₂, -, -⟩ := reaches_gotWord hreach₁ ht₁ hitems₁ hsends₁ hfirst
  have hlast : (got ++ [BitVec.ofNat 32 0]).length = nwords 32 ((largeIndication e hlt).size 0).asz := by
    rw [List.length_append, List.length_singleton, hlen₁, hwords]
  rw [Poller.gotWord, if_pos hlast] at hreach₂
  refine ⟨_, s₂, hreach₂, rfl, _, rfl, fun heq => ?_⟩
  -- the last word is even, and 1 is not
  have hdvd : 2 ∣ 2 ^ ((largeIndication e hlt).size 0).asz :=
    dvd_pow_self 2 (Nat.ne_of_gt ((largeIndication e hlt).size 0).sized)
  have heven : ofWords (got ++ [BitVec.ofNat 32 0]) % 2 = 0 := by
    rw [ofWords_concat, BitVec.toNat_ofNat]
    omega
  have hodd : (arguments (largeIndication e hlt) 0 (got ++ [BitVec.ofNat 32 0])).toNat % 2 =
      (BitVec.ofNat ((largeIndication e hlt).size 0).asz 1).toNat % 2 := congrArg (fun v => v.toNat % 2) heq
  rw [arguments, BitVec.toNat_ofNat, BitVec.toNat_ofNat, Nat.mod_mod_of_dvd _ hdvd, Nat.mod_mod_of_dvd _ hdvd,
    heven] at hodd
  cases hodd

end Indications

open Indications

theorem not_delivered_largeIndication :
    ¬ ∀ {k : ℕ} {I : IndicationMethods k} {tr : List (Indications.Event I)} {s : Indications I},
      (indications I).Reaches (Indications.reset I) tr s →
        ∀ m, (callbacks m tr).map (arguments I m) <+: enqueued m tr := by
  intro h
  obtain ⟨tr, s, hreach, henq, words, hcall, hne⟩ := exists_wrong_callback (e := 27) rfl (by decide)
  have hprefix := h hreach 0
  rw [henq, hcall, List.map_singleton] at hprefix
  exact hne (List.cons_prefix_cons.mp hprefix).1

end Xbsv
