import Mathlib.Logic.Function.Basic
import Xbsv.Portal.Adapter
import Xbsv.Rules.System

set_option relaxedAutoImplicit false
set_option autoImplicit false

/-!
# Requests through a portal

A proxy is a thread that calls the methods of a portal. A call asks whether the queue of the method has room,
at most 51 times, and then writes the words of the request. The slave of the method passes a word on to
`mkFromBit` if the queue of requests is empty at this moment, and otherwise discards it. The hardware takes
requests from the queue.

## Main definitions

* `Xbsv.PipeIn` — the slave of a method, `mkPipeInMemSlave`.
* `Xbsv.portal` — the thread, the slaves and the hardware, as a system.
* `Xbsv.Portal.sent`, `Xbsv.Portal.dequeued` — the requests that were sent and taken.

## Main results

* `Xbsv.portal_delivers` — no word is discarded and no request is lost when every call has found room.
* `Xbsv.portal_frames` — requests may be lost, but not mixed, when none is taken within a call.
-/

namespace Xbsv

open Rules Bits

/-- The struct of a request for which there is a `mkFromBit`: it has bits, and its words can be counted. -/
structure RequestSize where
  asz : ℕ
  sized : 1 ≤ asz
  counted : nwords 32 asz < 2 ^ 32

/-- What an address generator gives for a single access. -/
structure AddrBeat where
  addr : BitVec 8
  tag : BitVec 6
  last : Bool

/-- The state of `mkPipeInMemSlave`, with the `mkFromBit` that it writes to. -/
structure PipeIn (asz : ℕ) where
  methodPipe : FromBit 32 asz
  fifoWriteDoneFifo : Fifo 2 (BitVec 6)

namespace PipeIn

variable {asz : ℕ}

/-- The state after reset. -/
def reset (asz : ℕ) : PipeIn asz := ⟨.reset 32 asz, .empty⟩

/-- `readData`: at 4 stands whether there is room. -/
def readData (s : PipeIn asz) (b : AddrBeat) : BitVec 32 :=
  if b.addr = 4 then (if s.methodPipe.notFull then 1 else 0) else 0

/-- A word is passed on if there is room at this moment. -/
def pass (s : FromBit 32 asz) (d : BitVec 32) : Option (FromBit 32 asz) :=
  if s.notFull then s.enq d else some s

/-- `writeData`. -/
def writeData (s : PipeIn asz) (b : AddrBeat) (d : BitVec 32) : Option (PipeIn asz) := do
  let fifoWriteDoneFifo ← s.fifoWriteDoneFifo.enqIf b.last b.tag
  let methodPipe ← pass s.methodPipe d
  return ⟨methodPipe, fifoWriteDoneFifo⟩

end PipeIn

/-- What the thread is doing. -/
inductive Thread (k : ℕ) where
  /-- Nothing. -/
  | idle
  /-- It is asking for room; `i` is the counter of the loop. -/
  | polling (m : Fin k) (call : List (BitVec 32)) (i : ℕ)
  /-- It is writing the words of a call, of which `rest` are left. -/
  | writing (m : Fin k) (call rest : List (BitVec 32))
  deriving DecidableEq

/-- The thread and the slaves of a portal with `k` methods. -/
structure Portal {k : ℕ} (sz : Fin k → RequestSize) where
  thread : Thread k
  methods : (m : Fin k) → PipeIn (sz m).asz

namespace Portal

variable {k : ℕ} {sz : Fin k → RequestSize}

/-- What can happen. -/
inductive Action (k : ℕ) where
  /-- A method is called with arguments that make up these words. -/
  | call (m : Fin k) (words : List (BitVec 32))
  /-- The thread reads whether there is room. -/
  | poll (tag : BitVec 6) (last : Bool)
  /-- The thread writes a word. -/
  | write (tag : BitVec 6) (last : Bool)
  /-- The answer to a write is fetched. -/
  | writeDone (m : Fin k)
  /-- The hardware takes a request. -/
  | deq (m : Fin k)

/-- What can be seen of a run. -/
inductive Event (sz : Fin k → RequestSize) where
  | called (m : Fin k) (words : List (BitVec 32))
  /-- The busy wait has ended while there was no room. -/
  | gaveUp (m : Fin k)
  | kept (m : Fin k) (x : BitVec 32)
  | discarded (m : Fin k) (x : BitVec 32)
  | dequeued (m : Fin k) (val : BitVec (sz m).asz)
  deriving DecidableEq

/-- The state after reset. -/
def reset (sz : Fin k → RequestSize) : Portal sz := ⟨.idle, fun m => .reset (sz m).asz⟩

/-- The request that the words of a call make up. -/
def request (sz : Fin k → RequestSize) (m : Fin k) (words : List (BitVec 32)) : BitVec (sz m).asz :=
  BitVec.ofNat _ (ofWords words)

/-- The thread after it has read whether there is room: `while (!READL(..) && i-- > 0)`. -/
def Thread.polled (m : Fin k) (call : List (BitVec 32)) (i : ℕ) (v : BitVec 32) : Thread k :=
  if v ≠ 0 then .writing m call call
  else if i > 0 then .polling m call (i - 1)
  else .writing m call call

/-- The thread goes on asking as long as there is no room and the counter has not run out. -/
lemma Thread.polled_eq (m : Fin k) (call : List (BitVec 32)) (i : ℕ) (v : BitVec 32) :
    (v = 0 ∧ 0 < i ∧ polled m call i v = .polling m call (i - 1)) ∨
      ((v ≠ 0 ∨ i = 0) ∧ polled m call i v = .writing m call call) := by
  unfold polled
  by_cases hv : v = 0
  · rw [if_neg (not_not.mpr hv)]
    rcases Nat.eq_zero_or_pos i with rfl | hi
    · exact .inr ⟨.inr rfl, rfl⟩
    · exact .inl ⟨hv, hi, if_pos hi⟩
  · exact .inr ⟨.inl hv, if_pos hv⟩

/-- The thread after it has written a word. -/
def Thread.written (m : Fin k) (call : List (BitVec 32)) : List (BitVec 32) → Thread k
  | [] => .idle
  | rest => .writing m call rest

end Portal

open Portal

variable {k : ℕ} {sz : Fin k → RequestSize}

/-- The system. -/
def portal (sz : Fin k → RequestSize) : RuleSystem (Portal sz) (Portal.Action k) (Portal.Event sz) where
  step s
    | .call m words =>
      match s.thread with
      | .idle =>
        if words.length = nwords 32 (sz m).asz then
          some ({ s with thread := .polling m words 50 }, [.called m words])
        else none
      | _ => none
    | .poll tag last =>
      match s.thread with
      | .polling m call i =>
        let v := (s.methods m).readData ⟨4, tag, last⟩
        some ({ s with thread := Thread.polled m call i v }, if v = 0 ∧ i = 0 then [.gaveUp m] else [])
      | _ => none
    | .write tag last =>
      match s.thread with
      | .writing m call (x :: rest) => do
        let slave ← (s.methods m).writeData ⟨0, tag, last⟩ x
        return (⟨Thread.written m call rest, Function.update s.methods m slave⟩,
          [if (s.methods m).methodPipe.notFull then .kept m x else .discarded m x])
      | _ => none
    | .writeDone m => do
      let (_, fifoWriteDoneFifo) ← (s.methods m).fifoWriteDoneFifo.deq
      return ({ s with methods := Function.update s.methods m { s.methods m with fifoWriteDoneFifo } }, [])
    | .deq m => do
      let (val, methodPipe) ← (s.methods m).methodPipe.deq
      return ({ s with methods := Function.update s.methods m { s.methods m with methodPipe } },
        [.dequeued m val])

namespace Portal

/-- The request of an event that is a call of the method `m`. -/
def Event.sent? (m : Fin k) : Event sz → Option (BitVec (sz m).asz)
  | .called m' words => if m' = m then some (request sz m words) else none
  | _ => none

/-- The request of an event that is a request of the method `m` being taken. -/
def Event.dequeued? (m : Fin k) : Event sz → Option (BitVec (sz m).asz)
  | .dequeued m' val => if h : m' = m then some (h ▸ val) else none
  | _ => none

/-- The requests of the method `m` that were sent. -/
def sent (m : Fin k) (tr : List (Event sz)) : List (BitVec (sz m).asz) := tr.filterMap (Event.sent? m)

/-- The requests of the method `m` that the hardware has taken. -/
def dequeued (m : Fin k) (tr : List (Event sz)) : List (BitVec (sz m).asz) :=
  tr.filterMap (Event.dequeued? m)

/-! ## One method

A run is followed for one method at a time. -/

/-- The method an event is about. -/
def Event.method : Event sz → Fin k
  | .called m _ => m
  | .gaveUp m => m
  | .kept m _ => m
  | .discarded m _ => m
  | .dequeued m _ => m

/-- The thread is writing the words of a call of `m`. -/
def Thread.Writes (m : Fin k) : Thread k → Prop
  | .writing m' _ _ => m' = m
  | _ => False

/-- Where the thread is with the method `m`, whose requests have `n` words: the calls that are not
finished, and the words of the last that have been written. -/
inductive Position (m : Fin k) (n : ℕ) : Thread k → List (List (BitVec 32)) → List (BitVec 32) → Prop
  | idle : Position m n .idle [] []
  | pollsOther {m' : Fin k} {call : List (BitVec 32)} {i : ℕ} (h : m' ≠ m) :
      Position m n (.polling m' call i) [] []
  | writesOther {m' : Fin k} {call rest : List (BitVec 32)} (h : m' ≠ m) :
      Position m n (.writing m' call rest) [] []
  | polls {call : List (BitVec 32)} {i : ℕ} (h : call.length = n) : Position m n (.polling m call i) [call] []
  | writes {done rest : List (BitVec 32)} {x : BitVec 32} (h : (done ++ x :: rest).length = n) :
      Position m n (.writing m (done ++ x :: rest) (x :: rest)) [done ++ x :: rest] done

/-- Words have been written only by a thread that writes. -/
lemma Position.writes_of_ne_nil {m : Fin k} {n : ℕ} {t : Thread k} {pending : List (List (BitVec 32))}
    {done : List (BitVec 32)} (h : Position m n t pending done) (hne : done ≠ []) : Thread.Writes m t := by
  cases h with
  | writes _ => rfl
  | _ => exact absurd rfl hne

/-- The thread is not within a call of `m`: no word has been written, or all have. -/
def Thread.Between (m : Fin k) : Thread k → Prop
  | .writing m' call rest => m' = m → rest = call
  | _ => True

instance (m : Fin k) (t : Thread k) : Decidable (Thread.Between m t) := by
  unfold Thread.Between
  split <;> infer_instance

/-- No word has been written by a thread that is not within a call. -/
lemma Position.done_eq_nil {m : Fin k} {n : ℕ} {t : Thread k} {pending : List (List (BitVec 32))}
    {done : List (BitVec 32)} (h : Position m n t pending done) (hb : Thread.Between m t) : done = [] := by
  cases h with
  | writes _ => exact List.self_eq_append_left.mp (hb rfl)
  | _ => rfl

section Traces

variable (m : Fin k) (tr es : List (Event sz))

@[simp] lemma sent_append : sent m (tr ++ es) = sent m tr ++ sent m es := List.filterMap_append

@[simp] lemma dequeued_append : dequeued m (tr ++ es) = dequeued m tr ++ dequeued m es :=
  List.filterMap_append

end Traces

/-- Nothing is sent by an event of another method. -/
lemma sent_of_ne {m : Fin k} {es : List (Event sz)} (h : ∀ e ∈ es, e.method ≠ m) : sent m es = [] := by
  unfold sent
  rw [List.filterMap_eq_nil_iff]
  intro e he
  have hne := h e he
  cases e with
  | called m' words => exact if_neg hne
  | _ => rfl

/-- Nothing is taken by an event of another method. -/
lemma dequeued_of_ne {m : Fin k} {es : List (Event sz)} (h : ∀ e ∈ es, e.method ≠ m) :
    dequeued m es = [] := by
  unfold dequeued
  rw [List.filterMap_eq_nil_iff]
  intro e he
  have hne := h e he
  cases e with
  | dequeued m' val => exact dif_neg hne
  | _ => rfl

/-- The run agrees with the state of the slave of `m`. Of the calls that are finished, `past`, the requests
taken and the one in the queue are some, in order, and all if no busy wait has ended without room. -/
structure Framed (m : Fin k) (tr : List (Event sz)) (s : Portal sz) (past : List (BitVec (sz m).asz))
    (pending : List (List (BitVec 32))) (done : List (BitVec 32)) : Prop where
  position : Position m (nwords 32 (sz m).asz) s.thread pending done
  sent : sent m tr = past ++ pending.map (request sz m)
  queued : (dequeued m tr ++ (s.methods m).methodPipe.fifo.items).Sublist past
  /-- The words written are those collected, or there is no room and all were discarded. -/
  collects : (s.methods m).methodPipe.Collects (if (s.methods m).methodPipe.notFull then done else [])
  room : .gaveUp m ∉ tr → Thread.Writes m s.thread → (s.methods m).methodPipe.notFull = true
  lossless : .gaveUp m ∉ tr →
    dequeued m tr ++ (s.methods m).methodPipe.fifo.items = past ∧ ∀ x, .discarded m x ∉ tr

namespace Framed

variable {m : Fin k} {tr es : List (Event sz)} {s s' : Portal sz} {past : List (BitVec (sz m).asz)}
  {pending : List (List (BitVec 32))} {done : List (BitVec 32)}

/-- There is at least one word in a request, and the words can be counted. -/
lemma nwords_le (sz : Fin k → RequestSize) (m : Fin k) : nwords 32 (sz m).asz ≤ 2 ^ 32 := (sz m).counted.le

lemma reset (m : Fin k) : Framed m [] (Portal.reset sz) [] [] [] where
  position := .idle
  sent := rfl
  queued := .slnil
  collects := by
    rw [ite_self]
    exact FromBit.collects_reset (by omega) (sz m).sized
  room _ h := h.elim
  lossless _ := ⟨rfl, fun x => List.not_mem_nil⟩

/-- **Frame**: events of other methods, as long as the `mkFromBit` of `m` is as it was. -/
lemma frame (h : Framed m tr s past pending done) (hes : ∀ e ∈ es, e.method ≠ m)
    (hpipe : (s'.methods m).methodPipe = (s.methods m).methodPipe)
    (hpos : Position m (nwords 32 (sz m).asz) s'.thread pending done)
    (hwrites : Thread.Writes m s'.thread → Thread.Writes m s.thread) :
    Framed m (tr ++ es) s' past pending done := by
  have hsent := sent_of_ne hes
  have hdeq := dequeued_of_ne hes
  have hgave : .gaveUp m ∉ tr ++ es → .gaveUp m ∉ tr := fun hn hmem => hn (List.mem_append_left es hmem)
  refine ⟨hpos, ?_, ?_, ?_, fun hn hw => ?_, fun hn => ?_⟩
  · rw [sent_append, hsent, List.append_nil, h.sent]
  · rw [dequeued_append, hdeq, List.append_nil, hpipe]
    exact h.queued
  · rw [hpipe]
    exact h.collects
  · rw [hpipe]
    exact h.room (hgave hn) (hwrites hw)
  · obtain ⟨heq, hkept⟩ := h.lossless (hgave hn)
    rw [dequeued_append, hdeq, List.append_nil, hpipe]
    refine ⟨heq, fun x hmem => ?_⟩
    rcases List.mem_append.mp hmem with hmem | hmem
    · exact hkept x hmem
    · exact hes _ hmem rfl

/-- Nothing has been discarded so far if the busy waits have ended with room. -/
lemma discarded_concat (h : Framed m tr s past pending done) {e : Event sz} (he : ∀ x, e ≠ .discarded m x)
    (hn : .gaveUp m ∉ tr ++ [e]) (x : BitVec 32) : .discarded m x ∉ tr ++ [e] := by
  intro hmem
  rcases List.mem_append.mp hmem with hmem | hmem
  · exact (h.lossless fun hg => hn (List.mem_append_left _ hg)).2 x hmem
  · exact he x (List.mem_singleton.mp hmem).symm

/-- A call begins. -/
lemma call (h : Framed m tr s past pending done) (hidle : s.thread = .idle) {m' : Fin k}
    {words : List (BitVec 32)} (hlen : words.length = nwords 32 (sz m').asz) :
    ∃ pending' done', Framed m (tr ++ [Event.called m' words]) { s with thread := .polling m' words 50 } past
      pending' done' := by
  obtain ⟨thread, methods⟩ := s
  subst hidle
  cases h.position
  rcases eq_or_ne m' m with rfl | hne
  · have hdeq : Portal.dequeued m' (tr ++ [Event.called m' words]) = Portal.dequeued m' tr := by
      rw [dequeued_append]
      exact List.append_nil _
    refine ⟨[words], [], ⟨.polls hlen, ?_, ?_, h.collects, fun _ hw => hw.elim, fun hn => ?_⟩⟩
    · rw [sent_append, h.sent]
      simp [Portal.sent, Event.sent?]
    · rw [hdeq]
      exact h.queued
    · rw [hdeq]
      refine ⟨(h.lossless fun hg => hn (List.mem_append_left _ hg)).1, ?_⟩
      exact h.discarded_concat (fun x he => by cases he) hn
  · refine ⟨[], [], h.frame ?_ rfl (.pollsOther hne) (fun hw => hw.elim)⟩
    intro e he
    rw [List.mem_singleton.mp he]
    exact hne

/-- The thread has asked for room: it goes on asking, or it writes. -/
lemma poll (h : Framed m tr s past pending done) {m' : Fin k} {call : List (BitVec 32)} {i : ℕ}
    (hthread : s.thread = .polling m' call i) {b : AddrBeat} (hb : b.addr = 4) :
    Framed m (tr ++ if (s.methods m').readData b = 0 ∧ i = 0 then [.gaveUp m'] else [])
      { s with thread := Thread.polled m' call i ((s.methods m').readData b) } past pending done := by
  obtain ⟨thread, methods⟩ := s
  subst hthread
  show Framed m (tr ++ if (methods m').readData b = 0 ∧ i = 0 then [.gaveUp m'] else [])
    ⟨Thread.polled m' call i ((methods m').readData b), methods⟩ past pending done
  have hpos := h.position
  rcases Thread.polled_eq m' call i ((methods m').readData b) with ⟨hv, hi, hthread⟩ | ⟨hv, hthread⟩
  · -- nothing happens
    rw [hthread, if_neg (by omega)]
    refine h.frame (fun e he => by cases he) rfl ?_ (fun hw => hw.elim)
    cases hpos with
    | pollsOther hne => exact .pollsOther hne
    | polls hlen => exact .polls hlen
  · rw [hthread]
    cases hpos with
    | pollsOther hne =>
      refine h.frame (fun e he => ?_) rfl (.writesOther hne) (fun hw => (hne hw).elim)
      split at he
      · rw [List.mem_singleton.mp he]
        exact hne
      · cases he
    | polls hlen =>
      obtain ⟨x, rest, rfl⟩ : ∃ x rest, call = x :: rest := by
        refine List.exists_cons_of_length_pos ?_
        rw [hlen]
        exact nwords_pos (by omega) (sz m).sized
      have hpos : Position m (nwords 32 (sz m).asz) (.writing m (x :: rest) (x :: rest)) [x :: rest] [] :=
        .writes (show ([] ++ x :: rest).length = _ from hlen)
      have hread : (methods m).readData b = 0 ↔ (methods m).methodPipe.notFull = false := by
        unfold PipeIn.readData
        rw [if_pos hb]
        cases (methods m).methodPipe.notFull <;> simp
      by_cases hgave : (methods m).readData b = 0 ∧ i = 0
      · rw [if_pos hgave]
        have hmem : .gaveUp m ∈ tr ++ [Event.gaveUp m] := List.mem_append_right tr (List.mem_singleton_self _)
        have hdeq : Portal.dequeued m (tr ++ [Event.gaveUp m]) = Portal.dequeued m tr := by
          rw [dequeued_append]
          exact List.append_nil _
        refine ⟨hpos, ?_, ?_, h.collects, fun hn => absurd hmem hn, fun hn => absurd hmem hn⟩
        · rw [sent_append, h.sent]
          exact List.append_nil _
        · rw [hdeq]
          exact h.queued
      · rw [if_neg hgave, List.append_nil]
        refine ⟨hpos, h.sent, h.queued, h.collects, fun _ _ => ?_, h.lossless⟩
        have hne : (methods m).readData b ≠ 0 := by tauto
        rw [Ne, hread] at hne
        exact Bool.eq_true_of_not_eq_false hne

/-- The last word of a call has been written, and the request is in the queue. -/
lemma finish {s' : Portal sz} {call : List (BitVec 32)} (h : Framed m tr s past [call] done) {x : BitVec 32}
    (hthread : s'.thread = .idle) (hnil : (s.methods m).methodPipe.fifo.items = [])
    (hitems : (s'.methods m).methodPipe.fifo.items = [request sz m call])
    (hcol : (s'.methods m).methodPipe.Collects []) :
    Framed m (tr ++ [Event.kept m x]) s' (past ++ [request sz m call]) [] [] := by
  have hdeq : Portal.dequeued m (tr ++ [Event.kept m x]) = Portal.dequeued m tr := by
    rw [dequeued_append]
    exact List.append_nil _
  refine ⟨by rw [hthread]; exact .idle, ?_, ?_, by rwa [ite_self], ?_, fun hn => ?_⟩
  · rw [sent_append, h.sent, List.map_nil, List.append_nil]
    exact List.append_nil _
  · have hq := h.queued
    rw [hnil, List.append_nil] at hq
    rw [hdeq, hitems]
    exact hq.append (List.Sublist.refl _)
  · intro _ hw
    rw [hthread] at hw
    exact hw.elim
  · have heq := (h.lossless fun hg => hn (List.mem_append_left _ hg)).1
    rw [hnil, List.append_nil] at heq
    rw [hdeq, hitems, heq]
    exact ⟨rfl, h.discarded_concat (fun x he => by cases he) hn⟩

/-- The last word of a call has been discarded, and the request with it. -/
lemma lose {s' : Portal sz} {call : List (BitVec 32)} (h : Framed m tr s past [call] done) {x : BitVec 32}
    (hgave : .gaveUp m ∈ tr) (hthread : s'.thread = .idle)
    (hpipe : (s'.methods m).methodPipe = (s.methods m).methodPipe)
    (hcol : (s.methods m).methodPipe.Collects []) :
    Framed m (tr ++ [Event.discarded m x]) s' (past ++ [request sz m call]) [] [] := by
  have hmem : .gaveUp m ∈ tr ++ [Event.discarded m x] := List.mem_append_left _ hgave
  refine ⟨by rw [hthread]; exact .idle, ?_, ?_, ?_, fun hn => absurd hmem hn, fun hn => absurd hmem hn⟩
  · rw [sent_append, h.sent, List.map_nil, List.append_nil]
    exact List.append_nil _
  · have hdeq : Portal.dequeued m (tr ++ [Event.discarded m x]) = Portal.dequeued m tr := by
      rw [dequeued_append]
      exact List.append_nil _
    rw [hdeq, hpipe]
    exact h.queued.trans (List.sublist_append_left _ _)
  · rw [ite_self, hpipe]
    exact hcol

/-- A word of a call has been kept, and there are more. -/
lemma more {s' : Portal sz} {x y : BitVec 32} {rest : List (BitVec 32)}
    (h : Framed m tr s past [done ++ x :: y :: rest] done) (hwrites : Thread.Writes m s.thread)
    (hlen : (done ++ x :: y :: rest).length = nwords 32 (sz m).asz) {e : Event sz}
    (he : e = .kept m x ∨ (.gaveUp m ∈ tr ∧ e = .discarded m x))
    (hthread : s'.thread = .writing m (done ++ x :: y :: rest) (y :: rest))
    (hfifo : (s'.methods m).methodPipe.fifo = (s.methods m).methodPipe.fifo)
    (hcol : (s'.methods m).methodPipe.Collects
      (if (s.methods m).methodPipe.notFull then done ++ [x] else [])) :
    Framed m (tr ++ [e]) s' past [done ++ x :: y :: rest] (done ++ [x]) := by
  have hfull : (s'.methods m).methodPipe.notFull = (s.methods m).methodPipe.notFull := by
    unfold FromBit.notFull
    rw [hfifo]
  have hdeq : Portal.dequeued m (tr ++ [e]) = Portal.dequeued m tr := by
    rw [dequeued_append]
    obtain rfl | ⟨-, rfl⟩ := he <;> exact List.append_nil _
  have hn' : .gaveUp m ∉ tr ++ [e] → .gaveUp m ∉ tr := fun hn hg => hn (List.mem_append_left _ hg)
  refine ⟨?_, ?_, ?_, ?_, fun hn _ => ?_, fun hn => ?_⟩
  · have hsplit : done ++ x :: y :: rest = (done ++ [x]) ++ y :: rest := by simp
    rw [hthread, hsplit]
    refine .writes ?_
    rw [← hsplit]
    exact hlen
  · rw [sent_append, h.sent]
    obtain rfl | ⟨-, rfl⟩ := he <;> exact List.append_nil _
  · rw [hdeq, hfifo]
    exact h.queued
  · rw [hfull]
    exact hcol
  · rw [hfull]
    exact h.room (hn' hn) hwrites
  · rw [hdeq, hfifo]
    refine ⟨(h.lossless (hn' hn)).1, ?_⟩
    obtain rfl | ⟨hgave, -⟩ := he
    · exact h.discarded_concat (fun x he => by cases he) hn
    · exact absurd hgave (hn' hn)

/-- **A word is written**: the slave keeps it if there is room and discards it otherwise. -/
lemma write (h : Framed m tr s past pending done) {m' : Fin k} {call rest : List (BitVec 32)}
    {x : BitVec 32} (hthread : s.thread = .writing m' call (x :: rest)) {pipe : FromBit 32 (sz m').asz}
    (hpass : PipeIn.pass (s.methods m').methodPipe x = some pipe) (q : Fifo 2 (BitVec 6)) :
    ∃ past' pending' done', Framed m
      (tr ++ [if (s.methods m').methodPipe.notFull then .kept m' x else .discarded m' x])
      ⟨Thread.written m' call rest, Function.update s.methods m' ⟨pipe, q⟩⟩ past' pending' done' := by
  obtain ⟨thread, methods⟩ := s
  subst hthread
  cases hpos : h.position with
  | writesOther hne =>
    refine ⟨past, [], [], h.frame (fun e he => ?_) ?_ ?_ (fun hw => ?_)⟩
    · rw [List.mem_singleton.mp he]
      split <;> exact hne
    · show (Function.update methods m' ⟨pipe, q⟩ m).methodPipe = _
      rw [Function.update_of_ne hne.symm]
    · cases rest with
      | nil => exact .idle
      | cons y rest => exact .writesOther hne
    · cases rest with
      | nil => exact hw.elim
      | cons y rest => exact (hne hw).elim
  | writes hlen =>
    have hnew (t : Thread k) :
        ((⟨t, Function.update methods m ⟨pipe, q⟩⟩ : Portal sz).methods m).methodPipe = pipe := by
      show (Function.update methods m ⟨pipe, q⟩ m).methodPipe = pipe
      rw [Function.update_self]
    have hcol := h.collects
    simp only at hpass ⊢
    unfold PipeIn.pass at hpass
    cases hfull : (methods m).methodPipe.notFull with
    | true =>
      -- there is room
      simp only [hfull, if_true] at hpass hcol ⊢
      have hlt : done.length + (rest.length + 1) = nwords 32 (sz m).asz := by
        rwa [List.length_append, List.length_cons] at hlen
      rcases hcol.enq (nwords_le sz m) hpass with ⟨hlast, hnil, hitems, hcol'⟩ | ⟨hmore, hfifo, hcol'⟩
      · obtain rfl : rest = [] := List.eq_nil_of_length_eq_zero (by omega)
        refine ⟨_, [], [], h.finish rfl hnil ?_ ?_⟩
        · rw [hnew]
          exact hitems
        · rw [hnew]
          exact hcol'
      · cases rest with
        | nil =>
          rw [List.length_nil] at hlt
          omega
        | cons y rest =>
          refine ⟨past, _, _, h.more rfl hlen (.inl rfl) rfl ?_ ?_⟩
          · rw [hnew]
            exact hfifo
          · rw [hnew]
            simp only [hfull, if_true]
            exact hcol'
    | false =>
      simp only [hfull, Bool.false_eq_true, if_false, Option.some.injEq] at hpass hcol ⊢
      subst hpass
      have hgave : .gaveUp m ∈ tr := by
        by_contra hn
        have := h.room hn rfl
        rw [hfull] at this
        cases this
      cases rest with
      | nil =>
        refine ⟨_, [], [], h.lose hgave rfl ?_ hcol⟩
        rw [hnew]
      | cons y rest =>
        refine ⟨past, _, _, h.more rfl hlen (.inr ⟨hgave, rfl⟩) rfl ?_ ?_⟩
        · rw [hnew]
        · rw [hnew]
          simp only [hfull, Bool.false_eq_true, if_false]
          exact hcol

/-- An answer has been fetched. -/
lemma writeDone (h : Framed m tr s past pending done) (m' : Fin k) (q : Fifo 2 (BitVec 6)) :
    Framed m (tr ++ []) { s with methods := Function.update s.methods m' ⟨(s.methods m').methodPipe, q⟩ } past
      pending done := by
  refine h.frame (fun e he => by cases he) ?_ h.position id
  show (Function.update s.methods m' ⟨(s.methods m').methodPipe, q⟩ m).methodPipe = _
  rcases eq_or_ne m m' with rfl | hne
  · rw [Function.update_self]
  · rw [Function.update_of_ne hne]

/-- **A request is taken**, not within a call: it is the next of those in the queue. -/
lemma deq (h : Framed m tr s past pending done) {m' : Fin k} {val : BitVec (sz m').asz}
    {pipe : FromBit 32 (sz m').asz} (hwhole : m' = m → done = [] ∨ .gaveUp m ∉ tr)
    (hdeq : (s.methods m').methodPipe.deq = some (val, pipe)) (q : Fifo 2 (BitVec 6)) :
    Framed m (tr ++ [Event.dequeued m' val])
      { s with methods := Function.update s.methods m' ⟨pipe, q⟩ } past pending done := by
  rcases eq_or_ne m' m with rfl | hne
  · obtain ⟨hone, hnil, hcol⟩ := h.collects.deq hdeq
    have hfull : (s.methods m').methodPipe.notFull = false := by
      unfold FromBit.notFull
      rw [hone]
      rfl
    -- a queue with a request in it is not being filled by a call that has found room
    have hdone : done = [] := by
      rcases hwhole rfl with hdone | hn
      · exact hdone
      · by_contra hne
        have := h.room hn (h.position.writes_of_ne_nil hne)
        rw [hfull] at this
        cases this
    subst hdone
    have hnew : (Function.update s.methods m' ⟨pipe, q⟩ m').methodPipe = pipe := by
      rw [Function.update_self]
    have htaken : Portal.dequeued m' (tr ++ [Event.dequeued m' val]) ++ pipe.fifo.items =
        Portal.dequeued m' tr ++ (s.methods m').methodPipe.fifo.items := by
      rw [dequeued_append, hnil, hone]
      simp [Portal.dequeued, Event.dequeued?]
    refine ⟨h.position, ?_, ?_, ?_, fun hn hw => ?_, fun hn => ?_⟩
    · rw [sent_append, h.sent]
      exact List.append_nil _
    · show (_ ++ (Function.update s.methods m' ⟨pipe, q⟩ m').methodPipe.fifo.items).Sublist past
      rw [hnew, htaken]
      exact h.queued
    · show (Function.update s.methods m' ⟨pipe, q⟩ m').methodPipe.Collects _
      rw [hnew, ite_self]
      rwa [ite_self] at hcol
    · show (Function.update s.methods m' ⟨pipe, q⟩ m').methodPipe.notFull = true
      rw [hnew]
      unfold FromBit.notFull
      rw [hnil]
      rfl
    · show _ ++ (Function.update s.methods m' ⟨pipe, q⟩ m').methodPipe.fifo.items = past ∧ _
      rw [hnew, htaken]
      exact ⟨(h.lossless fun hg => hn (List.mem_append_left _ hg)).1,
        h.discarded_concat (fun x he => by cases he) hn⟩
  · refine h.frame (fun e he => ?_) ?_ h.position id
    · rw [List.mem_singleton.mp he]
      exact hne
    · show (Function.update s.methods m' ⟨pipe, q⟩ m).methodPipe = _
      rw [Function.update_of_ne hne.symm]

/-- A step, in which no request is taken within a call, unless the busy waits have ended with room. -/
lemma step (h : Framed m tr s past pending done) {a : Action k}
    (hwhole : a = .deq m → Thread.Between m s.thread ∨ .gaveUp m ∉ tr)
    (hs : (portal sz).step s a = some (s', es)) :
    ∃ past' pending' done', Framed m (tr ++ es) s' past' pending' done' := by
  cases a with
  | call m' words =>
    simp only [portal] at hs
    split at hs
    · rename_i hidle
      simp only [Option.ite_none_right_eq_some, Option.some.injEq, Prod.mk.injEq] at hs
      obtain ⟨hlen, rfl, rfl⟩ := hs
      exact ⟨past, h.call hidle hlen⟩
    · cases hs
  | poll tag last =>
    simp only [portal] at hs
    split at hs
    · rename_i m' call i hthread
      cases hs
      exact ⟨past, pending, done, h.poll hthread rfl⟩
    · cases hs
  | write tag last =>
    simp only [portal] at hs
    split at hs
    · rename_i m' call x rest hthread
      simp only [PipeIn.writeData, bind, pure, Option.bind_eq_some_iff, Option.some.injEq,
        Prod.mk.injEq] at hs
      obtain ⟨slave, ⟨q, -, pipe, hpass, rfl⟩, rfl, rfl⟩ := hs
      exact h.write hthread hpass q
    · cases hs
  | writeDone m' =>
    simp only [portal, bind, pure, Option.bind_eq_some_iff, Prod.exists, Option.some.injEq,
      Prod.mk.injEq] at hs
    obtain ⟨tag, q, -, rfl, rfl⟩ := hs
    exact ⟨past, pending, done, h.writeDone m' q⟩
  | deq m' =>
    simp only [portal, bind, pure, Option.bind_eq_some_iff, Prod.exists, Option.some.injEq,
      Prod.mk.injEq] at hs
    obtain ⟨val, pipe, hdeq, rfl, rfl⟩ := hs
    refine ⟨past, pending, done, h.deq (fun he => ?_) hdeq _⟩
    subst he
    exact (hwhole rfl).imp_left h.position.done_eq_nil

end Framed

end Portal

open Portal

/-- **Delivery.** As long as no busy wait of the method `m` has ended without room, no word of it has been
discarded and the requests taken are the first of those sent.

**Proof sketch.** While the words of a call are written the queue of the method is empty: it was when the
thread asked, and it is filled only with the last word. So the words are all kept, and `mkFromBit` has
collected exactly those written so far (`Framed`). -/
theorem portal_delivers {tr : List (Portal.Event sz)} {s : Portal sz}
    (h : (portal sz).Reaches (Portal.reset sz) tr s) {m : Fin k} (hpolls : .gaveUp m ∉ tr) :
    (∀ x, .discarded m x ∉ tr) ∧ dequeued m tr <+: sent m tr := by
  have hframed : .gaveUp m ∉ tr → ∃ past pending done, Framed m tr s past pending done := by
    refine h.invariant (I := fun tr s => .gaveUp m ∉ tr → ∃ past pending done, Framed m tr s past pending done)
      (fun _ => ⟨[], [], [], Framed.reset m⟩) ?_
    intro tr s a s' es ih hs hn
    have hn' : .gaveUp m ∉ tr := fun hmem => hn (List.mem_append_left es hmem)
    obtain ⟨past, pending, done, hf⟩ := ih hn'
    exact hf.step (fun _ => .inr hn') hs
  obtain ⟨past, pending, done, hf⟩ := hframed hpolls
  obtain ⟨heq, hkept⟩ := hf.lossless hpolls
  refine ⟨hkept, ?_⟩
  rw [hf.sent, ← heq, List.append_assoc]
  exact List.prefix_append _ _

/-- No request is taken within a call of its method. -/
def Portal.Whole (s : Portal sz) : Portal.Action k → Prop
  | .deq m => Thread.Between m s.thread
  | _ => True

instance (s : Portal sz) (a : Portal.Action k) : Decidable (s.Whole a) := by
  cases a <;> unfold Portal.Whole <;> infer_instance

/-- **Framing.** In every run in which no request is taken within a call of its method, that is after some
of its words have been written and before the last, the requests taken are some of those sent, in order.

**Proof sketch.** The slave then keeps all words of a call or discards all of them (`Framed.collects`), so
`mkFromBit` is between two requests whenever a call begins. -/
theorem portal_frames {tr : List (Portal.Event sz)} {s : Portal sz}
    (h : ((portal sz).guard Portal.Whole).Reaches (Portal.reset sz) tr s) (m : Fin k) :
    (dequeued m tr).Sublist (sent m tr) := by
  have hframed : ∃ past pending done, Framed m tr s past pending done := by
    refine h.invariant (I := fun tr s => ∃ past pending done, Framed m tr s past pending done)
      ⟨[], [], [], Framed.reset m⟩ ?_
    rintro tr s a s' es ⟨past, pending, done, hf⟩ hs
    obtain ⟨hwhole, hs⟩ := RuleSystem.guard_step.mp hs
    refine hf.step (fun ha => ?_) hs
    subst ha
    exact .inl hwhole
  obtain ⟨past, pending, done, hf⟩ := hframed
  rw [hf.sent]
  have hpast : (dequeued m tr).Sublist past := (List.sublist_append_left _ _).trans hf.queued
  exact hpast.trans (List.sublist_append_left _ _)

/-- One method, with a request of two words. -/
def oneMethod : Fin 1 → RequestSize := fun _ => ⟨64, by decide, by decide⟩

/-- The thread writes a word and the answer is fetched. -/
def writeWord : List (Portal.Action 1) := [.write 0 true, .writeDone 0]

/-- A call that finds room. -/
def wholeCall (a b : BitVec 32) : List (Portal.Action 1) :=
  [.call 0 [a, b], .poll 0 true] ++ writeWord ++ writeWord

/-- Two calls, with a request taken after each. -/
def twoCalls :=
  (portal oneMethod).run (Portal.reset oneMethod) (wholeCall 1 2 ++ [.deq 0] ++ wholeCall 3 4 ++ [.deq 0])

theorem portal_delivers_twoCalls :
    .gaveUp 0 ∉ twoCalls.2 ∧ dequeued 0 twoCalls.2 = [0x100000002, 0x300000004] ∧
      (∀ x, .discarded 0 x ∉ twoCalls.2) ∧ dequeued 0 twoCalls.2 <+: sent 0 twoCalls.2 :=
  have h : .gaveUp 0 ∉ twoCalls.2 := by decide +kernel
  ⟨h, by decide +kernel, portal_delivers (RuleSystem.reaches_run _ _) h⟩

/-- A request is taken between two calls, and one of two calls that do not wait long enough is lost. -/
def lostCall :=
  ((portal oneMethod).guard Portal.Whole).run (Portal.reset oneMethod)
    (wholeCall 1 2 ++ [.call 0 [3, 4]] ++ List.replicate 51 (.poll 0 true) ++ writeWord ++ writeWord ++
      [.deq 0] ++ wholeCall 5 6 ++ [.deq 0])

theorem portal_frames_lostCall :
    dequeued 0 lostCall.2 = [0x100000002, 0x500000006] ∧
      (dequeued 0 lostCall.2).Sublist (sent 0 lostCall.2) :=
  ⟨by decide +kernel, portal_frames (RuleSystem.reaches_run _ _) 0⟩

/-- A request is taken between the two words of a call that has not waited long enough. The first word of
the call is discarded, and the second is put together with the first of the next call. -/
def mixedCall :=
  (portal oneMethod).run (Portal.reset oneMethod)
    (wholeCall 1 2 ++ [.call 0 [3, 4]] ++ List.replicate 51 (.poll 0 true) ++ writeWord ++ [.deq 0] ++
      writeWord ++ wholeCall 5 6 ++ [.deq 0])

theorem not_frames_mixedCall :
    ¬ ∀ {k : ℕ} {sz : Fin k → RequestSize} {tr : List (Portal.Event sz)} {s : Portal sz},
      (portal sz).Reaches (Portal.reset sz) tr s → ∀ m, (dequeued m tr).Sublist (sent m tr) := by
  intro h
  have hmixed : dequeued 0 mixedCall.2 = [0x100000002, 0x400000005] := by decide +kernel
  have hsent : sent 0 mixedCall.2 = [0x100000002, 0x300000004, 0x500000006] := by decide +kernel
  have hsub : (dequeued 0 mixedCall.2).Sublist (sent 0 mixedCall.2) := h (RuleSystem.reaches_run _ _) 0
  rw [hmixed, hsent] at hsub
  revert hsub
  decide +kernel

end Xbsv
