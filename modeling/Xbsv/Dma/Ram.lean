import Xbsv.Dma.ReadRouting
import Xbsv.Dma.SharedUnit
import Xbsv.Dma.WriteRouting
import Xbsv.Stores.Placed

set_option relaxedAutoImplicit false
set_option autoImplicit false

/-!
# The memory behind the servers

The two servers of `mkConfigMemServerRW` together with a memory. The memory keeps the requests that it was handed. It sends
the beats of the requests to read with one tag in the order of the requests, and those of different tags in any order; it
puts the beats to be written where the requests say. It has nothing but addresses to go by.

## Main definitions

* `Xbsv.Ram`, `Xbsv.ram` — the memory, which takes part in the steps of the servers.
* `Xbsv.Access` — a beat that is read or written.
* `Xbsv.Served` — what the memory was asked for, and what it did.

## Main results

* `Xbsv.Ram.served` — the accesses are those that were asked for, in order.
-/

namespace Xbsv

open Rules Stores

/-! ## The memory -/

/-- A beat to be read or written: its address, and the byte of an object that it begins with, at which the memory does not
look. -/
structure Beat where
  addr : ℕ
  pointer : BitVec 32
  offset : ℕ
  deriving DecidableEq

/-- The address of a byte of the beat, and its index in the objects. -/
def Beat.byteAddr (b : Beat) (k : ℕ) : ℕ := b.addr + k

def Beat.byteIndex (b : Beat) (k : ℕ) : ℕ × ℕ := (b.pointer.toNat, b.offset + k)

/-- Beat `k` of those that the memory is asked for by `m`, made for the request `req` of a client; and all of them. -/
def requestBeat (dataWidthBytes : ℕ) {addrWidth : ℕ} (req : ObjectRequest) (m : MemRequest addrWidth) (k : ℕ) : Beat :=
  ⟨m.addr.toNat + k * dataWidthBytes, req.pointer, req.offset.toNat + k * dataWidthBytes⟩

def requestBeats (dataWidthBytes : ℕ) {addrWidth : ℕ} (req : ObjectRequest) (m : MemRequest addrWidth) : List Beat :=
  (List.range (beats dataWidthBytes m.burstLen)).map (requestBeat dataWidthBytes req m)

/-- A byte of a beat. -/
def byteOf {dataWidthBytes : ℕ} (v : BitVec (dataWidthBytes * 8)) (k : ℕ) : BitVec 8 := v.extractLsb' (8 * k) 8

/-- The bytes of a beat, one after the other. -/
def loadBytes {ι : Type} {dataWidthBytes : ℕ} (index : ℕ → ι) (v : BitVec (dataWidthBytes * 8)) : List (Op ι (BitVec 8)) :=
  (List.range dataWidthBytes).map fun k => .load (index k) (byteOf v k)

def storeBytes {ι : Type} {dataWidthBytes : ℕ} (index : ℕ → ι) (v : BitVec (dataWidthBytes * 8)) :
    List (Op ι (BitVec 8)) :=
  (List.range dataWidthBytes).map fun k => .store (index k) (byteOf v k)

/-- The memory, with the beats that it was asked for and has not yet sent or got: for each read master and each tag, and
for each write master. -/
structure Ram (n : ℕ) where
  loads : Fin n → BitVec 6 → List Beat
  stores : Fin n → List Beat
  bytes : ℕ → BitVec 8

/-- The memory with nothing to do. -/
def Ram.idle {n : ℕ} (bytes : ℕ → BitVec 8) : Ram n := ⟨fun _ _ => [], fun _ => [], bytes⟩

/-- A beat that was sent to a read master, or got from a write master for one of its clients. -/
inductive Access (n numClients dataWidthBytes : ℕ)
  | load (i : Fin n) (tag : BitVec 6) (b : Beat) (v : BitVec (dataWidthBytes * 8))
  | store (i : Fin n) (b : Beat) (client : Fin numClients) (v : BitVec (dataWidthBytes * 8))

namespace Access

variable {n numClients dataWidthBytes : ℕ} {ι : Type}

def beat : Access n numClients dataWidthBytes → Beat
  | .load _ _ b _ => b
  | .store _ b _ _ => b

/-- What is done to the bytes. -/
def ops (index : Beat → ℕ → ι) : Access n numClients dataWidthBytes → List (Op ι (BitVec 8))
  | .load _ _ b v => loadBytes (index b) v
  | .store _ b _ v => storeBytes (index b) v

end Access

/-- The methods of the masters that the memory takes part in. -/
inductive MemEvent (n numClients addrWidth dataWidthBytes : ℕ)
  | readReq (i : Fin n) (req : ObjectRequest) (m : MemRequest addrWidth)
  | readData (i : Fin n) (d : ObjectData (dataWidthBytes * 8))
  | writeReq (i : Fin n) (req : ObjectRequest) (m : MemRequest addrWidth)
  | writeData (i : Fin n) (client : Fin numClients) (d : ObjectData (dataWidthBytes * 8))

section Memory

variable {n numClients addrWidth dataWidthBytes : ℕ}

/-- What the memory does. A beat that is sent has the bytes that are there. -/
def Ram.serve (m : Ram n) :
    MemEvent n numClients addrWidth dataWidthBytes → Option (Ram n × List (Access n numClients dataWidthBytes))
  | .readReq i req q =>
    let asked := m.loads i q.tag ++ requestBeats dataWidthBytes req q
    some ({ m with loads := Function.update m.loads i (Function.update (m.loads i) q.tag asked) }, [])
  | .readData i d =>
    match m.loads i d.tag with
    | [] => none
    | b :: bs => do
      let bytes ← replay m.bytes (loadBytes b.byteAddr d.data)
      return ({ m with loads := Function.update m.loads i (Function.update (m.loads i) d.tag bs), bytes },
        [.load i d.tag b d.data])
  | .writeReq i req q =>
    some ({ m with stores := Function.update m.stores i (m.stores i ++ requestBeats dataWidthBytes req q) }, [])
  | .writeData i client d =>
    match m.stores i with
    | [] => none
    | b :: bs => do
      let bytes ← replay m.bytes (storeBytes b.byteAddr d.data)
      return ({ m with stores := Function.update m.stores i bs, bytes }, [.store i b client d.data])

variable {ε ε' : Type} {numReaders numReadTags numWriteTags : ℕ}

/-- The events of the two servers. -/
abbrev DmaEvent (ε ε' : Type) (n numReaders numClients numReadTags numWriteTags addrWidth dataWidthBytes : ℕ) : Type :=
  ConfigServerRW.Event (MemRead.Event ε numReaders numReadTags addrWidth dataWidthBytes)
    (MemWrite.Event ε' numClients numWriteTags addrWidth dataWidthBytes) addrWidth n

def memEvent? : DmaEvent ε ε' n numReaders numClients numReadTags numWriteTags addrWidth dataWidthBytes →
    Option (MemEvent n numClients addrWidth dataWidthBytes)
  | .reader (.master i (.readReq r m)) => some (.readReq i r.req m)
  | .reader (.master i (.readData d)) => some (.readData i d)
  | .writer (.master i (.writeReq r m)) => some (.writeReq i r.req m)
  | .writer (.master i (.writeData client _ d)) => some (.writeData i client d)
  | _ => none

/-- The memory takes part in the steps of the servers. -/
def ram : Listener (Ram n) (DmaEvent ε ε' n numReaders numClients numReadTags numWriteTags addrWidth dataWidthBytes)
    (Access n numClients dataWidthBytes) := .comap memEvent? ⟨Ram.serve⟩

/-! ## What was asked for and what was done -/

/-- The beats that a read master asked for under a tag. -/
def askedLoads (i : Fin n) (tag : BitVec 6) (ms : List (MemEvent n numClients addrWidth dataWidthBytes)) : List Beat :=
  ms.flatMap fun
    | .readReq j req m => if j = i ∧ m.tag = tag then requestBeats dataWidthBytes req m else []
    | _ => []

/-- The data that a read master got under a tag. -/
def arrived (i : Fin n) (tag : BitVec 6) (ms : List (MemEvent n numClients addrWidth dataWidthBytes)) :
    List (BitVec (dataWidthBytes * 8)) :=
  ms.flatMap fun
    | .readData j d => if j = i ∧ d.tag = tag then [d.data] else []
    | _ => []

/-- The beats that a write master was to send. -/
def askedStores (i : Fin n) (ms : List (MemEvent n numClients addrWidth dataWidthBytes)) : List Beat :=
  ms.flatMap fun
    | .writeReq j req m => if j = i then requestBeats dataWidthBytes req m else []
    | _ => []

/-- The data that a write master sent. -/
def sent (i : Fin n) (ms : List (MemEvent n numClients addrWidth dataWidthBytes)) :
    List (Fin numClients × BitVec (dataWidthBytes * 8)) :=
  ms.flatMap fun
    | .writeData j client d => if j = i then [(client, d.data)] else []
    | _ => []

/-- The beats that were read for a master under a tag. -/
def loaded (i : Fin n) (tag : BitVec 6) (as : List (Access n numClients dataWidthBytes)) :
    List (Beat × BitVec (dataWidthBytes * 8)) :=
  as.flatMap fun
    | .load j t b v => if j = i ∧ t = tag then [(b, v)] else []
    | _ => []

/-- The beats that were written for a master. -/
def stored (i : Fin n) (as : List (Access n numClients dataWidthBytes)) :
    List (Beat × Fin numClients × BitVec (dataWidthBytes * 8)) :=
  as.flatMap fun
    | .store j b client v => if j = i then [(b, client, v)] else []
    | _ => []

/-- **The accesses are those that were asked for**, the others are still to come; and they are what the bytes have been
through. -/
structure Served (bytes : ℕ → BitVec 8) (ms : List (MemEvent n numClients addrWidth dataWidthBytes))
    (as : List (Access n numClients dataWidthBytes)) (m : Ram n) : Prop where
  loads : ∀ i tag, askedLoads i tag ms = (loaded i tag as).map Prod.fst ++ m.loads i tag
  arrived : ∀ i tag, arrived i tag ms = (loaded i tag as).map Prod.snd
  stores : ∀ i, askedStores i ms = (stored i as).map Prod.fst ++ m.stores i
  sent : ∀ i, sent i ms = (stored i as).map Prod.snd
  bytes : replay bytes (as.flatMap (Access.ops Beat.byteAddr)) = some m.bytes

variable {bytes : ℕ → BitVec 8} {ms : List (MemEvent n numClients addrWidth dataWidthBytes)}
  {as as' : List (Access n numClients dataWidthBytes)} {m m' : Ram n}

lemma served_idle (bytes : ℕ → BitVec 8) :
    Served bytes ([] : List (MemEvent n numClients addrWidth dataWidthBytes)) [] (.idle bytes) :=
  ⟨fun _ _ => rfl, fun _ _ => rfl, fun _ => rfl, fun _ => rfl, rfl⟩

/-- One more event. -/
lemma Served.serve (h : Served bytes ms as m) {x : MemEvent n numClients addrWidth dataWidthBytes}
    (hx : m.serve x = some (m', as')) : Served bytes (ms ++ [x]) (as ++ as') m' := by
  obtain ⟨hloads, harrived, hstores, hsent, hbytes⟩ := h
  cases x with
  | readReq i req q =>
    cases hx
    rw [List.append_nil]
    refine ⟨fun j tag => ?_, fun j tag => ?_, fun j => ?_, fun j => ?_, hbytes⟩
    · rw [askedLoads, List.flatMap_append, ← askedLoads, hloads, List.append_assoc]
      by_cases hj : i = j
      · subst hj
        by_cases htag : q.tag = tag
        · subst htag
          simp
        · simp [htag, Function.update_of_ne (Ne.symm htag)]
      · simp [hj, Function.update_of_ne (Ne.symm hj)]
    · rw [Xbsv.arrived, List.flatMap_append, ← Xbsv.arrived, harrived]
      exact List.append_nil _
    · rw [askedStores, List.flatMap_append, ← askedStores, hstores]
      exact List.append_nil _
    · rw [Xbsv.sent, List.flatMap_append, ← Xbsv.sent, hsent]
      exact List.append_nil _
  | readData i d =>
    simp only [Ram.serve] at hx
    split at hx
    case h_1 => cases hx
    case h_2 b bs hb =>
      simp only [bind, pure, Option.bind_eq_some_iff, Option.some.injEq, Prod.mk.injEq] at hx
      obtain ⟨bytes', hreplay, rfl, rfl⟩ := hx
      refine ⟨fun j tag => ?_, fun j tag => ?_, fun j => ?_, fun j => ?_, ?_⟩
      · rw [askedLoads, List.flatMap_append, ← askedLoads, hloads, loaded, loaded, List.flatMap_append]
        by_cases hj : i = j
        · subst hj
          by_cases htag : d.tag = tag
          · subst htag
            simp [hb]
          · simp [htag, Function.update_of_ne (Ne.symm htag)]
        · simp [hj, Function.update_of_ne (Ne.symm hj)]
      · rw [Xbsv.arrived, List.flatMap_append, ← Xbsv.arrived, harrived, loaded, loaded, List.flatMap_append]
        by_cases hj : i = j ∧ d.tag = tag
        · simp [hj]
        · simp [hj]
      · rw [askedStores, List.flatMap_append, ← askedStores, hstores, stored, stored, List.flatMap_append]
        simp
      · rw [Xbsv.sent, List.flatMap_append, ← Xbsv.sent, hsent, stored, stored, List.flatMap_append]
        simp
      · rw [List.flatMap_append, replay_append hbytes]
        simpa [Access.ops] using hreplay
  | writeReq i req q =>
    cases hx
    rw [List.append_nil]
    refine ⟨fun j tag => ?_, fun j tag => ?_, fun j => ?_, fun j => ?_, hbytes⟩
    · rw [askedLoads, List.flatMap_append, ← askedLoads, hloads]
      exact List.append_nil _
    · rw [Xbsv.arrived, List.flatMap_append, ← Xbsv.arrived, harrived]
      exact List.append_nil _
    · rw [askedStores, List.flatMap_append, ← askedStores, hstores, List.append_assoc]
      by_cases hj : i = j
      · subst hj
        simp
      · simp [hj, Function.update_of_ne (Ne.symm hj)]
    · rw [Xbsv.sent, List.flatMap_append, ← Xbsv.sent, hsent]
      exact List.append_nil _
  | writeData i client d =>
    simp only [Ram.serve] at hx
    split at hx
    case h_1 => cases hx
    case h_2 b bs hb =>
      simp only [bind, pure, Option.bind_eq_some_iff, Option.some.injEq, Prod.mk.injEq] at hx
      obtain ⟨bytes', hreplay, rfl, rfl⟩ := hx
      refine ⟨fun j tag => ?_, fun j tag => ?_, fun j => ?_, fun j => ?_, ?_⟩
      · rw [askedLoads, List.flatMap_append, ← askedLoads, hloads, loaded, loaded, List.flatMap_append]
        simp
      · rw [Xbsv.arrived, List.flatMap_append, ← Xbsv.arrived, harrived, loaded, loaded, List.flatMap_append]
        simp
      · rw [askedStores, List.flatMap_append, ← askedStores, hstores, stored, stored, List.flatMap_append]
        by_cases hj : i = j
        · subst hj
          simp [hb]
        · simp [hj, Function.update_of_ne (Ne.symm hj)]
      · rw [Xbsv.sent, List.flatMap_append, ← Xbsv.sent, hsent, stored, stored, List.flatMap_append]
        by_cases hj : i = j
        · simp [hj]
        · simp [hj]
      · rw [List.flatMap_append, replay_append hbytes]
        simpa [Access.ops] using hreplay

/-- **What the memory makes of a trace.** -/
theorem Ram.served {es : List (DmaEvent ε ε' n numReaders numClients numReadTags numWriteTags addrWidth dataWidthBytes)}
    (h : ram.hears (Ram.idle bytes) es = some (m, as)) : Served bytes (es.filterMap memEvent?) as m := by
  rw [ram, Listener.hears_comap] at h
  refine Listener.hears_invariant (I := fun xs as m => Served bytes xs as m) (P := fun _ => True) (served_idle bytes) ?_
    (fun _ _ => trivial) h
  intro xs as m x m' as' hserved _ hx
  exact hserved.serve hx

end Memory

/-! ## The traces of the masters -/

section Traces

variable {ε ε' : Type} {n numReaders numClients numReadTags numWriteTags addrWidth dataWidthBytes : ℕ}
  (fs : List (DmaEvent ε ε' n numReaders numClients numReadTags numWriteTags addrWidth dataWidthBytes)) (i : Fin n)

/-- The events of a read master, and those of a write master. -/
def readTrace : List (MemRead.Event ε numReaders numReadTags addrWidth dataWidthBytes) :=
  ConfigServer.masterEvents i (ConfigServerRW.readerEvents fs)

def writeTrace : List (MemWrite.Event ε' numClients numWriteTags addrWidth dataWidthBytes) :=
  ConfigServer.masterEvents i (ConfigServerRW.writerEvents fs)

variable {β : Type} {f : MemEvent n numClients addrWidth dataWidthBytes → List β}

/-- What the memory knows of the events of a read master. -/
lemma flatMap_readTrace {g : MemRead.Event ε numReaders numReadTags addrWidth dataWidthBytes → List β}
    (hread : ∀ j e, (memEvent? (.reader (.master j e) : DmaEvent ε ε' n numReaders numClients numReadTags numWriteTags
      addrWidth dataWidthBytes)).toList.flatMap f = if j = i then g e else [])
    (hwrite : ∀ j e, (memEvent? (.writer (.master j e) : DmaEvent ε ε' n numReaders numClients numReadTags numWriteTags
      addrWidth dataWidthBytes)).toList.flatMap f = []) :
    (fs.filterMap memEvent?).flatMap f = (readTrace fs i).flatMap g := by
  simp only [readTrace, ConfigServer.masterEvents, ConfigServerRW.readerEvents, List.filterMap_eq_flatMap_toList,
    List.flatMap_assoc]
  refine congrArg (List.flatMap · fs) (funext fun e => ?_)
  rcases e with (⟨j, e⟩ | _ | _ | _ | _) | (⟨j, e⟩ | _ | _ | _ | _) | _ | _
  case reader.master =>
    rw [hread]
    by_cases hj : j = i
    · simp [hj]
    · simp [hj]
  case writer.master => exact hwrite j e
  all_goals rfl

/-- What the memory knows of the events of a write master. -/
lemma flatMap_writeTrace {g : MemWrite.Event ε' numClients numWriteTags addrWidth dataWidthBytes → List β}
    (hread : ∀ j e, (memEvent? (.reader (.master j e) : DmaEvent ε ε' n numReaders numClients numReadTags numWriteTags
      addrWidth dataWidthBytes)).toList.flatMap f = [])
    (hwrite : ∀ j e, (memEvent? (.writer (.master j e) : DmaEvent ε ε' n numReaders numClients numReadTags numWriteTags
      addrWidth dataWidthBytes)).toList.flatMap f = if j = i then g e else []) :
    (fs.filterMap memEvent?).flatMap f = (writeTrace fs i).flatMap g := by
  simp only [writeTrace, ConfigServer.masterEvents, ConfigServerRW.writerEvents, List.filterMap_eq_flatMap_toList,
    List.flatMap_assoc]
  refine congrArg (List.flatMap · fs) (funext fun e => ?_)
  rcases e with (⟨j, e⟩ | _ | _ | _ | _) | (⟨j, e⟩ | _ | _ | _ | _) | _ | _
  case writer.master =>
    rw [hwrite]
    by_cases hj : j = i
    · simp [hj]
    · simp [hj]
  case reader.master => exact hread j e
  all_goals rfl

/-- The beats that a read master asked for under a tag. -/
def MemRead.askedBeats (tag : BitVec 6) (tr : List (MemRead.Event ε numReaders numReadTags addrWidth dataWidthBytes)) :
    List Beat :=
  tr.flatMap fun
    | .readReq r m => if m.tag = tag then requestBeats dataWidthBytes r.req m else []
    | _ => []

/-- The beats that a write master was to send. -/
def MemWrite.askedBeats (tr : List (MemWrite.Event ε' numClients numWriteTags addrWidth dataWidthBytes)) : List Beat :=
  tr.flatMap fun
    | .writeReq r m => requestBeats dataWidthBytes r.req m
    | _ => []

/-- The number of beats asked for. -/
lemma MemRead.length_askedBeats (tag : BitVec 6)
    (tr : List (MemRead.Event ε numReaders numReadTags addrWidth dataWidthBytes)) :
    (MemRead.askedBeats tag tr).length = (((tr.filterMap MemRead.Event.memRequest?).filter fun m => m.tag = tag).map
      fun m => beats dataWidthBytes m.burstLen).sum := by
  induction tr with
  | nil => rfl
  | cons e tr ih =>
    rw [askedBeats, List.flatMap_cons, List.length_append, ← askedBeats, ih]
    cases e with
    | readReq r m =>
      by_cases htag : m.tag = tag
      · simp [Event.memRequest?, htag, requestBeats]
      · simp [Event.memRequest?, htag]
    | _ => exact Nat.zero_add _

/-- The beats asked for under a tag are those of the requests handed over under it. -/
lemma MemRead.askedBeats_eq {tr : List (MemRead.Event ε numReaders numReadTags addrWidth dataWidthBytes)}
    (hm : tr.filterMap MemRead.Event.memRequest? = (tr.filterMap MemRead.Event.handed?).map RRec.memRequest)
    (tag : BitVec 6) : MemRead.askedBeats tag tr =
      ((tr.filterMap MemRead.Event.handed?).filter fun r => memTag r.renameTag = tag).flatMap fun r =>
        requestBeats dataWidthBytes r.req r.memRequest := by
  induction tr with
  | nil => rfl
  | cons e tr ih =>
    cases e with
    | readReq r m =>
      obtain ⟨rfl, hms⟩ := List.cons.inj hm
      rw [askedBeats, List.flatMap_cons, ← askedBeats, ih hms]
      by_cases htag : memTag r.renameTag = tag
      · simp [Event.handed?, RRec.memRequest, htag]
      · simp [Event.handed?, RRec.memRequest, htag]
    | _ => exact ih hm

/-- Those that requests under a rename tag ask for. -/
lemma MemRead.askedBeats_memTag (hn : numReadTags ≤ 64)
    {tr : List (MemRead.Event ε numReaders numReadTags addrWidth dataWidthBytes)}
    (hm : tr.filterMap MemRead.Event.memRequest? = (tr.filterMap MemRead.Event.handed?).map RRec.memRequest)
    (t : Fin numReadTags) : MemRead.askedBeats (memTag t) tr =
      (MemRead.history t tr).requests.flatMap fun r => requestBeats dataWidthBytes r.req r.memRequest := by
  rw [askedBeats_eq hm, history]
  congr 2
  funext r
  rw [decide_eq_decide]
  exact memTag_inj hn

/-- The beats of all requests of a write module. -/
lemma MemWrite.askedBeats_eq {tr : List (MemWrite.Event ε' numClients numWriteTags addrWidth dataWidthBytes)}
    (hm : tr.filterMap MemWrite.Event.memRequest? = (tr.filterMap MemWrite.Event.handed?).map RRec.memRequest) :
    MemWrite.askedBeats tr =
      (tr.filterMap MemWrite.Event.handed?).flatMap fun r => requestBeats dataWidthBytes r.req r.memRequest := by
  induction tr with
  | nil => rfl
  | cons e tr ih =>
    cases e with
    | writeReq r m =>
      obtain ⟨rfl, hms⟩ := List.cons.inj hm
      rw [askedBeats, List.flatMap_cons, ← askedBeats, ih hms]
      rfl
    | _ => exact ih hm

lemma askedLoads_memEvents (tag : BitVec 6) :
    askedLoads i tag (fs.filterMap memEvent?) = MemRead.askedBeats tag (readTrace fs i) := by
  refine flatMap_readTrace fs i (fun j e => ?_) (fun j e => ?_)
  · by_cases hj : j = i
    · cases e <;> simp [memEvent?, hj]
    · cases e <;> simp [memEvent?, hj]
  · cases e <;> rfl

lemma arrived_memEvents (tag : BitVec 6) : arrived i tag (fs.filterMap memEvent?) =
    (((readTrace fs i).filterMap MemRead.Event.memBeat?).filter fun d => d.tag = tag).map (·.data) := by
  rw [← List.filterMap_eq_filter, List.map_filterMap, List.filterMap_filterMap,
    List.filterMap_eq_flatMap_toList _ (readTrace fs i)]
  refine flatMap_readTrace fs i (fun j e => ?_) (fun j e => ?_)
  · by_cases hj : j = i
    · cases e with
      | readData d => by_cases htag : d.tag = tag <;> simp [memEvent?, MemRead.Event.memBeat?, hj, htag]
      | _ => simp [memEvent?, MemRead.Event.memBeat?, hj]
    · cases e <;> simp [memEvent?, hj]
  · cases e <;> rfl

lemma askedStores_memEvents : askedStores i (fs.filterMap memEvent?) = MemWrite.askedBeats (writeTrace fs i) := by
  refine flatMap_writeTrace fs i (fun j e => ?_) (fun j e => ?_)
  · cases e <;> rfl
  · by_cases hj : j = i
    · cases e <;> simp [memEvent?, hj]
    · cases e <;> simp [memEvent?, hj]

lemma sent_memEvents : sent i (fs.filterMap memEvent?) =
    ((writeTrace fs i).filterMap MemWrite.Event.sent?).map fun x => (x.1, x.2.2.data) := by
  rw [List.map_filterMap, List.filterMap_eq_flatMap_toList _ (writeTrace fs i)]
  refine flatMap_writeTrace fs i (fun j e => ?_) (fun j e => ?_)
  · cases e <;> rfl
  · by_cases hj : j = i
    · cases e <;> simp [memEvent?, MemWrite.Event.sent?, hj]
    · cases e <;> simp [memEvent?, hj]

end Traces

end Xbsv
