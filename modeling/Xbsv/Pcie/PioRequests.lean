import Xbsv.Pcie.ReadCompletions

set_option relaxedAutoImplicit false
set_option autoImplicit false

/-!
# The requests of register reads and writes

`tlp.response.put` takes every beat. It looks at the format, which is that of a packet only in the first beat, and it
drops a header for which there is no room, so that a packet may be lost and a beat of data may be taken for a
packet. Where every first beat finds room and no other beat does, there is one request for each packet.

## Main definitions

* `Xbsv.IsRequestPacket` — a read, or a write with its data.
* `Xbsv.Accepted` — a beat is taken if and only if it is the first of its packet.

## Main results

* `Xbsv.requests_of_packets` — one request for each packet, in order, in the runs that accept their beats.
* `Xbsv.not_accounted` — as soon as a beat is not accepted there are too many requests or too few.
-/

namespace Xbsv

open Rules MemMasterEngine

/-- The header in a beat. -/
def TLPData.hdr3dw (t : TLPData) : TLPMemoryIO3DWHeader := .unpack t.data

/-- A short read of one beat, or a short write. -/
structure IsRequestPacket (p : List TLPData) : Prop where
  packet : IsPacket p
  format : ∀ t, p.head? = some t →
    (t.hdr3dw.format = .memRead3DWNoData ∧ p.length = 1) ∨ t.hdr3dw.format = .memWrite3DWData

/-- The header is that of a read. -/
def TLPMemoryIO3DWHeader.isRead (hdr : TLPMemoryIO3DWHeader) : Bool := hdr.format = .memRead3DWNoData

/-- The requests for the reads among some first beats. -/
def readsOf (ts : List TLPData) : List (MemRequest 32) :=
  ((ts.map TLPData.hdr3dw).filter fun hdr => hdr.isRead).map TLPMemoryIO3DWHeader.memRequest

/-- The requests for the writes among some first beats. -/
def writesOf (ts : List TLPData) : List (MemRequest 32) :=
  ((ts.map TLPData.hdr3dw).filter fun hdr => !hdr.isRead).map TLPMemoryIO3DWHeader.memRequest

@[simp] lemma readsOf_append (ts ts' : List TLPData) : readsOf (ts ++ ts') = readsOf ts ++ readsOf ts' := by
  simp [readsOf]

@[simp] lemma writesOf_append (ts ts' : List TLPData) : writesOf (ts ++ ts') = writesOf ts ++ writesOf ts' := by
  simp [writesOf]

/-- The first beats of packets are those with `sof`. -/
lemma filter_sof_flatten {ps : List (List TLPData)} (h : ∀ p ∈ ps, IsPacket p) :
    ps.flatten.filter TLPData.sof = ps.filterMap List.head? := by
  induction ps with
  | nil => rfl
  | cons p ps ih =>
    obtain ⟨hfirst, -⟩ := h p (by simp)
    have hrest := ih fun p' hp' => h p' (by simp [hp'])
    have hp : p.filter TLPData.sof = p.head?.toList := by
      cases p with
      | nil => rfl
      | cons t ts =>
        obtain ⟨ht, hts⟩ := hfirst
        rw [List.filter_cons_of_pos ht, List.filter_eq_nil_iff.mpr fun u hu => by simp [hts u hu]]
        rfl
    rw [List.flatten_cons, List.filter_append, hp, hrest]
    cases p with
    | nil => rfl
    | cons t ts => rfl

/-! ## What goes in and out -/

namespace MemMasterEngine

/-- The beats that have come. -/
def receivedBeats (tr : List Event) : List TLPData :=
  tr.filterMap fun
    | .response tlp => some tlp
    | _ => none

/-- The read requests that have been obtained. -/
def readRequests (tr : List Event) : List (MemRequest 32) :=
  tr.filterMap fun
    | .readReq _ req => some req
    | _ => none

/-- The write requests that have been obtained. -/
def writeRequests (tr : List Event) : List (MemRequest 32) :=
  tr.filterMap fun
    | .writeReq _ req => some req
    | _ => none

@[simp] lemma receivedBeats_append (tr es : List Event) :
    receivedBeats (tr ++ es) = receivedBeats tr ++ receivedBeats es :=
  List.filterMap_append

@[simp] lemma readRequests_append (tr es : List Event) :
    readRequests (tr ++ es) = readRequests tr ++ readRequests es := List.filterMap_append

@[simp] lemma writeRequests_append (tr es : List Event) :
    writeRequests (tr ++ es) = writeRequests tr ++ writeRequests es := List.filterMap_append

/-- The queue a beat goes to, if it is taken. -/
def headerFifo (s : MemMasterEngine) (t : TLPData) : Fifo 8 TLPMemoryIO3DWHeader :=
  if t.hdr3dw.isRead then s.readHeaderFifo else s.writeHeaderFifo

/-- The requests that have been obtained, and those that can be. -/
def allReads (tr : List Event) (s : MemMasterEngine) : List (MemRequest 32) :=
  readRequests tr ++ s.readHeaderFifo.items.map TLPMemoryIO3DWHeader.memRequest

/-- The requests that have been obtained, and those that can be. -/
def allWrites (tr : List Event) (s : MemMasterEngine) : List (MemRequest 32) :=
  writeRequests tr ++ s.writeHeaderFifo.items.map TLPMemoryIO3DWHeader.memRequest

end MemMasterEngine

/-- There is room for a beat that comes if and only if it is the first of its packet. -/
def Accepted (s : MemMasterEngine) : Action → Prop
  | .response t => t.sof = decide ((s.headerFifo t).items.length < 8)
  | _ => True

instance (s : MemMasterEngine) (a : Action) : Decidable (Accepted s a) := by
  cases a <;> unfold Accepted <;> infer_instance

/-- There is one request for each packet that has begun to come. -/
structure Accounted (tr : List Event) (s : MemMasterEngine) : Prop where
  reads : allReads tr s = readsOf ((receivedBeats tr).filter TLPData.sof)
  writes : allWrites tr s = writesOf ((receivedBeats tr).filter TLPData.sof)

namespace MemMasterEngine

/-- `enq` unless the queue is full. -/
lemma items_enqIfRoom {n : ℕ} {α : Type} (q : Fifo n α) (x : α) :
    (enqIfRoom q x).items = q.items ++ if q.items.length < n then [x] else [] := by
  unfold enqIfRoom Fifo.enq
  split
  · rfl
  · simp

variable {s s' : MemMasterEngine} {tr : List Event} {t : TLPData}

/-- What a beat does to the read requests. -/
lemma allReads_response :
    allReads (tr ++ [Event.response t]) (s.response t) =
      allReads tr s ++ if (s.headerFifo t).items.length < 8 then readsOf [t] else [] := by
  have hreqs : readRequests (tr ++ [Event.response t]) = readRequests tr := by simp [readRequests]
  unfold allReads
  rw [hreqs, List.append_assoc]
  congr 1
  cases hread : t.hdr3dw.isRead with
  | true =>
    have hformat : (TLPMemoryIO3DWHeader.unpack t.data).format = .memRead3DWNoData := of_decide_eq_true hread
    have hone : readsOf [t] = [t.hdr3dw.memRequest] := by simp [readsOf, hread]
    simp only [response, hformat, if_true, headerFifo, hread, items_enqIfRoom, List.map_append, hone]
    split <;> rfl
  | false =>
    have hformat : ¬ (TLPMemoryIO3DWHeader.unpack t.data).format = .memRead3DWNoData := of_decide_eq_false hread
    have hnone : readsOf [t] = [] := by simp [readsOf, hread]
    simp [response, hformat, hnone]

/-- What a beat does to the write requests. -/
lemma allWrites_response :
    allWrites (tr ++ [Event.response t]) (s.response t) =
      allWrites tr s ++ if (s.headerFifo t).items.length < 8 then writesOf [t] else [] := by
  have hreqs : writeRequests (tr ++ [Event.response t]) = writeRequests tr := by simp [writeRequests]
  unfold allWrites
  rw [hreqs, List.append_assoc]
  congr 1
  cases hread : t.hdr3dw.isRead with
  | true =>
    have hformat : (TLPMemoryIO3DWHeader.unpack t.data).format = .memRead3DWNoData := of_decide_eq_true hread
    have hnone : writesOf [t] = [] := by simp [writesOf, hread]
    simp [response, hformat, hnone]
  | false =>
    have hformat : ¬ (TLPMemoryIO3DWHeader.unpack t.data).format = .memRead3DWNoData := of_decide_eq_false hread
    have hone : writesOf [t] = [t.hdr3dw.memRequest] := by simp [writesOf, hread]
    simp only [response, hformat, if_false, headerFifo, hread, items_enqIfRoom, List.map_append, hone,
      Bool.false_eq_true]
    split <;> rfl

end MemMasterEngine

namespace Accounted

variable {c : MasterConfig} {s s' : MemMasterEngine} {tr : List Event} {t : TLPData} {hdr : TLPMemoryIO3DWHeader}

lemma reset : Accounted [] MemMasterEngine.reset := ⟨rfl, rfl⟩

/-- A beat that is accepted. -/
lemma response (h : Accounted tr s) (hok : Accepted s (.response t)) :
    Accounted (tr ++ [MemMasterEngine.Event.response t]) (s.response t) := by
  have hin : receivedBeats (tr ++ [MemMasterEngine.Event.response t]) = receivedBeats tr ++ [t] := by
    simp [receivedBeats]
  have hsof : t.sof = decide ((s.headerFifo t).items.length < 8) := hok
  constructor
  · rw [allReads_response, h.reads, hin, List.filter_append, readsOf_append]
    congr 1
    cases ht : t.sof with
    | true => rw [if_pos (of_decide_eq_true (hsof.symm.trans ht)), List.filter_cons_of_pos ht, List.filter_nil]
    | false => rw [if_neg (of_decide_eq_false (hsof.symm.trans ht)), List.filter_cons_of_neg (by simp [ht])]; rfl
  · rw [allWrites_response, h.writes, hin, List.filter_append, writesOf_append]
    congr 1
    cases ht : t.sof with
    | true => rw [if_pos (of_decide_eq_true (hsof.symm.trans ht)), List.filter_cons_of_pos ht, List.filter_nil]
    | false => rw [if_neg (of_decide_eq_false (hsof.symm.trans ht)), List.filter_cons_of_neg (by simp [ht])]; rfl

/-- A step that does not touch the headers. -/
lemma frame (h : Accounted tr s) {es : List Event} (hin : receivedBeats es = []) (hreads : readRequests es = [])
    (hwrites : writeRequests es = []) (hrq : s'.readHeaderFifo = s.readHeaderFifo)
    (hwq : s'.writeHeaderFifo = s.writeHeaderFifo) : Accounted (tr ++ es) s' := by
  constructor
  · unfold allReads
    rw [readRequests_append, hreads, receivedBeats_append, hin, List.append_nil, List.append_nil, hrq]
    exact h.reads
  · unfold allWrites
    rw [writeRequests_append, hwrites, receivedBeats_append, hin, List.append_nil, List.append_nil, hwq]
    exact h.writes

/-- A read request is obtained. -/
lemma readReq (h : Accounted tr s) (hs : s.readReq = some (hdr, s')) :
    Accounted (tr ++ [MemMasterEngine.Event.readReq hdr hdr.memRequest]) s' := by
  obtain ⟨⟨hdr', q⟩, hq, hs⟩ := Option.bind_eq_some_iff.mp hs
  obtain ⟨q', -, hs⟩ := Option.bind_eq_some_iff.mp hs
  cases hs
  have hitems := Fifo.deq_eq_some.mp hq
  have hin : receivedBeats (tr ++ [MemMasterEngine.Event.readReq hdr hdr.memRequest]) = receivedBeats tr := by
    simp [receivedBeats]
  have hreads := h.reads
  unfold allReads at hreads
  rw [hitems] at hreads
  constructor
  · unfold allReads
    rw [hin, ← hreads]
    simp [readRequests]
  · rw [hin, ← h.writes]
    simp [allWrites, writeRequests]

/-- A write request is obtained. -/
lemma writeReq (h : Accounted tr s) (hs : s.writeReq = some (hdr, s')) :
    Accounted (tr ++ [MemMasterEngine.Event.writeReq hdr hdr.memRequest]) s' := by
  obtain ⟨⟨hdr', q⟩, hq, hs⟩ := Option.bind_eq_some_iff.mp hs
  obtain ⟨q', -, hs⟩ := Option.bind_eq_some_iff.mp hs
  cases hs
  have hitems := Fifo.deq_eq_some.mp hq
  have hin : receivedBeats (tr ++ [MemMasterEngine.Event.writeReq hdr hdr.memRequest]) = receivedBeats tr := by
    simp [receivedBeats]
  have hwrites := h.writes
  unfold allWrites at hwrites
  rw [hitems] at hwrites
  constructor
  · rw [hin, ← h.reads]
    simp [allReads, readRequests]
  · unfold allWrites
    rw [hin, ← hwrites]
    simp [writeRequests]

/-- The registers and the other queues are not headers. -/
lemma settle_headers {rbc : BitVec 10} (hs : s.settle rbc = some s') :
    s'.readHeaderFifo = s.readHeaderFifo ∧ s'.writeHeaderFifo = s.writeHeaderFifo := by
  obtain ⟨q, -, hs⟩ := Option.bind_eq_some_iff.mp hs
  cases hs
  exact ⟨rfl, rfl⟩

/-- `continuation` leaves the headers as they are. -/
lemma continuation_headers {stale : ℕ → BitVec 32} {o : Option TLPData} (hs : s.continuation c stale = some (s', o)) :
    s'.readHeaderFifo = s.readHeaderFifo ∧ s'.writeHeaderFifo = s.writeHeaderFifo := by
  have hsend {count : ℕ} {be : BitVec 16} {eof : Bool} {rbc : BitVec 10}
      (h : s.sendWords c stale count be eof rbc = some (s', o)) :
      s'.readHeaderFifo = s.readHeaderFifo ∧ s'.writeHeaderFifo = s.writeHeaderFifo := by
    rcases sendWords_cases h with ⟨q, m, o, -, -, -, -, rfl⟩ | ⟨-, h⟩
    · exact ⟨rfl, rfl⟩
    · exact settle_headers h
  unfold continuation at hs
  split at hs
  · cases hs
  · split at hs
    · exact hsend hs
    · exact hsend hs

/-- Every step of a run that accepts its beats. -/
lemma step (h : Accounted tr s) {a : Action} {es : List Event} (hok : Accepted s a)
    (hs : (memMasterEngine c).step s a = some (s', es)) : Accounted (tr ++ es) s' := by
  cases a with
  | response tlp =>
    cases hs
    exact h.response hok
  | request =>
    obtain ⟨⟨tlp, s₁⟩, hs₁, hs⟩ := Option.bind_eq_some_iff.mp hs
    cases hs
    obtain ⟨⟨tlp', o⟩, -, hs₁⟩ := Option.bind_eq_some_iff.mp hs₁
    cases hs₁
    exact h.frame rfl rfl rfl rfl rfl
  | readReq =>
    obtain ⟨⟨hdr, s₁⟩, hs₁, hs⟩ := Option.bind_eq_some_iff.mp hs
    cases hs
    exact h.readReq hs₁
  | readData resp =>
    obtain ⟨s₁, hs₁, hs⟩ := Option.bind_eq_some_iff.mp hs
    cases hs
    unfold readData at hs₁
    split at hs₁
    · obtain ⟨m, -, hs₁⟩ := Option.bind_eq_some_iff.mp hs₁
      cases hs₁
      exact h.frame rfl rfl rfl rfl rfl
    · cases hs₁
  | writeReq =>
    obtain ⟨⟨hdr, s₁⟩, hs₁, hs⟩ := Option.bind_eq_some_iff.mp hs
    cases hs
    exact h.writeReq hs₁
  | writeData =>
    obtain ⟨⟨data, s₁⟩, hs₁, hs⟩ := Option.bind_eq_some_iff.mp hs
    cases hs
    obtain ⟨⟨hdr', q⟩, -, hs₁⟩ := Option.bind_eq_some_iff.mp hs₁
    cases hs₁
    exact h.frame rfl rfl rfl rfl rfl
  | writeDone tag =>
    cases hs
    exact h.frame rfl rfl rfl rfl rfl
  | completionHeader =>
    obtain ⟨⟨s₁, tlp⟩, hs₁, hs⟩ := Option.bind_eq_some_iff.mp hs
    cases hs
    obtain ⟨hdr, d, q, m, o, -, -, -, -, -, -, rfl⟩ := completionHeader_eq_some hs₁
    exact h.frame rfl rfl rfl rfl rfl
  | continuation stale =>
    obtain ⟨⟨s₁, o⟩, hs₁, hs⟩ := Option.bind_eq_some_iff.mp hs
    cases hs
    obtain ⟨hrq, hwq⟩ := continuation_headers hs₁
    exact h.frame rfl rfl rfl hrq hwq

end Accounted

/-- **One request for each packet.** Let packets come of which every first beat finds room and no other beat does.
The read requests that have been obtained or wait are those of the reads that have begun to come, in order, with
their addresses and tags, and the same holds of the writes; these are all the packets as soon as all the beats have
come.

**Proof sketch.** A beat adds one request of its kind if there is room and none if there is not, and the first
beats of the packets are those with `sof`. -/
theorem requests_of_packets {c : MasterConfig} {tr : List Event} {s : MemMasterEngine}
    (h : ((memMasterEngine c).guard Accepted).Reaches .reset tr s) {ps : List (List TLPData)}
    (hps : ∀ p ∈ ps, IsRequestPacket p) (hin : receivedBeats tr <+: ps.flatten) :
    (∃ first, first <+: ps.filterMap List.head? ∧ first = (receivedBeats tr).filter TLPData.sof ∧
      allReads tr s = readsOf first ∧ allWrites tr s = writesOf first) ∧
    (receivedBeats tr = ps.flatten →
      allReads tr s = readsOf (ps.filterMap List.head?) ∧
        allWrites tr s = writesOf (ps.filterMap List.head?)) := by
  have hacc : Accounted tr s := by
    refine h.invariant (I := fun tr (s : MemMasterEngine) => Accounted tr s) .reset ?_
    intro tr s a s' es ih hs
    obtain ⟨hok, hs⟩ := RuleSystem.guard_step.mp hs
    exact ih.step hok hs
  have hheads := filter_sof_flatten fun p hp => (hps p hp).packet
  refine ⟨⟨_, ?_, rfl, hacc.reads, hacc.writes⟩, fun hall => ?_⟩
  · rw [← hheads]
    exact hin.filter _
  · rw [← hheads, ← hall]
    exact ⟨hacc.reads, hacc.writes⟩

/-- A write of one word, with the tag 5. -/
def oneWordWrite : List TLPData := [⟨true, true, 4, 0xffff, 0x400000010000050f0000030011111111⟩]

/-- A write of two words, with the tag 6; as a header the second beat would be that of a read. -/
def twoWordWrite : List TLPData :=
  [⟨true, false, 4, 0xffff, 0x40000002000006ff0000040022222222⟩,
    ⟨false, true, 4, 0xf000, 0x00000033000000000000000000000000⟩]

lemma isRequestPacket_oneWordRead : IsRequestPacket [oneWordRead] where
  packet := ⟨⟨rfl, fun _ h => by cases h⟩, [], oneWordRead, rfl, rfl, fun _ h => by cases h⟩
  format t ht := by
    obtain rfl := Option.some.inj ht
    exact .inl ⟨by decide, rfl⟩

lemma isRequestPacket_oneWordWrite : IsRequestPacket oneWordWrite where
  packet := ⟨⟨rfl, fun _ h => by cases h⟩, [], oneWordWrite[0], rfl, rfl, fun _ h => by cases h⟩
  format t ht := by
    obtain rfl := Option.some.inj ht
    exact .inr (by decide)

lemma isRequestPacket_twoWordWrite : IsRequestPacket twoWordWrite where
  packet := ⟨⟨rfl, by simp⟩, [twoWordWrite[0]], twoWordWrite[1], rfl, rfl, by simp [twoWordWrite]⟩
  format t ht := by
    obtain rfl := Option.some.inj ht
    exact .inr (by decide)

/-- Eight reads wait, so that the second beat of the write is not taken for a read. -/
def acceptedPackets :=
  ((memMasterEngine zeroMaster).guard Accepted).run .reset
    (List.replicate 8 (.response oneWordRead) ++ twoWordWrite.map .response ++
      [.readReq, .writeReq] ++ oneWordWrite.map .response)

/-- The packets of that run. -/
def tenPackets : List (List TLPData) := List.replicate 8 [oneWordRead] ++ [twoWordWrite, oneWordWrite]

theorem requests_of_packets_tenPackets :
    (writeRequests acceptedPackets.2 = [⟨0x400, 2, 6⟩] ∧
      acceptedPackets.1.writeHeaderFifo.items.map TLPMemoryIO3DWHeader.memRequest = [⟨0x300, 1, 5⟩] ∧
      receivedBeats acceptedPackets.2 = tenPackets.flatten) ∧
    (∃ first, first <+: tenPackets.filterMap List.head? ∧
      first = (receivedBeats acceptedPackets.2).filter TLPData.sof ∧
      allReads acceptedPackets.2 acceptedPackets.1 = readsOf first ∧
      allWrites acceptedPackets.2 acceptedPackets.1 = writesOf first) ∧
    (receivedBeats acceptedPackets.2 = tenPackets.flatten →
      allReads acceptedPackets.2 acceptedPackets.1 = readsOf (tenPackets.filterMap List.head?) ∧
        allWrites acceptedPackets.2 acceptedPackets.1 = writesOf (tenPackets.filterMap List.head?)) := by
  refine ⟨by decide +kernel, requests_of_packets (RuleSystem.reaches_run _ _) (fun p hp => ?_)
    (by decide +kernel)⟩
  rcases List.mem_append.mp hp with hp | hp
  · rw [List.eq_of_mem_replicate hp]
    exact isRequestPacket_oneWordRead
  · simp only [List.mem_cons, List.not_mem_nil, or_false] at hp
    rcases hp with rfl | rfl
    · exact isRequestPacket_twoWordWrite
    · exact isRequestPacket_oneWordWrite

/-- The second beat of a write is taken for a read of 0x33 words, and the read is made. -/
def inventedRead :=
  (memMasterEngine zeroMaster).run .reset (twoWordWrite.map .response ++ [.readReq])

/-- Nine reads come, and there is room for eight. -/
def lostRead :=
  (memMasterEngine zeroMaster).run .reset (List.replicate 9 (.response oneWordRead))

theorem invented_and_lost :
    (IsRequestPacket twoWordWrite ∧ receivedBeats inventedRead.2 = twoWordWrite ∧
      readsOf ([twoWordWrite].filterMap List.head?) = [] ∧ readRequests inventedRead.2 = [⟨0, 0x33, 0⟩]) ∧
    (IsRequestPacket [oneWordRead] ∧ receivedBeats lostRead.2 = (List.replicate 9 [oneWordRead]).flatten ∧
      readsOf ((List.replicate 9 [oneWordRead]).filterMap List.head?) = List.replicate 9 ⟨0x200, 1, 4⟩ ∧
      allReads lostRead.2 lostRead.1 = List.replicate 8 ⟨0x200, 1, 4⟩) :=
  ⟨⟨isRequestPacket_twoWordWrite, by decide +kernel⟩, isRequestPacket_oneWordRead, by decide +kernel⟩

/-- As soon as a beat is not accepted there are too many requests or too few. -/
theorem not_accounted {tr : List Event} {s : MemMasterEngine} (h : Accounted tr s) {t : TLPData}
    (hno : ¬ Accepted s (.response t)) : ¬ Accounted (tr ++ [MemMasterEngine.Event.response t]) (s.response t) := by
  intro h'
  have hin : receivedBeats (tr ++ [MemMasterEngine.Event.response t]) = receivedBeats tr ++ [t] := by
    simp [receivedBeats]
  have hreads := h'.reads
  have hwrites := h'.writes
  rw [allReads_response, h.reads, hin, List.filter_append, readsOf_append] at hreads
  rw [allWrites_response, h.writes, hin, List.filter_append, writesOf_append] at hwrites
  have hreads := List.append_cancel_left hreads
  have hwrites := List.append_cancel_left hwrites
  have hno : ¬ t.sof = decide ((s.headerFifo t).items.length < 8) := hno
  have hone : readsOf [t] ≠ [] ∨ writesOf [t] ≠ [] := by
    cases hread : t.hdr3dw.isRead with
    | true => exact .inl (by simp [readsOf, hread])
    | false => exact .inr (by simp [writesOf, hread])
  by_cases hroom : (s.headerFifo t).items.length < 8
  · have ht : t.sof = false := by simpa [hroom] using hno
    rw [if_pos hroom, List.filter_cons_of_neg (by simp [ht])] at hreads hwrites
    exact hone.elim (fun hne => hne hreads) fun hne => hne hwrites
  · have ht : t.sof = true := by simpa [hroom] using hno
    rw [if_neg hroom, List.filter_cons_of_pos ht] at hreads hwrites
    exact hone.elim (fun hne => hne hreads.symm) fun hne => hne hwrites.symm

end Xbsv
