import Xbsv.Dma.MemWrite

set_option relaxedAutoImplicit false
set_option autoImplicit false

/-!
# Routing of write data and of acknowledgements

The data of all requests goes to the memory through one counter, so it is one sequence: the chunks
of the requests handed over, in order, each taken from the stream of its client where the previous
chunk of that client ended (`expected`). The module is always somewhere inside that sequence: what
it has sent, followed by what its queue and its register still call for, is the whole of it.

Acknowledgements have a lane for each tag: the requests under a tag are those acknowledged, those
in the pipeline, those waiting in `respFifos`, and those whose data has not begun.

## Main definitions

* `Xbsv.Chunk`, `Xbsv.expected` — the chunks of requests, and the beats they call for.
* `Xbsv.MemWrite.chunks` — the chunks that the state still calls for.
* `Xbsv.MemWrite.DataRouted`, `Xbsv.MemWrite.Acknowledged` — the two invariants.
* `Xbsv.WritesRouted` — what holds of a run of the module.

## Main results

* `Xbsv.memWrite_routes` — write data and acknowledgements are routed, for every run.
-/

namespace Xbsv

open Rules SGList

variable {numClients numTags addrWidth dataWidthBytes : ℕ}

/-! ## Chunks -/

/-- A number of beats to take from the stream of a client and to send under a tag. -/
@[ext]
structure Chunk (numClients numTags : ℕ) where
  client : Fin numClients
  tag : Fin numTags
  len : ℕ
  deriving DecidableEq, Repr

/-- A beat sent to the memory, with the client and the position in its stream it was taken from. -/
abbrev Sent (numClients dataWidthBytes : ℕ) :=
  Fin numClients × ℕ × ObjectData (dataWidthBytes * 8)

/-- The chunk of a request. -/
def DRec.chunk (dataWidthBytes : ℕ) (d : DRec numClients numTags) : Chunk numClients numTags :=
  ⟨d.client, d.renameTag, beats dataWidthBytes d.req.burstLen⟩

section Expected

variable (stream : Fin numClients → ℕ → ObjectData (dataWidthBytes * 8))

/-- The beat at a position of a client's stream, sent under a tag. -/
def beatAt (client : Fin numClients) (t : Fin numTags) (position : ℕ) :
    Sent numClients dataWidthBytes :=
  (client, position, ⟨(stream client position).data, memTag t, false⟩)

/-- The positions after a chunk has been taken. -/
def advance (pos : Fin numClients → ℕ) (c : Chunk numClients numTags) : Fin numClients → ℕ :=
  Function.update pos c.client (pos c.client + c.len)

/-- The beats that chunks call for, starting from the given positions in the streams: each chunk is
taken where the previous chunk of its client ended. -/
def expected (pos : Fin numClients → ℕ) : List (Chunk numClients numTags) →
    List (Sent numClients dataWidthBytes)
  | [] => []
  | c :: cs => (List.range c.len).map (fun j => beatAt stream c.client c.tag (pos c.client + j)) ++
      expected (advance pos c) cs

variable {stream} {pos : Fin numClients → ℕ}

/-- Chunks handed over later come later. -/
lemma expected_append (cs ds : List (Chunk numClients numTags)) :
    expected stream pos (cs ++ ds) =
      expected stream pos cs ++ expected stream (cs.foldl advance pos) ds := by
  induction cs generalizing pos with
  | nil => rfl
  | cons c cs ih => simp [expected, ih]

variable (stream pos) in
/-- An empty chunk calls for nothing. -/
lemma expected_cons_zero {c : Chunk numClients numTags} (h : c.len = 0)
    (cs : List (Chunk numClients numTags)) :
    expected stream pos (c :: cs) = expected stream pos cs ∧ advance pos c = pos := by
  have ha : advance pos c = pos := by simp [advance, h]
  exact ⟨by simp [expected, h, ha], ha⟩

variable (stream pos) in
/-- The first beat of a chunk, and the rest of it. -/
lemma expected_cons_succ (c : Chunk numClients numTags) (m : ℕ)
    (cs : List (Chunk numClients numTags)) :
    expected stream pos ({ c with len := m + 1 } :: cs) =
        beatAt stream c.client c.tag (pos c.client) ::
          expected stream (Function.update pos c.client (pos c.client + 1))
            ({ c with len := m } :: cs) ∧
      advance pos { c with len := m + 1 } =
        advance (Function.update pos c.client (pos c.client + 1)) { c with len := m } := by
  have ha : advance pos { c with len := m + 1 } =
      advance (Function.update pos c.client (pos c.client + 1)) { c with len := m } := by
    simp only [advance, Function.update_self, Function.update_idem]
    congr 1
    omega
  refine ⟨?_, ha⟩
  simp only [expected, ha, List.range_succ_eq_map, List.map_cons, List.map_map, List.cons_append,
    Nat.add_zero, Function.update_self]
  congr 3
  funext j
  simp only [Function.comp_apply]
  congr 1
  omega

end Expected

namespace MemWrite

variable {σ τ κ ε : Type}

/-! ## Projections of a trace -/

/-- The request of a client accepted by `loadClient`. -/
def Event.accepted? : Event ε numClients numTags addrWidth dataWidthBytes →
    Option (LRec numClients)
  | .front e => e.accepted?
  | _ => none

/-- The record behind a request handed to the memory. -/
def Event.handed? : Event ε numClients numTags addrWidth dataWidthBytes →
    Option (RRec numClients numTags addrWidth)
  | .writeReq r _ => some r
  | _ => none

/-- The request that the memory got. -/
def Event.memRequest? : Event ε numClients numTags addrWidth dataWidthBytes →
    Option (MemRequest addrWidth)
  | .writeReq _ m => some m
  | _ => none

/-- The beat that the memory got, and where it was taken from. -/
def Event.sent? : Event ε numClients numTags addrWidth dataWidthBytes →
    Option (Sent numClients dataWidthBytes)
  | .writeData client position d => some (client, position, d)
  | _ => none

/-- The tag of an acknowledgement of the memory. -/
def Event.done? : Event ε numClients numTags addrWidth dataWidthBytes → Option (BitVec 6)
  | .writeDone resp => some resp
  | _ => none

/-- An acknowledgement that a client got: the tag of the memory's, and to whom it went. -/
def Event.acknowledged? : Event ε numClients numTags addrWidth dataWidthBytes →
    Option (BitVec 6 × RResp numClients)
  | .acknowledge resp client origTag => some (resp, ⟨origTag, client⟩)
  | _ => none

/-- The tag of a call of `return_tag`. -/
def Event.returned? : Event ε numClients numTags addrWidth dataWidthBytes → Option (Fin numTags)
  | .returnTag t => some t
  | _ => none

/-- The requests handed to the memory under a tag, by client and original tag. -/
def requestsUnder (t : Fin numTags)
    (tr : List (Event ε numClients numTags addrWidth dataWidthBytes)) : List (RResp numClients) :=
  ((tr.filterMap Event.handed?).filter fun r => r.renameTag = t).map fun r => toRResp (toDRec r)

/-- The acknowledgements delivered for those of the memory with the tag of `t`. -/
def acknowledgedUnder (t : Fin numTags)
    (tr : List (Event ε numClients numTags addrWidth dataWidthBytes)) : List (RResp numClients) :=
  ((tr.filterMap Event.acknowledged?).filter fun x => x.1 = memTag t).map Prod.snd

/-- The number of acknowledgements of the memory with the tag of `t`. -/
def donesUnder (t : Fin numTags)
    (tr : List (Event ε numClients numTags addrWidth dataWidthBytes)) : ℕ :=
  (tr.filterMap Event.done?).count (memTag t)

/-! ## The data sequence -/

/-- The number of beats that the oldest request still calls for. -/
def left (dataWidthBytes : ℕ) (s : MemWrite τ numClients numTags addrWidth)
    (d : DRec numClients numTags) : ℕ :=
  if s.burstReg = 0 then beats dataWidthBytes d.req.burstLen else s.burstReg.toNat

/-- The chunks that the state still calls for, oldest first. -/
def chunks (dataWidthBytes : ℕ) (s : MemWrite τ numClients numTags addrWidth) :
    List (Chunk numClients numTags) :=
  match s.dreqFifo.items with
  | [] => []
  | d :: ds => { d.chunk dataWidthBytes with len := s.left dataWidthBytes d } ::
      ds.map (DRec.chunk dataWidthBytes)

/-- The chunks of the requests handed to the memory. -/
def handedChunks (tr : List (Event ε numClients numTags addrWidth dataWidthBytes)) :
    List (Chunk numClients numTags) :=
  (tr.filterMap Event.handed?).map fun r => (toDRec r).chunk dataWidthBytes

/-- The invariant of the data: the beats sent, then the beats still called for, are the beats of
all requests handed over; and both end at the same positions in the streams. -/
structure DataRouted (stream : Fin numClients → ℕ → ObjectData (dataWidthBytes * 8))
    (tr : List (Event ε numClients numTags addrWidth dataWidthBytes))
    (s : MemWrite τ numClients numTags addrWidth) : Prop where
  data : expected stream (fun _ => 0) (handedChunks tr) =
    tr.filterMap Event.sent? ++ expected stream s.taken (s.chunks dataWidthBytes)
  positions : (handedChunks tr).foldl advance (fun _ => 0) =
    (s.chunks dataWidthBytes).foldl advance s.taken
  /-- What is queued was handed over. -/
  queued : ∀ d ∈ s.dreqFifo.items, ∃ r ∈ tr.filterMap Event.handed?, d = toDRec r

variable {sgl : Server σ ReqTup (BitVec addrWidth)} {tg : TagGen τ κ ε numClients numTags}
  {stream : Fin numClients → ℕ → ObjectData (dataWidthBytes * 8)}
  {w w' : σ} {s s' : MemWrite τ numClients numTags addrWidth}
  {a : Action κ numClients} {es tr : List (Event ε numClients numTags addrWidth dataWidthBytes)}

/-- Between bursts the queue holds whole chunks. -/
lemma chunks_of_idle (h0 : s.burstReg = 0) :
    s.chunks dataWidthBytes = s.dreqFifo.items.map (DRec.chunk dataWidthBytes) := by
  cases hq : s.dreqFifo.items with
  | nil => simp [chunks, hq]
  | cons d ds => simp [chunks, hq, left, h0, DRec.chunk]

variable (dataWidthBytes) in
/-- A new request adds its chunk at the end. -/
lemma chunks_enq {dreqs : Fifo (tagDepth * numTags) (DRec numClients numTags)}
    {d : DRec numClients numTags} (hu : s.burstReg ≠ 0 → s.dreqFifo.items ≠ [])
    (enq : dreqs.items = s.dreqFifo.items ++ [d])
    (front : FrontEnd τ numClients numTags addrWidth) :
    chunks dataWidthBytes { s with front := front, dreqFifo := dreqs } =
      s.chunks dataWidthBytes ++ [d.chunk dataWidthBytes] := by
  by_cases h0 : s.burstReg = 0
  · have h0' : ({ s with front := front, dreqFifo := dreqs } :
        MemWrite τ numClients numTags addrWidth).burstReg = 0 := h0
    rw [chunks_of_idle h0', chunks_of_idle h0, enq, List.map_append]
    rfl
  · obtain ⟨e, es, hq⟩ := List.exists_cons_of_ne_nil (hu h0)
    simp [chunks, enq, hq, left]

variable (stream) in
/-- **One beat takes the first position of the first chunk.**

**Proof sketch.** The count is the number of beats left, at least one. When it is one the chunk is
used up, the request leaves the queue and the register is zero; otherwise the register holds one
less. -/
lemma expected_afterBeat {k : ℕ} (hw : dataWidthBytes = 2 ^ k)
    {drq : DRec numClients numTags} {rest : List (DRec numClients numTags)}
    (first : s.dreqFifo.items = drq :: rest)
    (hb : WholeBurst dataWidthBytes drq.req.burstLen)
    (resps : Fin numTags → Fifo tagDepth (RResp numClients))
    {dreqs : Fifo (tagDepth * numTags) (DRec numClients numTags)}
    (deq : dreqs.items = if s.burstLen dataWidthBytes drq = 1 then rest else drq :: rest) :
    let s' := s.afterBeat dataWidthBytes drq resps dreqs
    expected stream s.taken (s.chunks dataWidthBytes) =
        beatAt stream drq.client drq.renameTag (s.taken drq.client) ::
          expected stream s'.taken (s'.chunks dataWidthBytes) ∧
      (s.chunks dataWidthBytes).foldl advance s.taken =
        (s'.chunks dataWidthBytes).foldl advance s'.taken := by
  intro s'
  have hs : s'.taken = Function.update s.taken drq.client (s.taken drq.client + 1) := rfl
  have hr : s'.burstReg = s.burstLen dataWidthBytes drq - 1 := rfl
  have deq : s'.dreqFifo.items = if s.burstLen dataWidthBytes drq = 1 then rest else drq :: rest :=
    deq
  -- the count is the number of beats left, and there is one
  have hcount : (s.burstLen dataWidthBytes drq).toNat = s.left dataWidthBytes drq ∧
      0 < s.left dataWidthBytes drq := by
    unfold burstLen left
    by_cases h0 : s.burstReg = 0
    · rw [if_pos h0, if_pos h0]
      exact ⟨WholeBurst.shift_toNat hw, hb.beats_pos⟩
    · rw [if_neg h0, if_neg h0]
      exact ⟨rfl, Nat.pos_of_ne_zero fun h => h0 (BitVec.eq_of_toNat_eq h)⟩
  obtain ⟨hc, hpos⟩ := hcount
  obtain ⟨m, hm⟩ : ∃ m, s.left dataWidthBytes drq = m + 1 :=
    ⟨s.left dataWidthBytes drq - 1, by omega⟩
  have hchunks : s.chunks dataWidthBytes =
      { drq.chunk dataWidthBytes with len := m + 1 } :: rest.map (DRec.chunk dataWidthBytes) := by
    simp only [chunks, first, hm]
  obtain ⟨he, ha⟩ := expected_cons_succ stream s.taken (drq.chunk dataWidthBytes) m
    (rest.map (DRec.chunk dataWidthBytes))
  have htaken : Function.update s.taken (drq.chunk dataWidthBytes).client
      (s.taken (drq.chunk dataWidthBytes).client + 1) = s'.taken := hs.symm
  rw [htaken] at he ha
  by_cases h1 : s.burstLen dataWidthBytes drq = 1
  · -- the last beat: nothing of the chunk is left, and the queue goes on
    obtain rfl : m = 0 := by
      rw [h1, hm] at hc
      have : 1 = m + 1 := hc
      omega
    have h0 : s'.burstReg = 0 := by rw [hr, h1]; rfl
    have hchunks' : s'.chunks dataWidthBytes = rest.map (DRec.chunk dataWidthBytes) := by
      rw [chunks_of_idle h0, deq, if_pos h1]
    obtain ⟨hz, hz'⟩ := expected_cons_zero stream s'.taken
      (c := { drq.chunk dataWidthBytes with len := 0 }) rfl (rest.map (DRec.chunk dataWidthBytes))
    rw [hchunks, hchunks', he, hz]
    refine ⟨rfl, ?_⟩
    rw [List.foldl_cons, ha, hz']
  · -- inside the burst: the register holds what is left
    have hm' : s'.burstReg.toNat = m := by
      have hle : (1 : BitVec 8).toNat ≤ (s.burstLen dataWidthBytes drq).toNat := by
        show 1 ≤ (s.burstLen dataWidthBytes drq).toNat
        omega
      rw [hr, BitVec.toNat_sub_of_le hle, hc, hm]
      rfl
    have h0 : s'.burstReg ≠ 0 := by
      intro h0
      refine h1 (BitVec.eq_of_toNat_eq ?_)
      rw [h0] at hm'
      have : 0 = m := hm'
      rw [hc, hm, ← this]
      rfl
    have hchunks' : s'.chunks dataWidthBytes =
        { drq.chunk dataWidthBytes with len := m } :: rest.map (DRec.chunk dataWidthBytes) := by
      simp only [chunks, deq, if_neg h1, left, if_neg h0, hm']
    rw [hchunks, hchunks', he]
    refine ⟨rfl, ?_⟩
    rw [List.foldl_cons, ha, List.foldl_cons]

@[simp] lemma handedChunks_append :
    handedChunks (tr ++ es) = handedChunks tr ++ handedChunks es := by
  simp [handedChunks]

/-- Steps that hand over no request and send no beat do not concern the data. -/
lemma DataRouted.frame (hd : DataRouted stream tr s) (hh : es.filterMap Event.handed? = [])
    (hs : es.filterMap Event.sent? = []) (ht : s'.taken = s.taken) (hq : s'.dreqFifo = s.dreqFifo)
    (hr : s'.burstReg = s.burstReg) : DataRouted stream (tr ++ es) s' := by
  have hc : s'.chunks dataWidthBytes = s.chunks dataWidthBytes := by simp only [chunks, left, hq, hr]
  have hh' : handedChunks (tr ++ es) = handedChunks tr := by simp [handedChunks, hh]
  obtain ⟨he, hp, hm⟩ := hd
  refine ⟨?_, ?_, ?_⟩
  · rw [hh', hc, ht, List.filterMap_append, hs, List.append_nil]
    exact he
  · rw [hh', hc, ht]
    exact hp
  · rw [hq, List.filterMap_append, hh, List.append_nil]
    exact hm

/-- **One step keeps the data in order.** -/
lemma DataRouted.step {k : ℕ} (hw : dataWidthBytes = 2 ^ k) (hd : DataRouted stream tr s)
    (hu : s.burstReg ≠ 0 → s.dreqFifo.items ≠ []) (h : Fires sgl tg stream w s a w' s' es)
    (hb : ∀ r ∈ tr.filterMap Event.handed?, WholeBurst dataWidthBytes r.req.burstLen) :
    DataRouted stream (tr ++ es) s' := by
  cases h with
  | front fires =>
    refine hd.frame ?_ ?_ rfl rfl rfl
    · simp [List.filterMap_map, Function.comp_def, Event.handed?]
    · simp [List.filterMap_map, Function.comp_def, Event.sent?]
  | @writeReq r reqs dreqs deq enq =>
    obtain ⟨he, hp, hm⟩ := hd
    have hc := chunks_enq dataWidthBytes hu enq { s.front with reqFifo := reqs }
    have hh : handedChunks [(.writeReq r r.memRequest :
        Event ε numClients numTags addrWidth dataWidthBytes)] =
        [(toDRec r).chunk dataWidthBytes] := rfl
    refine ⟨?_, ?_, ?_⟩
    · rw [hc, handedChunks_append, hh, expected_append, expected_append, he, hp]
      simp [List.filterMap_cons, Event.sent?]
    · rw [hc, handedChunks_append, hh, List.foldl_append, List.foldl_append, hp]
    · intro d hd
      rw [List.filterMap_append]
      rw [enq, List.mem_append, List.mem_singleton] at hd
      rcases hd with hd | rfl
      · obtain ⟨r', hr', rfl⟩ := hm d hd
        exact ⟨r', List.mem_append_left _ hr', rfl⟩
      · exact ⟨r, List.mem_append_right _ (by simp [Event.handed?]), rfl⟩
  | @writeData drq rest resps dreqs first resp deq =>
    obtain ⟨he, hp, hm⟩ := hd
    obtain ⟨r, hr, hdr⟩ := hm drq (by simp [first])
    have hburst : WholeBurst dataWidthBytes drq.req.burstLen := by
      rw [hdr]
      exact hb r hr
    obtain ⟨h1, h2⟩ := expected_afterBeat stream hw first hburst resps deq
    have hh : (tr ++ [(.writeData drq.client (s.taken drq.client)
        ⟨(stream drq.client (s.taken drq.client)).data, memTag drq.renameTag, false⟩ :
        Event ε numClients numTags addrWidth dataWidthBytes)]).filterMap Event.handed? =
        tr.filterMap Event.handed? := by
      simp [List.filterMap_cons, Event.handed?]
    refine ⟨?_, ?_, ?_⟩
    · rw [handedChunks, hh, ← handedChunks, he, h1]
      simp [Event.sent?, beatAt]
    · rw [handedChunks, hh, ← handedChunks, hp, h2]
    · intro d hd
      rw [hh]
      refine hm d ?_
      rw [first]
      have hd' : d ∈ dreqs.items := hd
      rw [deq] at hd'
      split at hd'
      · exact List.mem_cons_of_mem _ hd'
      · exact hd'
  | writeDone index deq enq =>
    exact hd.frame (by simp [List.filterMap_cons, Event.handed?])
      (by simp [List.filterMap_cons, Event.sent?]) rfl rfl rfl
  | writeDoneComp deq index ret =>
    exact hd.frame (by simp [List.filterMap_cons, Event.handed?])
      (by simp [List.filterMap_cons, Event.sent?]) rfl rfl rfl

/-! ## Requests and tags -/

/-- What holds of a run beside the data and the acknowledgements. -/
structure InOrder (tr : List (Event ε numClients numTags addrWidth dataWidthBytes))
    (s : MemWrite τ numClients numTags addrWidth) : Prop where
  passes : s.front.Passes (tr.filterMap Event.accepted?) (tr.filterMap Event.handed?)
  memRequests : tr.filterMap Event.memRequest? = (tr.filterMap Event.handed?).map RRec.memRequest
  /-- A request under way is in the queue. -/
  underWay : s.burstReg ≠ 0 → s.dreqFifo.items ≠ []
  /-- Acknowledgements in the pipeline have the tag of a lane. -/
  tags : ∀ x ∈ s.writeDonePipelineFifo.items, ∃ t : Fin numTags, x.2 = memTag t
  /-- Every acknowledgement to a client comes with one return of its tag. -/
  returned : (tr.filterMap Event.returned?).map memTag =
    (tr.filterMap Event.acknowledged?).map Prod.fst

/-- The register is zero after a beat exactly when the beat was the last one of its burst. -/
lemma afterBeat_burstReg_eq_zero {drq : DRec numClients numTags}
    {resps : Fin numTags → Fifo tagDepth (RResp numClients)}
    {dreqs : Fifo (tagDepth * numTags) (DRec numClients numTags)} :
    (s.afterBeat dataWidthBytes drq resps dreqs).burstReg = 0 ↔
      s.burstLen dataWidthBytes drq = 1 := by
  show s.burstLen dataWidthBytes drq - 1 = 0 ↔ _
  exact sub_eq_zero

/-- A request under way stays in the queue. -/
lemma Fires.underWay (hu : s.burstReg ≠ 0 → s.dreqFifo.items ≠ [])
    (h : Fires sgl tg stream w s a w' s' es) : s'.burstReg ≠ 0 → s'.dreqFifo.items ≠ [] := by
  cases h with
  | front fires => exact hu
  | writeReq deq enq =>
    intro _
    rw [enq]
    simp
  | @writeData drq rest resps dreqs first resp deq =>
    intro h0
    rw [Ne, afterBeat_burstReg_eq_zero] at h0
    show dreqs.items ≠ []
    rw [deq, if_neg h0]
    simp
  | writeDone index deq enq => exact hu
  | writeDoneComp deq index ret => exact hu

/-- One step keeps the order. -/
lemma InOrder.step (hn : numTags ≤ 64) (hi : InOrder tr s)
    (h : Fires sgl tg stream w s a w' s' es) : InOrder (tr ++ es) s' := by
  obtain ⟨hp, hm, hu, ht, hr⟩ := hi
  have hu' := h.underWay hu
  cases h with
  | front fires =>
    refine ⟨?_, ?_, hu', ht, ?_⟩
    · simpa [List.filterMap_map, Function.comp_def, Event.accepted?, Event.handed?]
        using hp.fires fires
    · simpa [List.filterMap_map, Function.comp_def, Event.memRequest?, Event.handed?] using hm
    · simpa [List.filterMap_map, Function.comp_def, Event.returned?, Event.acknowledged?] using hr
  | writeReq deq enq =>
    refine ⟨?_, ?_, hu', ht, ?_⟩
    · simpa [List.filterMap_cons, Event.accepted?, Event.handed?] using hp.hand deq
    · simp [Event.memRequest?, Event.handed?, hm]
    · simpa [List.filterMap_cons, Event.returned?, Event.acknowledged?] using hr
  | @writeData drq rest resps dreqs first resp deq =>
    refine ⟨?_, ?_, hu', ht, ?_⟩
    · simpa [List.filterMap_cons, Event.accepted?, Event.handed?, afterBeat] using hp
    · simpa [List.filterMap_cons, Event.memRequest?, Event.handed?] using hm
    · simpa [List.filterMap_cons, Event.returned?, Event.acknowledged?] using hr
  | @writeDone resp t rresp resps pipe index deq enq =>
    refine ⟨?_, ?_, hu', ?_, ?_⟩
    · simpa [List.filterMap_cons, Event.accepted?, Event.handed?] using hp
    · simpa [List.filterMap_cons, Event.memRequest?, Event.handed?] using hm
    · intro x hx
      rw [enq, List.mem_append, List.mem_singleton] at hx
      rcases hx with hx | rfl
      · exact ht x hx
      · exact ⟨t, (tagIndex_eq_some hn).mp index⟩
    · simpa [List.filterMap_cons, Event.returned?, Event.acknowledged?] using hr
  | @writeDoneComp resp t rresp pipe g deq index ret =>
    refine ⟨?_, ?_, hu', ?_, ?_⟩
    · simpa [List.filterMap_cons, Event.accepted?, Event.handed?, FrontEnd.Passes] using hp
    · simpa [List.filterMap_cons, Event.memRequest?, Event.handed?] using hm
    · intro x hx
      exact ht x (by rw [deq]; exact List.mem_cons_of_mem _ hx)
    · simp [List.filterMap_cons, Event.returned?, Event.acknowledged?, hr,
        (tagIndex_eq_some hn).mp index]

/-! ## Acknowledgements -/

/-- The requests under a tag whose data has not begun. -/
def unstarted (s : MemWrite τ numClients numTags addrWidth) (t : Fin numTags) :
    List (RResp numClients) :=
  ((if s.burstReg = 0 then s.dreqFifo.items else s.dreqFifo.items.tail).filter
    fun d => d.renameTag = t).map toRResp

/-- The acknowledgements of a tag in the pipeline. -/
def pipedUnder (s : MemWrite τ numClients numTags addrWidth) (t : Fin numTags) :
    List (RResp numClients) :=
  (s.writeDonePipelineFifo.items.filter fun x => x.2 = memTag t).map Prod.fst

/-- The invariant of the acknowledgements of tag `t`. -/
structure Acknowledged (t : Fin numTags)
    (tr : List (Event ε numClients numTags addrWidth dataWidthBytes))
    (s : MemWrite τ numClients numTags addrWidth) : Prop where
  requests : requestsUnder t tr = acknowledgedUnder t tr ++ s.pipedUnder t ++
    (s.respFifos t).items ++ s.unstarted t
  dones : donesUnder t tr = (acknowledgedUnder t tr).length + (s.pipedUnder t).length

/-- A beat begins the oldest request unless it has begun. -/
lemma unstarted_afterBeat {drq : DRec numClients numTags} {rest : List (DRec numClients numTags)}
    (first : s.dreqFifo.items = drq :: rest)
    (resps : Fin numTags → Fifo tagDepth (RResp numClients))
    {dreqs : Fifo (tagDepth * numTags) (DRec numClients numTags)}
    (deq : dreqs.items = if s.burstLen dataWidthBytes drq = 1 then rest else drq :: rest)
    (t : Fin numTags) :
    s.unstarted t =
      (if s.burstReg = 0 ∧ drq.renameTag = t then [toRResp drq] else []) ++
        (s.afterBeat dataWidthBytes drq resps dreqs).unstarted t := by
  have hrest : (s.afterBeat dataWidthBytes drq resps dreqs).unstarted t =
      (rest.filter fun d => d.renameTag = t).map toRResp := by
    have hq : (s.afterBeat dataWidthBytes drq resps dreqs).dreqFifo.items = dreqs.items := rfl
    rw [unstarted, hq, deq]
    by_cases h1 : s.burstLen dataWidthBytes drq = 1
    · rw [if_pos (afterBeat_burstReg_eq_zero.mpr h1), if_pos h1]
    · rw [if_neg (afterBeat_burstReg_eq_zero.not.mpr h1), if_neg h1]
      rfl
  rw [hrest, unstarted, first]
  by_cases h0 : s.burstReg = 0
  · rw [if_pos h0]
    by_cases ht : drq.renameTag = t
    · simp [ht, h0]
    · simp [ht]
  · rw [if_neg h0, if_neg fun h => h0 h.1]
    rfl

/-- A request handed over has not begun. -/
lemma unstarted_writeReq (hu : s.burstReg ≠ 0 → s.dreqFifo.items ≠ [])
    {r : RRec numClients numTags addrWidth}
    {dreqs : Fifo (tagDepth * numTags) (DRec numClients numTags)}
    (enq : dreqs.items = s.dreqFifo.items ++ [toDRec r])
    (reqs : Fifo 2 (RRec numClients numTags addrWidth)) (t : Fin numTags) :
    unstarted { s with front := { s.front with reqFifo := reqs }, dreqFifo := dreqs } t =
      s.unstarted t ++ (([toDRec r].filter fun d => d.renameTag = t).map toRResp) := by
  unfold unstarted
  by_cases h0 : s.burstReg = 0
  · simp only [h0, if_true, enq, List.filter_append, List.map_append]
  · simp only [h0, if_false, enq, List.tail_append_of_ne_nil (hu h0), List.filter_append,
      List.map_append]

/-- **One step keeps the acknowledgements in order.** -/
lemma Acknowledged.step (hn : numTags ≤ 64) {t : Fin numTags} (ha : Acknowledged t tr s)
    (hu : s.burstReg ≠ 0 → s.dreqFifo.items ≠ []) (h : Fires sgl tg stream w s a w' s' es) :
    Acknowledged t (tr ++ es) s' := by
  obtain ⟨hr, hd⟩ := ha
  cases h with
  | front fires =>
    refine ⟨?_, ?_⟩
    · simpa [requestsUnder, acknowledgedUnder, pipedUnder, unstarted, List.filterMap_map,
        Function.comp_def, Event.handed?, Event.acknowledged?] using hr
    · simpa [donesUnder, acknowledgedUnder, pipedUnder, List.filterMap_map, Function.comp_def,
        Event.done?, Event.acknowledged?] using hd
  | @writeReq r reqs dreqs deq enq =>
    have hun := unstarted_writeReq hu enq reqs t
    refine ⟨?_, ?_⟩
    · have hreq : requestsUnder t (tr ++ [(.writeReq r r.memRequest :
          Event ε numClients numTags addrWidth dataWidthBytes)]) =
          requestsUnder t tr ++ (([toDRec r].filter fun d => d.renameTag = t).map toRResp) := by
        by_cases ht : r.renameTag = t <;> simp [requestsUnder, Event.handed?, toDRec, ht]
      have hack : acknowledgedUnder t (tr ++ [(.writeReq r r.memRequest :
          Event ε numClients numTags addrWidth dataWidthBytes)]) = acknowledgedUnder t tr := by
        simp [acknowledgedUnder, List.filterMap_cons, Event.acknowledged?]
      rw [hreq, hack, hun, hr]
      simp [pipedUnder]
    · simpa [donesUnder, acknowledgedUnder, pipedUnder, List.filterMap_cons, Event.done?,
        Event.acknowledged?] using hd
  | @writeData drq rest resps dreqs first resp deq =>
    refine ⟨?_, ?_⟩
    · have hrs : ((s.afterBeat dataWidthBytes drq resps dreqs).respFifos t).items =
          (resps t).items := rfl
      rw [unstarted_afterBeat first resps deq] at hr
      rw [hrs, resp t]
      simpa [requestsUnder, acknowledgedUnder, pipedUnder, List.filterMap_cons, Event.handed?,
        Event.acknowledged?, afterBeat] using hr
    · simpa [donesUnder, acknowledgedUnder, pipedUnder, List.filterMap_cons, Event.done?,
        Event.acknowledged?, afterBeat] using hd
  | @writeDone resp t' rresp resps pipe index deq enq =>
    rw [tagIndex_eq_some hn] at index
    by_cases ht : t' = t
    · subst ht
      refine ⟨?_, ?_⟩
      · simpa [requestsUnder, acknowledgedUnder, pipedUnder, unstarted, List.filterMap_cons,
          Event.handed?, Event.acknowledged?, deq, enq, index] using hr
      · simp [donesUnder, acknowledgedUnder, pipedUnder, List.filterMap_cons, Event.done?,
          Event.acknowledged?, enq, index] at hd ⊢
        omega
    · have hne : memTag t' ≠ memTag t := by rwa [Ne, memTag_inj hn]
      refine ⟨?_, ?_⟩
      · simpa [requestsUnder, acknowledgedUnder, pipedUnder, unstarted, List.filterMap_cons,
          Event.handed?, Event.acknowledged?, enq, index, hne,
          Function.update_of_ne (Ne.symm ht)] using hr
      · simpa [donesUnder, acknowledgedUnder, pipedUnder, List.filterMap_cons, Event.done?,
          Event.acknowledged?, enq, index, hne] using hd
  | @writeDoneComp resp t' rresp pipe g deq index ret =>
    by_cases ht : resp = memTag t
    · refine ⟨?_, ?_⟩
      · simpa [requestsUnder, acknowledgedUnder, pipedUnder, unstarted, List.filterMap_cons,
          Event.handed?, Event.acknowledged?, deq, ht] using hr
      · simp [donesUnder, acknowledgedUnder, pipedUnder, List.filterMap_cons, Event.done?,
          Event.acknowledged?, deq, ht] at hd ⊢
        omega
    · refine ⟨?_, ?_⟩
      · simpa [requestsUnder, acknowledgedUnder, pipedUnder, unstarted, List.filterMap_cons,
          Event.handed?, Event.acknowledged?, deq, ht] using hr
      · simpa [donesUnder, acknowledgedUnder, pipedUnder, List.filterMap_cons, Event.done?,
          Event.acknowledged?, deq, ht] using hd

/-- **The invariants along a run.** Requests and acknowledgements need no hypothesis; the data needs
whole bursts and a power of two. -/
theorem routed_of_reaches {δ ι : Type} {env : RuleSystem σ ι δ} (hn : numTags ≤ 64) {w₀ : σ}
    {g₀ : τ} {p : σ × MemWrite τ numClients numTags addrWidth}
    (h : ((memWrite sgl tg stream).behind env).Reaches (w₀, .reset g₀) tr p) :
    InOrder tr p.2 ∧ (∀ t, Acknowledged t tr p.2) ∧
      ∀ k, dataWidthBytes = 2 ^ k →
        (∀ l ∈ tr.filterMap Event.accepted?, WholeBurst dataWidthBytes l.req.burstLen) →
        DataRouted stream tr p.2 := by
  refine h.invariant_behind (I := fun tr s => InOrder tr s ∧ (∀ t, Acknowledged t tr s) ∧
    ∀ k, dataWidthBytes = 2 ^ k →
      (∀ l ∈ tr.filterMap Event.accepted?, WholeBurst dataWidthBytes l.req.burstLen) →
      DataRouted stream tr s) ?_ ?_
  · refine ⟨⟨rfl, rfl, by simp [reset], by simp [reset], rfl⟩, fun t => ⟨rfl, rfl⟩, ?_⟩
    intro k _ _
    exact ⟨rfl, rfl, by simp [reset]⟩
  · intro tr w s a w' s' es ih hs
    obtain ⟨hi, ha, hd⟩ := ih
    have hf := fires_of_step hs
    refine ⟨hi.step hn hf, fun t => (ha t).step hn hi.underWay hf, fun k hw hb => ?_⟩
    have hb' : ∀ l ∈ tr.filterMap Event.accepted?, WholeBurst dataWidthBytes l.req.burstLen := by
      intro l hl
      refine hb l ?_
      rw [List.filterMap_append]
      exact List.mem_append_left _ hl
    exact (hd k hw hb').step hw hi.underWay hf fun r hr => hb' _ (hi.passes.toLRec_mem hr)

/-! ## Readiness -/

/-- A beat can be taken when a request is queued and there is room for its acknowledgement. -/
lemma writeData_isSome {d : DRec numClients numTags} {ds : List (DRec numClients numTags)}
    (hq : s.dreqFifo.items = d :: ds)
    (hr : (s.respFifos d.renameTag).items.length < tagDepth) :
    (s.writeData stream : Option (_ × List (Event ε numClients numTags addrWidth _))).isSome := by
  have hf : s.dreqFifo.first = some d := Fifo.first_eq_some.mpr ⟨ds, hq⟩
  obtain ⟨dreqs, hdeq, -⟩ := Fifo.exists_deq hq
  obtain ⟨resp, henq, -⟩ := Fifo.exists_enq hr (toRResp d)
  obtain ⟨resps, hb⟩ : ∃ resps, s.beginBurst d = some resps := by
    unfold beginBurst
    split
    · exact ⟨_, by rw [henq]; rfl⟩
    · exact ⟨_, rfl⟩
  obtain ⟨dreqs', he⟩ : ∃ q, s.endBurst (s.burstLen dataWidthBytes d) = some q := by
    unfold endBurst
    split
    · exact ⟨_, by rw [hdeq]; rfl⟩
    · exact ⟨_, rfl⟩
  simp [writeData, hf, hb, he]

/-- An acknowledgement under the tag of a request that has begun is accepted. -/
lemma writeDone_isSome (hn : numTags ≤ 64) {t : Fin numTags}
    (hr : (s.respFifos t).items ≠ []) (hp : s.writeDonePipelineFifo.items.length < 2) :
    (s.writeDone (memTag t) :
      Option (_ × List (Event ε numClients numTags addrWidth dataWidthBytes))).isSome := by
  obtain ⟨r, rs, hq⟩ := List.exists_cons_of_ne_nil hr
  obtain ⟨resp, hdeq, -⟩ := Fifo.exists_deq hq
  obtain ⟨pipe, henq, -⟩ := Fifo.exists_enq hp (r, memTag t)
  simp [writeDone, (tagIndex_eq_some hn).mpr rfl, hdeq, henq]

end MemWrite

/-! ## Runs of the module -/

/-- What holds of a run of the write module with trace `tr` that ends in state `s`. -/
structure WritesRouted {τ κ ε : Type} (tg : TagGen τ κ ε numClients numTags)
    (stream : Fin numClients → ℕ → ObjectData (dataWidthBytes * 8))
    (tr : List (MemWrite.Event ε numClients numTags addrWidth dataWidthBytes))
    (s : MemWrite τ numClients numTags addrWidth) : Prop where
  /-- The memory gets the accepted requests in order, under their rename tags. -/
  inOrder : (tr.filterMap MemWrite.Event.handed?).map RRec.toLRec <+:
    tr.filterMap MemWrite.Event.accepted?
  memRequests : tr.filterMap MemWrite.Event.memRequest? =
    (tr.filterMap MemWrite.Event.handed?).map RRec.memRequest
  /-- The beats sent are those of the requests handed over, one request after the other, each taken
  from its client's stream after the client's earlier requests, and under its rename tag. -/
  data : tr.filterMap MemWrite.Event.sent? <+:
    expected stream (fun _ => 0) (MemWrite.handedChunks tr)
  /-- The acknowledgements delivered for tag `t` go to the requests under `t`, oldest first. -/
  acknowledged : ∀ t, MemWrite.acknowledgedUnder t tr <+: MemWrite.requestsUnder t tr
  /-- Acknowledgements of the memory are delivered or in the pipeline: none is lost or doubled. -/
  dones : ∀ t, MemWrite.donesUnder t tr =
    (MemWrite.acknowledgedUnder t tr).length + (s.pipedUnder t).length
  /-- Each delivery is followed by the return of its tag. -/
  returned : (tr.filterMap MemWrite.Event.returned?).map memTag =
    (tr.filterMap MemWrite.Event.acknowledged?).map Prod.fst
  /-- Nothing is lost: with empty queues every accepted request has been handed over and all its
  data sent. -/
  complete : s.front.lreqFifo.items = [] → s.front.reqFifo.items = [] → s.dreqFifo.items = [] →
    (tr.filterMap MemWrite.Event.handed?).map RRec.toLRec =
        tr.filterMap MemWrite.Event.accepted? ∧
      tr.filterMap MemWrite.Event.sent? = expected stream (fun _ => 0) (MemWrite.handedChunks tr)
  /-- The data of a queued request can be taken. -/
  dataReady : s.dreqFifo.items ≠ [] → (∀ t, (s.respFifos t).items.length < tagDepth) →
    (s.writeData stream : Option (_ × List (MemWrite.Event ε numClients numTags addrWidth _))).isSome
  /-- An acknowledgement is accepted for every request that has begun and is not acknowledged. -/
  doneReady : ∀ t, MemWrite.donesUnder t tr + (s.unstarted t).length <
      (MemWrite.requestsUnder t tr).length → s.writeDonePipelineFifo.items.length < 2 →
    (s.writeDone (memTag t) :
      Option (_ × List (MemWrite.Event ε numClients numTags addrWidth dataWidthBytes))).isSome
  /-- An acknowledgement in the pipeline can be delivered. -/
  acknowledgeReady : s.writeDonePipelineFifo.items ≠ [] →
    (∀ t, (tg.returnTag s.front.tagGen t).isSome) →
    (s.writeDoneComp tg :
      Option (_ × List (MemWrite.Event ε numClients numTags addrWidth dataWidthBytes))).isSome

section Theorem

variable {σ τ κ ε ι δ : Type} {sgl : Server σ ReqTup (BitVec addrWidth)}
  {tg : TagGen τ κ ε numClients numTags} {env : RuleSystem σ ι δ}
  {stream : Fin numClients → ℕ → ObjectData (dataWidthBytes * 8)}

/-- **Write data and acknowledgements are routed.** For any number of clients and at most 64 tags,
any address server, any tag generator and any data streams: along every run in which the accepted
requests are whole bursts, whatever the order in which the memory takes requests and data and
acknowledges, each beat and each acknowledgement belongs where it goes. The width of a beat is a
power of two. -/
theorem memWrite_routes {k : ℕ} (hn : numTags ≤ 64) (hw : dataWidthBytes = 2 ^ k) {w₀ : σ} {g₀ : τ}
    {tr : List (MemWrite.Event ε numClients numTags addrWidth dataWidthBytes)}
    {p : σ × MemWrite τ numClients numTags addrWidth}
    (h : ((memWrite sgl tg stream).behind env).Reaches (w₀, .reset g₀) tr p)
    (hb : ∀ l ∈ tr.filterMap MemWrite.Event.accepted?,
      WholeBurst dataWidthBytes l.req.burstLen) : WritesRouted tg stream tr p.2 := by
  obtain ⟨hi, ha, hd⟩ := MemWrite.routed_of_reaches hn h
  obtain ⟨hdata, -, -⟩ := hd k hw hb
  refine ⟨hi.passes.isPrefix, hi.memRequests, ?_, fun t => ?_, fun t => (ha t).dones, hi.returned,
    ?_, ?_, fun t hlt hp => ?_, ?_⟩
  · rw [hdata]
    exact List.prefix_append _ _
  · rw [(ha t).requests, List.append_assoc, List.append_assoc]
    exact List.prefix_append _ _
  · intro hl hq hx
    have hp := hi.passes
    rw [FrontEnd.Passes, hl, hq, List.append_nil, List.append_nil] at hp
    refine ⟨hp.symm, ?_⟩
    rw [hdata]
    simp [MemWrite.chunks, hx, expected]
  · intro hx hr
    obtain ⟨d, ds, hq⟩ := List.exists_cons_of_ne_nil hx
    exact MemWrite.writeData_isSome hq (hr d.renameTag)
  · refine MemWrite.writeDone_isSome hn (fun hr => ?_) hp
    rw [(ha t).requests, (ha t).dones, hr] at hlt
    simp only [List.length_append, List.length_nil] at hlt
    omega
  · intro hx hg
    obtain ⟨x, xs, hq⟩ := List.exists_cons_of_ne_nil hx
    obtain ⟨t, ht⟩ := hi.tags x (by simp [hq])
    obtain ⟨pipe, hdeq, -⟩ := Fifo.exists_deq hq
    obtain ⟨g, hg'⟩ := Option.isSome_iff_exists.mp (hg t)
    simp [MemWrite.writeDoneComp, hdeq, (tagIndex_eq_some hn).mpr ht, hg']

end Theorem

/-! ## Concrete runs -/

/-- Data streams: the beats of client `c` are `16 c`, `16 c + 1` and so on. -/
def countingStream (numClients dataWidthBytes : ℕ) (c : Fin numClients) (k : ℕ) :
    ObjectData (dataWidthBytes * 8) :=
  ⟨BitVec.ofNat _ (16 * c.val + k), 0, false⟩

/-- A write module with an address server that answers every request with its offset, and with the
in-order tag generator. -/
def writeModule (numClients dataWidthBytes : ℕ) :=
  (memWrite (Server.queue 9 fun r : ReqTup => r.off) ( mkTagGenIO numClients)
    (countingStream numClients dataWidthBytes)).behind (RuleSystem.noRules _)

/-- A run of two clients, with bursts of two beats and of one beat, acknowledged in the other
order. -/
def writeTwoClients :=
  (writeModule 2 4).run (Fifo.empty, .reset Fifo.empty)
    [.inl (.front (.loadClient 0 ⟨0, 0x10, 8, 5⟩)), .inl (.front (.loadClient 1 ⟨1, 0x20, 4, 7⟩)),
      .inl (.front .checkSglResp), .inl (.front .checkSglResp), .inl .writeReq, .inl .writeReq,
      .inl .writeData, .inl .writeData, .inl .writeData, .inl (.writeDone 1), .inl (.writeDone 0),
      .inl .writeDoneComp, .inl .writeDoneComp]

/-- Data and acknowledgements of both clients. -/
theorem memWrite_routes_twoClients :
    WritesRouted ( mkTagGenIO 2) (countingStream 2 4) writeTwoClients.2 writeTwoClients.1.2 ∧
      writeTwoClients.2.filterMap MemWrite.Event.sent? =
        [(0, 0, ⟨0, 0, false⟩), (0, 1, ⟨1, 0, false⟩), (1, 0, ⟨16, 1, false⟩)] ∧
      writeTwoClients.2.filterMap MemWrite.Event.acknowledged? = [(1, ⟨7, 1⟩), (0, ⟨5, 0⟩)] := by
  refine ⟨memWrite_routes (k := 2) (by decide) rfl (RuleSystem.reaches_run _ _) ?_, ?_, ?_⟩
  all_goals decide +kernel

/-- A run with beats of three bytes: each of two clients writes one beat, and the memory takes one
beat for each request. -/
def writeThreeBytes :=
  (writeModule 2 3).run (Fifo.empty, .reset Fifo.empty)
    [.inl (.front (.loadClient 0 ⟨0, 0x10, 3, 5⟩)), .inl (.front (.loadClient 1 ⟨1, 0x20, 3, 7⟩)),
      .inl (.front .checkSglResp), .inl (.front .checkSglResp), .inl .writeReq, .inl .writeData,
      .inl .writeReq, .inl .writeData]

/-- **Widths that are not a power of two.** With beats of three bytes the shift is by two bits, so a
burst of three bytes counts as no beat at all; the counter passes below zero, the request stays in
the queue, and the beat of the second request is taken from the first client. -/
theorem not_writesRouted_three_bytes :
    (writeModule 2 3).Reaches (Fifo.empty, .reset Fifo.empty) writeThreeBytes.2
        writeThreeBytes.1 ∧
      (∀ l ∈ writeThreeBytes.2.filterMap MemWrite.Event.accepted?, WholeBurst 3 l.req.burstLen) ∧
      ¬ WritesRouted ( mkTagGenIO 2) (countingStream 2 3) writeThreeBytes.2
        writeThreeBytes.1.2 := by
  refine ⟨RuleSystem.reaches_run _ _, by decide +kernel, fun h => ?_⟩
  exact absurd h.data (by decide +kernel)

end Xbsv
