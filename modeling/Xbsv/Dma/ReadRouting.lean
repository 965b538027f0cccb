import Xbsv.Dma.MemRead

set_option relaxedAutoImplicit false
set_option autoImplicit false

/-!
# Routing of read data

Beats of many tags pass through the queues of the read module, but each tag has a lane of its own:
its requests, its beats, and its three registers. A step of the module is a step of one lane and
leaves the others alone. What a lane still has to label (`Lane.remaining`) is a list: the rest of
the current burst, whose length is the position kept in the registers, then the bursts queued.
Labels handed out followed by labels remaining are the labels of the requests, and beats passed on
followed by beats waiting are the beats of the memory; so the beats that reach clients are the
memory's beats, each paired with the label of its request.

## Main definitions

* `Xbsv.Lane` — the module as seen by one tag; `Xbsv.MemRead.lane` computes it.
* `Xbsv.History` — the events of a run that concern one tag.
* `Xbsv.Routed` — the invariant that ties the two together.
* `Xbsv.ReadsRouted` — what holds of a run of the module.

## Main results

* `Xbsv.MemRead.Fires.lane_step` — a step of the module is a step of every lane.
* `Xbsv.Routed.step` — the invariant is preserved by a step of a lane.
-/

namespace Xbsv

open Rules SGList

variable {numClients numTags addrWidth dataWidthBytes : ℕ}

/-! ## Lanes -/

/-- To whom a beat goes: a client, and the tag of the client's request. -/
abbrev Label (numClients : ℕ) := Fin numClients × BitVec 6

/-- The label of the beats of a request. -/
def DRec.label (d : DRec numClients numTags) : Label numClients := (d.client, d.req.tag)

/-- The labels of all beats of a request, in order. -/
def beatLabels (dataWidthBytes : ℕ) (d : DRec numClients numTags) : List (Label numClients) :=
  List.replicate (beats dataWidthBytes d.req.burstLen) d.label

/-- The part of the module that one rename tag sees. -/
@[ext]
structure Lane (numClients numTags dataWidthBytes : ℕ) where
  queue : List (DRec numClients numTags)
  waiting : List (BitVec (dataWidthBytes * 8))
  piped : List (Label numClients × BitVec (dataWidthBytes * 8))
  burst : BitVec 8
  first : Bool
  last : Bool

namespace Lane

/-- The count of the current burst before a beat. -/
def count (L : Lane numClients numTags dataWidthBytes) (d : DRec numClients numTags) : BitVec 8 :=
  if L.first then d.req.burstLen >>> beatShift dataWidthBytes else L.burst

/-- Whether the next beat is taken for the last one of its burst. -/
def isLast (L : Lane numClients numTags dataWidthBytes) (d : DRec numClients numTags) : Bool :=
  if L.first then d.last else L.last

/-- The lane after its oldest waiting beat `x` has been paired with the oldest request `d`. -/
def beat (L : Lane numClients numTags dataWidthBytes) (d : DRec numClients numTags)
    (ds : List (DRec numClients numTags)) (x : BitVec (dataWidthBytes * 8))
    (xs : List (BitVec (dataWidthBytes * 8))) : Lane numClients numTags dataWidthBytes where
  queue := if L.isLast d then ds else d :: ds
  waiting := xs
  piped := L.piped ++ [(d.label, x)]
  burst := L.count d - 1
  first := L.count d - 1 == 0
  last := L.count d - 1 == 1

/-- The number of beats that the oldest request of the lane still gets. -/
def left (L : Lane numClients numTags dataWidthBytes) (d : DRec numClients numTags) : ℕ :=
  if L.first then beats dataWidthBytes d.req.burstLen else L.burst.toNat

/-- The labels that the lane has still to give, in order. -/
def remaining (L : Lane numClients numTags dataWidthBytes) : List (Label numClients) :=
  match L.queue with
  | [] => []
  | d :: ds => List.replicate (L.left d) d.label ++ ds.flatMap (beatLabels dataWidthBytes)

/-- The registers agree on the position: at the start of a burst, or with some of the beats of the
oldest request gone and some to come. -/
def Positioned (L : Lane numClients numTags dataWidthBytes) : Prop :=
  L.first = true ∨ ∃ d ds, L.queue = d :: ds ∧ L.first = false ∧ 0 < L.burst.toNat ∧
    L.burst.toNat < beats dataWidthBytes d.req.burstLen ∧ L.last = (L.burst == 1)

/-- **The registers of a lane mean what they should.** The count is the number of beats left, at
least one, and the beat is taken for the last one when one is left.

**Proof sketch.** At the start of a burst the count is the shifted length and the flag the
comparison with the width of a beat; inside a burst both come from the registers. -/
lemma count_spec {k : ℕ} (hw : dataWidthBytes = 2 ^ k)
    {L : Lane numClients numTags dataWidthBytes} {d : DRec numClients numTags}
    (hp : L.Positioned) (hb : WholeBurst dataWidthBytes d.req.burstLen)
    (hl : d.last = (d.req.burstLen == BitVec.ofNat 8 dataWidthBytes)) :
    (L.count d).toNat = L.left d ∧ 0 < L.left d ∧ L.isLast d = (L.count d == 1) := by
  have hone : ∀ b : BitVec 8, (b == 1) = decide (b.toNat = 1) := by
    intro b
    rw [Bool.eq_iff_iff]
    simp [← BitVec.toNat_inj]
  rcases hp with hf | ⟨-, -, -, hf, h0, -, hlast⟩
  · simp only [count, left, isLast, hf, if_true]
    refine ⟨WholeBurst.shift_toNat hw, hb.beats_pos, ?_⟩
    rw [hone, WholeBurst.shift_toNat hw, hl, Bool.eq_iff_iff]
    simp [hb.eq_width_iff]
  · simp only [count, left, isLast, hf]
    exact ⟨rfl, h0, hlast⟩

/-- A lane at the start of a burst has all labels of its queue to give. -/
lemma remaining_of_first {L : Lane numClients numTags dataWidthBytes} (hf : L.first = true) :
    L.remaining = L.queue.flatMap (beatLabels dataWidthBytes) := by
  cases hq : L.queue with
  | nil => simp [remaining, hq]
  | cons d ds => simp [remaining, hq, left, hf, beatLabels]

/-- **A beat uses up one label**, that of the oldest request, and leaves the registers at the
position after it.

**Proof sketch.** When the count is one the request leaves the queue and the registers say that a
burst begins. Otherwise the count goes down by one, and it was at most the length of the burst. -/
lemma beat_spec {L : Lane numClients numTags dataWidthBytes} {d : DRec numClients numTags}
    {ds : List (DRec numClients numTags)} (x : BitVec (dataWidthBytes * 8))
    (xs : List (BitVec (dataWidthBytes * 8))) (hp : L.Positioned) (hq : L.queue = d :: ds)
    (hc : (L.count d).toNat = L.left d) (hpos : 0 < L.left d)
    (hlast : L.isLast d = (L.count d == 1)) :
    L.remaining = d.label :: (L.beat d ds x xs).remaining ∧ (L.beat d ds x xs).Positioned := by
  have hr : L.remaining =
      List.replicate (L.left d) d.label ++ ds.flatMap (beatLabels dataWidthBytes) := by
    simp [remaining, hq]
  by_cases h1 : L.count d = 1
  · have hf : (L.beat d ds x xs).first = true := by simp [beat, h1]
    refine ⟨?_, .inl hf⟩
    have hl : L.left d = 1 := by rw [← hc, h1]; rfl
    have hq' : (L.beat d ds x xs).queue = ds := by simp [beat, hlast, h1]
    rw [remaining_of_first hf, hr, hl, hq']
    rfl
  · have hq' : (L.beat d ds x xs).queue = d :: ds := by simpa [beat, hlast] using h1
    -- the count is at least two
    have h2 : (L.count d).toNat ≠ 1 := fun h => h1 (BitVec.eq_of_toNat_eq h)
    have hb : (L.beat d ds x xs).burst.toNat = L.left d - 1 := by
      have hle : (1 : BitVec 8).toNat ≤ (L.count d).toNat := by
        show 1 ≤ (L.count d).toNat
        omega
      simp only [beat]
      rw [BitVec.toNat_sub_of_le hle, hc]
      rfl
    have hf : (L.beat d ds x xs).first = false := by
      have : (L.beat d ds x xs).burst ≠ 0 := by
        intro h0
        rw [h0] at hb
        change 0 = L.left d - 1 at hb
        omega
      simpa [beat] using this
    have hl : (L.beat d ds x xs).left d = L.left d - 1 := by
      rw [← hb]
      simp [left, hf]
    constructor
    · rw [hr, remaining, hq']
      simp only [hl]
      obtain ⟨m, hm⟩ : ∃ m, L.left d = m + 1 := ⟨L.left d - 1, by omega⟩
      rw [hm, List.replicate_succ]
      rfl
    · refine .inr ⟨d, ds, hq', hf, by omega, ?_, rfl⟩
      have hle : L.left d ≤ beats dataWidthBytes d.req.burstLen := by
        rcases hp with hf | ⟨d', ds', hq'', hf, -, hlt, -⟩
        · simp [left, hf]
        · rw [hq] at hq''
          cases hq''
          simp only [left, hf]
          exact hlt.le
      omega

end Lane

/-! ## Histories -/

/-- What has happened under one rename tag: its requests handed to the memory, the beats of the
memory, the outcomes of the assertions, the beats delivered with their labels, and the number of
calls of `return_tag`. -/
@[ext]
structure History (numClients numTags addrWidth dataWidthBytes : ℕ) where
  requests : List (RRec numClients numTags addrWidth) := []
  arrived : List (BitVec (dataWidthBytes * 8)) := []
  outcomes : List (Bool × Bool) := []
  delivered : List (Label numClients × BitVec (dataWidthBytes * 8)) := []
  returns : ℕ := 0

/-- One history followed by another. -/
instance : Append (History numClients numTags addrWidth dataWidthBytes) where
  append H G :=
    ⟨H.requests ++ G.requests, H.arrived ++ G.arrived, H.outcomes ++ G.outcomes,
      H.delivered ++ G.delivered, H.returns + G.returns⟩

namespace History

variable (H G : History numClients numTags addrWidth dataWidthBytes)

@[simp] lemma append_requests : (H ++ G).requests = H.requests ++ G.requests := rfl

@[simp] lemma append_arrived : (H ++ G).arrived = H.arrived ++ G.arrived := rfl

@[simp] lemma append_outcomes : (H ++ G).outcomes = H.outcomes ++ G.outcomes := rfl

@[simp] lemma append_delivered : (H ++ G).delivered = H.delivered ++ G.delivered := rfl

@[simp] lemma append_returns : (H ++ G).returns = H.returns + G.returns := rfl

@[simp] lemma append_empty : H ++ ({} : History numClients numTags addrWidth dataWidthBytes) = H := by
  ext : 1 <;> simp

/-- The labels that the requests call for, one for each beat. -/
def labels : List (Label numClients) :=
  H.requests.flatMap fun r => beatLabels dataWidthBytes (MemRead.toDRec dataWidthBytes r)

@[simp] lemma append_labels : (H ++ G).labels = H.labels ++ G.labels := by
  simp [labels]

end History

/-! ## One step of a lane -/

/-- The outcomes of the assertions for a beat of tag `t`. -/
def Lane.outcome (t : Fin numTags) (L : Lane numClients numTags dataWidthBytes)
    (d : DRec numClients numTags) : Bool × Bool :=
  ((memTag t).setWidth (tlog numTags) == BitVec.ofNat (tlog numTags) d.renameTag,
    !L.first || L.isLast d == (L.count d == 1))

/-- `LaneStep t L G L'`: the lane of tag `t` goes from `L` to `L'`, and `G` is what happens. -/
inductive LaneStep (t : Fin numTags) (L : Lane numClients numTags dataWidthBytes) :
    History numClients numTags addrWidth dataWidthBytes →
      Lane numClients numTags dataWidthBytes → Prop
  /-- A step that concerns another tag, or none. -/
  | same : LaneStep t L {} L
  | request (r : RRec numClients numTags addrWidth) (tag : r.renameTag = t) :
      LaneStep t L { requests := [r] }
        { L with queue := L.queue ++ [MemRead.toDRec dataWidthBytes r] }
  | arrive (x : BitVec (dataWidthBytes * 8)) :
      LaneStep t L { arrived := [x] } { L with waiting := L.waiting ++ [x] }
  | beat {d : DRec numClients numTags} {ds : List (DRec numClients numTags)}
      {x : BitVec (dataWidthBytes * 8)} {xs : List (BitVec (dataWidthBytes * 8))}
      (queue : L.queue = d :: ds) (waiting : L.waiting = x :: xs) :
      LaneStep t L { outcomes := [L.outcome t d], returns := if L.isLast d then 1 else 0 }
        (L.beat d ds x xs)
  | deliver {y : Label numClients × BitVec (dataWidthBytes * 8)}
      {ys : List (Label numClients × BitVec (dataWidthBytes * 8))} (piped : L.piped = y :: ys) :
      LaneStep t L { delivered := [y] } { L with piped := ys }

/-- The invariant of the lane of tag `t` with history `H`. -/
structure Routed (t : Fin numTags) (H : History numClients numTags addrWidth dataWidthBytes)
    (L : Lane numClients numTags dataWidthBytes) : Prop where
  /-- Labels given, then labels remaining, are the labels called for. -/
  labels : H.labels = (H.delivered ++ L.piped).map Prod.fst ++ L.remaining
  /-- Beats passed on, then beats waiting, are the beats that arrived. -/
  data : H.arrived = (H.delivered ++ L.piped).map Prod.snd ++ L.waiting
  /-- The assertions have been made once for each beat passed on. -/
  passed : H.outcomes.length = (H.delivered ++ L.piped).length
  /-- They held. -/
  outcomes : ∀ o ∈ H.outcomes, o = (true, true)
  tags : ∀ r ∈ H.requests, r.renameTag = t
  /-- The queue holds the requests that have not been returned. -/
  queue : L.queue = (H.requests.drop H.returns).map (MemRead.toDRec dataWidthBytes)
  returns_le : H.returns ≤ H.requests.length
  positioned : L.Positioned

namespace Routed

variable {t : Fin numTags} {H G : History numClients numTags addrWidth dataWidthBytes}
  {L L' : Lane numClients numTags dataWidthBytes}

/-- What is known of the oldest request in the queue. -/
lemma head_spec (h : Routed t H L) {d : DRec numClients numTags}
    {ds : List (DRec numClients numTags)} (hq : L.queue = d :: ds) :
    ∃ r rs, H.requests.drop H.returns = r :: rs ∧ d = MemRead.toDRec dataWidthBytes r ∧
      ds = rs.map (MemRead.toDRec dataWidthBytes) ∧ r ∈ H.requests := by
  have h1 := h.queue
  rw [hq] at h1
  cases hr : H.requests.drop H.returns with
  | nil =>
    rw [hr] at h1
    cases h1
  | cons r rs =>
    rw [hr, List.map_cons, List.cons.injEq] at h1
    refine ⟨r, rs, rfl, h1.1, h1.2, List.mem_of_mem_drop (i := H.returns) ?_⟩
    rw [hr]
    exact List.mem_cons_self

/-- A new request adds its labels at the end. -/
lemma request (h : Routed t H L) {r : RRec numClients numTags addrWidth} (hr : r.renameTag = t) :
    Routed t (H ++ { requests := [r] })
      { L with queue := L.queue ++ [MemRead.toDRec dataWidthBytes r] } := by
  refine ⟨?_, by simpa using h.data, by simpa using h.passed, by simpa using h.outcomes, ?_, ?_, ?_,
    ?_⟩
  · have hl := h.labels
    simp only [History.append_labels, History.append_delivered, List.append_nil, hl,
      List.append_assoc, List.append_cancel_left_eq]
    rcases h.positioned with hf | ⟨d, ds, hq, -⟩
    · have hr' : ({ L with queue := L.queue ++ [MemRead.toDRec dataWidthBytes r] } :
          Lane numClients numTags dataWidthBytes).remaining = _ := Lane.remaining_of_first hf
      rw [Lane.remaining_of_first hf, hr']
      simp [History.labels]
    · simp [Lane.remaining, hq, Lane.left, History.labels]
  · intro r' hr'
    simp only [History.append_requests, List.mem_append, List.mem_singleton] at hr'
    rcases hr' with hr' | rfl
    · exact h.tags r' hr'
    · exact hr
  · simp [h.queue, List.drop_append_of_le_length h.returns_le]
  · have := h.returns_le
    simp only [History.append_requests, History.append_returns, List.length_append]
    omega
  · rcases h.positioned with hf | ⟨d, ds, hq, hf, h0, h1, hl⟩
    · exact .inl hf
    · exact .inr ⟨d, ds ++ [MemRead.toDRec dataWidthBytes r], by simp [hq], hf, h0, h1, hl⟩

/-- A beat gets the label of its request, and the assertions hold. -/
lemma beat {k : ℕ} (hn : numTags ≤ 64) (hw : dataWidthBytes = 2 ^ k) (h : Routed t H L)
    {d : DRec numClients numTags} {ds : List (DRec numClients numTags)}
    {x : BitVec (dataWidthBytes * 8)} {xs : List (BitVec (dataWidthBytes * 8))}
    (hq : L.queue = d :: ds) (hx : L.waiting = x :: xs)
    (hb : ∀ r ∈ H.requests, WholeBurst dataWidthBytes r.req.burstLen) :
    Routed t (H ++ { outcomes := [L.outcome t d], returns := if L.isLast d then 1 else 0 })
      (L.beat d ds x xs) := by
  obtain ⟨r, rs, hdrop, rfl, rfl, hmem⟩ := h.head_spec hq
  obtain ⟨hc, hpos, hlast⟩ :=
    Lane.count_spec (d := MemRead.toDRec dataWidthBytes r) hw h.positioned (hb r hmem) rfl
  obtain ⟨hrem, hposn⟩ := Lane.beat_spec x xs h.positioned hq hc hpos hlast
  have hlen : H.returns < H.requests.length := by
    have := congrArg List.length hdrop
    simp only [List.length_drop, List.length_cons] at this
    omega
  refine ⟨?_, ?_, ?_, ?_, by simpa using h.tags, ?_, ?_, hposn⟩
  · have hl := h.labels
    rw [hrem] at hl
    simp [History.labels, Lane.beat] at hl ⊢
    exact hl
  · have hd := h.data
    rw [hx] at hd
    simp [Lane.beat] at hd ⊢
    exact hd
  · have hn := h.passed
    simp [Lane.beat] at hn ⊢
    omega
  · intro o ho
    simp only [History.append_outcomes, List.mem_append, List.mem_singleton] at ho
    rcases ho with ho | rfl
    · exact h.outcomes o ho
    · have ht := h.tags r hmem
      rw [Lane.outcome, hlast]
      simp [MemRead.toDRec, ht, memTag_setWidth hn]
  · by_cases hl : L.isLast (MemRead.toDRec dataWidthBytes r) = true
    · simp only [Lane.beat, hl, if_true, History.append_requests, History.append_returns,
        List.append_nil]
      rw [← List.tail_drop, hdrop]
      rfl
    · simp only [Lane.beat, hl, History.append_requests, History.append_returns, List.append_nil]
      simp [hdrop]
  · simp only [History.append_requests, History.append_returns, List.append_nil]
    split <;> omega

/-- **The invariant of a lane.** -/
theorem step {k : ℕ} (hn : numTags ≤ 64) (hw : dataWidthBytes = 2 ^ k) (h : Routed t H L)
    (hs : LaneStep t L G L')
    (hb : ∀ r ∈ H.requests, WholeBurst dataWidthBytes r.req.burstLen) : Routed t (H ++ G) L' := by
  cases hs with
  | same => simpa using h
  | request r tag => exact h.request tag
  | arrive x =>
    obtain ⟨hl, hd, hn, ho, ht, hq, hle, hp⟩ := h
    exact ⟨by simpa [History.labels, Lane.remaining, Lane.left] using hl, by simp [hd], by simpa using hn, by simpa using ho,
      by simpa using ht, by simpa using hq, by simpa using hle, hp⟩
  | beat queue waiting => exact h.beat hn hw queue waiting hb
  | deliver piped =>
    obtain ⟨hl, hd, hn, ho, ht, hq, hle, hp⟩ := h
    rw [piped] at hl hd hn
    exact ⟨by simpa [History.labels, Lane.remaining, Lane.left] using hl, by simpa using hd, by simpa using hn, by simpa using ho,
      by simpa using ht, by simpa using hq, by simpa using hle, hp⟩

end Routed

/-! ## Lanes of the module -/

namespace MemRead

variable {σ τ κ ε : Type}

/-- The request of a client accepted by `loadClient`. -/
def Event.accepted? : Event ε numClients numTags addrWidth dataWidthBytes →
    Option (LRec numClients)
  | .front e => e.accepted?
  | _ => none

/-- The record behind a request handed to the memory. -/
def Event.handed? : Event ε numClients numTags addrWidth dataWidthBytes →
    Option (RRec numClients numTags addrWidth)
  | .readReq r _ => some r
  | _ => none

/-- The request that the memory got. -/
def Event.memRequest? : Event ε numClients numTags addrWidth dataWidthBytes →
    Option (MemRequest addrWidth)
  | .readReq _ m => some m
  | _ => none

/-- The beat that the memory sent. -/
def Event.memBeat? : Event ε numClients numTags addrWidth dataWidthBytes →
    Option (ObjectData (dataWidthBytes * 8))
  | .readData d => some d
  | _ => none

/-- The outcomes of the assertions for a beat with the given tag. -/
def Event.outcome? (tag : BitVec 6) : Event ε numClients numTags addrWidth dataWidthBytes →
    Option (Bool × Bool)
  | .response d tagOk lastOk => if d.tag = tag then some (tagOk, lastOk) else none
  | _ => none

/-- The delivery of a beat of the memory with the given tag: to whom, and which data. -/
def Event.delivered? (tag : BitVec 6) : Event ε numClients numTags addrWidth dataWidthBytes →
    Option (Label numClients × BitVec (dataWidthBytes * 8))
  | .deliver beat client d => if beat.tag = tag then some ((client, d.tag), d.data) else none
  | _ => none

/-- A call of `return_tag` for the given tag. -/
def Event.isReturn (t : Fin numTags) : Event ε numClients numTags addrWidth dataWidthBytes → Bool
  | .returnTag t' => t' = t
  | _ => false

/-- The events of a run that concern tag `t`. -/
def history (t : Fin numTags)
    (tr : List (Event ε numClients numTags addrWidth dataWidthBytes)) :
    History numClients numTags addrWidth dataWidthBytes where
  requests := (tr.filterMap Event.handed?).filter fun r => r.renameTag = t
  arrived := ((tr.filterMap Event.memBeat?).filter fun d => d.tag = memTag t).map (·.data)
  outcomes := tr.filterMap (Event.outcome? (memTag t))
  delivered := tr.filterMap (Event.delivered? (memTag t))
  returns := tr.countP (Event.isReturn t)

/-- The beats of tag `t` in a list of beats. -/
def waitingOf (t : Fin numTags) (ds : List (ObjectData (dataWidthBytes * 8))) :
    List (BitVec (dataWidthBytes * 8)) :=
  (ds.filter fun d => d.tag = memTag t).map (·.data)

/-- The beats of tag `t` in the last queue, with their labels. -/
def pipedOf (t : Fin numTags)
    (xs : List (DRec numClients numTags × ObjectData (dataWidthBytes * 8))) :
    List (Label numClients × BitVec (dataWidthBytes * 8)) :=
  xs.filterMap fun x => if x.2.tag = memTag t then some (x.1.label, x.2.data) else none

/-- The part of the module that tag `t` sees. -/
def lane (s : MemRead τ numClients numTags addrWidth dataWidthBytes) (t : Fin numTags) :
    Lane numClients numTags dataWidthBytes where
  queue := (s.dreqFifos t).items
  waiting := waitingOf t s.responseFifo.items
  piped := pipedOf t s.readDataPipelineFifo.items
  burst := s.burstRegs t
  first := s.firstRegs t
  last := s.lastRegs t

@[simp] lemma history_nil (t : Fin numTags) :
    history t ([] : List (Event ε numClients numTags addrWidth dataWidthBytes)) = {} := rfl

@[simp] lemma history_append (t : Fin numTags)
    (tr es : List (Event ε numClients numTags addrWidth dataWidthBytes)) :
    history t (tr ++ es) = history t tr ++ history t es := by
  ext : 1 <;> simp [history]

/-- The rules of the front end concern no tag. -/
@[simp] lemma history_front (t : Fin numTags)
    (es : List (FrontEnd.Event ε numClients numTags addrWidth)) :
    history t (es.map (.front : _ → Event ε numClients numTags addrWidth dataWidthBytes)) = {} := by
  ext : 1 <;> simp [history, List.filterMap_map, List.countP_map, Function.comp_def, Event.handed?,
    Event.memBeat?, Event.outcome?, Event.delivered?, Event.isReturn]

section Singletons

variable (t : Fin numTags)

lemma history_readReq (r : RRec numClients numTags addrWidth) (m : MemRequest addrWidth) :
    history t [(.readReq r m : Event ε numClients numTags addrWidth dataWidthBytes)] =
      if r.renameTag = t then { requests := [r] } else {} := by
  by_cases ht : r.renameTag = t <;>
    simp [history, List.filterMap_cons, Event.handed?, Event.memBeat?, Event.outcome?,
      Event.delivered?, Event.isReturn, ht]

lemma history_readData (d : ObjectData (dataWidthBytes * 8)) :
    history t [(.readData d : Event ε numClients numTags addrWidth dataWidthBytes)] =
      if d.tag = memTag t then { arrived := [d.data] } else {} := by
  by_cases ht : d.tag = memTag t <;>
    simp [history, List.filterMap_cons, Event.handed?, Event.memBeat?, Event.outcome?,
      Event.delivered?, Event.isReturn, ht]

lemma history_response (d : ObjectData (dataWidthBytes * 8)) (b c : Bool) :
    history t [(.response d b c : Event ε numClients numTags addrWidth dataWidthBytes)] =
      if d.tag = memTag t then { outcomes := [(b, c)] } else {} := by
  by_cases ht : d.tag = memTag t <;>
    simp [history, List.filterMap_cons, Event.handed?, Event.memBeat?, Event.outcome?,
      Event.delivered?, Event.isReturn, ht]

lemma history_returnTag (t' : Fin numTags) :
    history t [(.returnTag t' : Event ε numClients numTags addrWidth dataWidthBytes)] =
      if t' = t then { returns := 1 } else {} := by
  by_cases ht : t' = t <;>
    simp [history, List.filterMap_cons, Event.handed?, Event.memBeat?, Event.outcome?,
      Event.delivered?, Event.isReturn, ht]

lemma history_deliver (m : ObjectData (dataWidthBytes * 8)) (client : Fin numClients)
    (d : ObjectData (dataWidthBytes * 8)) :
    history t [(.deliver m client d : Event ε numClients numTags addrWidth dataWidthBytes)] =
      if m.tag = memTag t then { delivered := [((client, d.tag), d.data)] } else {} := by
  by_cases ht : m.tag = memTag t <;>
    simp [history, List.filterMap_cons, Event.handed?, Event.memBeat?, Event.outcome?,
      Event.delivered?, Event.isReturn, ht]

end Singletons

variable {sgl : Server σ ReqTup (BitVec addrWidth)} {tg : TagGen τ κ ε numClients numTags}
  {w w' : σ} {s s' : MemRead τ numClients numTags addrWidth dataWidthBytes}
  {a : Action κ numClients dataWidthBytes}
  {es : List (Event ε numClients numTags addrWidth dataWidthBytes)}

/-- A beat of another tag leaves a lane as it is. -/
lemma lane_afterBeat_of_ne {d : ObjectData (dataWidthBytes * 8)} {t t' : Fin numTags}
    {drq : DRec numClients numTags} {responses : Fifo 2 (ObjectData (dataWidthBytes * 8))}
    {pipe : Fifo 2 (DRec numClients numTags × ObjectData (dataWidthBytes * 8))}
    (deq : s.responseFifo.items = d :: responses.items)
    (enq : pipe.items = s.readDataPipelineFifo.items ++ [(drq, d)]) (ht : t ≠ t')
    (hd : d.tag ≠ memTag t) : (s.afterBeat t' drq responses pipe).lane t = s.lane t := by
  simp [lane, waitingOf, pipedOf, afterBeat, deq, enq, hd, Function.update_of_ne ht]

/-- What a beat does to its own lane, the queue apart. -/
lemma laneStep_afterBeat {d : ObjectData (dataWidthBytes * 8)} {t : Fin numTags} {drq : DRec numClients numTags} {rest : List (DRec numClients numTags)}
    {responses : Fifo 2 (ObjectData (dataWidthBytes * 8))}
    {pipe : Fifo 2 (DRec numClients numTags × ObjectData (dataWidthBytes * 8))}
    (deq : s.responseFifo.items = d :: responses.items) (hd : d.tag = memTag t)
    (first : (s.dreqFifos t).items = drq :: rest)
    (enq : pipe.items = s.readDataPipelineFifo.items ++ [(drq, d)]) :
    LaneStep t (s.lane t)
      ({ outcomes := [(tagOk d drq, s.lastOk t drq)], returns := if s.isLast t drq then 1 else 0 } :
        History numClients numTags addrWidth dataWidthBytes)
      { (s.afterBeat t drq responses pipe).lane t with
        queue := if s.isLast t drq then rest else drq :: rest } := by
  have hx : (s.lane t).waiting = d.data :: waitingOf t responses.items := by
    simp [lane, waitingOf, deq, hd]
  have hq : (s.lane t).queue = drq :: rest := first
  have ho : (s.lane t).outcome t drq = (tagOk d drq, s.lastOk t drq) := by
    rw [Lane.outcome, tagOk, hd]
    rfl
  have hL : { (s.afterBeat t drq responses pipe).lane t with
      queue := if s.isLast t drq then rest else drq :: rest } =
      (s.lane t).beat drq rest d.data (waitingOf t responses.items) := by
    refine Lane.ext rfl rfl ?_ (Function.update_self ..) (Function.update_self ..)
      (Function.update_self ..)
    simp [lane, pipedOf, afterBeat, enq, hd, Lane.beat]
  rw [hL, ← ho]
  exact .beat hq hx

/-- **A step of the module is a step of every lane**: of one of them properly, if it concerns a
tag at all. -/
theorem Fires.lane_step (hn : numTags ≤ 64) (h : Fires sgl tg w s a w' s' es) (t : Fin numTags) :
    LaneStep t (s.lane t) (history t es) (s'.lane t) := by
  -- the memory tags of distinct lanes are distinct
  have hne : ∀ {t' : Fin numTags} {tag : BitVec 6}, tag = memTag t' → t ≠ t' → tag ≠ memTag t := by
    intro t' tag htag ht
    rw [htag, Ne, memTag_inj hn]
    exact Ne.symm ht
  cases h with
  | front fires =>
    rw [history_front]
    exact .same
  | @readReq r reqs dreqs deq enq =>
    rw [history_readReq]
    by_cases ht : r.renameTag = t
    · subst ht
      rw [if_pos rfl]
      convert LaneStep.request r rfl using 1
      simp [lane, enq]
    · rw [if_neg ht]
      convert LaneStep.same using 1
      simp [lane, Function.update_of_ne (Ne.symm ht)]
  | @readData d responses enq =>
    rw [history_readData]
    by_cases ht : d.tag = memTag t
    · rw [if_pos ht]
      convert LaneStep.arrive d.data using 1
      simp [lane, waitingOf, enq, ht]
    · rw [if_neg ht]
      convert LaneStep.same using 1
      simp [lane, waitingOf, enq, ht]
  | @beat d t' drq responses rest pipe deq index first enq last =>
    rw [tagIndex_eq_some hn] at index
    rw [history_response]
    by_cases ht : t = t'
    · subst ht
      have hs := laneStep_afterBeat deq index first enq
      rw [last, ← first] at hs
      rw [if_pos index]
      exact hs
    · rw [if_neg (hne index ht), lane_afterBeat_of_ne deq enq ht (hne index ht)]
      exact .same
  | @lastBeat d t' drq responses dreqs g pipe deq index first enq last ret =>
    rw [tagIndex_eq_some hn] at index
    rw [← List.singleton_append, history_append, history_response, history_returnTag]
    by_cases ht : t = t'
    · subst ht
      have hs := laneStep_afterBeat deq index first enq
      rw [last] at hs
      have hH : ({ outcomes := [(tagOk d drq, s.lastOk t drq)] } :
          History numClients numTags addrWidth dataWidthBytes) ++ { returns := 1 } =
          { outcomes := [(tagOk d drq, s.lastOk t drq)], returns := if true then 1 else 0 } := rfl
      rw [if_pos index, if_pos rfl, hH]
      convert hs using 1
      simp [lane]
    · rw [if_neg (hne index ht), if_neg (Ne.symm ht), History.append_empty]
      convert LaneStep.same using 1
      rw [← lane_afterBeat_of_ne deq enq ht (hne index ht)]
      simp [lane, Function.update_of_ne ht, afterBeat]
  | @deliver d drq pipe deq =>
    rw [history_deliver]
    by_cases ht : d.tag = memTag t
    · have hp : (s.lane t).piped = (drq.label, d.data) :: pipedOf t pipe.items := by
        simp [lane, pipedOf, deq, ht]
      rw [if_pos ht]
      exact .deliver hp
    · rw [if_neg ht]
      convert LaneStep.same using 1
      simp [lane, pipedOf, deq, ht]

/-! ## Requests pass in order -/

/-- What holds of a run of the module beside the lanes: requests pass in order, and every beat
belongs to a lane. -/
structure InOrder (tr : List (Event ε numClients numTags addrWidth dataWidthBytes))
    (s : MemRead τ numClients numTags addrWidth dataWidthBytes) : Prop where
  passes : s.front.Passes (tr.filterMap Event.accepted?) (tr.filterMap Event.handed?)
  memRequests : tr.filterMap Event.memRequest? = (tr.filterMap Event.handed?).map RRec.memRequest
  /-- Only beats with the tag of a lane pass `read_client_response`. -/
  tags : ∀ d b c, .response d b c ∈ tr → ∃ t : Fin numTags, d.tag = memTag t
  sent : ∀ d ∈ s.responseFifo.items, d ∈ tr.filterMap Event.memBeat?

/-- One step keeps the order. -/
lemma InOrder.step {tr : List (Event ε numClients numTags addrWidth dataWidthBytes)}
    (hn : numTags ≤ 64) (hi : InOrder tr s) (h : Fires sgl tg w s a w' s' es) :
    InOrder (tr ++ es) s' := by
  obtain ⟨ha, hm, ht, hs⟩ := hi
  -- beats that were sent stay sent
  have hs' : ∀ d ∈ s.responseFifo.items, d ∈ (tr ++ es).filterMap Event.memBeat? := by
    intro d hd
    rw [List.filterMap_append]
    exact List.mem_append_left _ (hs d hd)
  cases h with
  | front fires =>
    refine ⟨?_, ?_, ?_, hs'⟩
    · simpa [List.filterMap_map, Function.comp_def, Event.accepted?, Event.handed?]
        using ha.fires fires
    · simpa [List.filterMap_map, Function.comp_def, Event.memRequest?, Event.handed?] using hm
    · intro d b c hmem
      exact ht d b c (by simpa using hmem)
  | readReq deq enq =>
    refine ⟨?_, ?_, ?_, hs'⟩
    · simpa [List.filterMap_cons, Event.accepted?, Event.handed?] using ha.hand deq
    · simp [Event.memRequest?, Event.handed?, hm]
    · intro d b c hmem
      exact ht d b c (by simpa using hmem)
  | readData enq =>
    refine ⟨?_, ?_, ?_, ?_⟩
    · simpa [List.filterMap_cons, Event.accepted?, Event.handed?] using ha
    · simpa [List.filterMap_cons, Event.memRequest?, Event.handed?] using hm
    · intro d b c hmem
      exact ht d b c (by simpa using hmem)
    · intro d hd
      rw [enq, List.mem_append, List.mem_singleton] at hd
      rcases hd with hd | rfl
      · exact hs' d hd
      · simp [Event.memBeat?]
  | @beat d t drq responses rest pipe deq index first enq last =>
    rw [tagIndex_eq_some hn] at index
    refine ⟨?_, ?_, ?_, fun d' hd' => hs' d' (deq ▸ List.mem_cons_of_mem _ hd')⟩
    · simpa [List.filterMap_cons, Event.accepted?, Event.handed?, afterBeat] using ha
    · simpa [List.filterMap_cons, Event.memRequest?, Event.handed?] using hm
    · intro d' b c hmem
      rcases List.mem_append.mp hmem with hmem | hmem
      · exact ht d' b c hmem
      · obtain ⟨rfl, -⟩ : d' = d ∧ _ := by simpa using hmem
        exact ⟨t, index⟩
  | @lastBeat d t drq responses dreqs g pipe deq index first enq last ret =>
    rw [tagIndex_eq_some hn] at index
    refine ⟨?_, ?_, ?_, fun d' hd' => hs' d' (deq ▸ List.mem_cons_of_mem _ hd')⟩
    · simpa [List.filterMap_cons, Event.accepted?, Event.handed?, FrontEnd.Passes] using ha
    · simpa [List.filterMap_cons, Event.memRequest?, Event.handed?] using hm
    · intro d' b c hmem
      rcases List.mem_append.mp hmem with hmem | hmem
      · exact ht d' b c hmem
      · obtain ⟨rfl, -⟩ : d' = d ∧ _ := by simpa using hmem
        exact ⟨t, index⟩
  | deliver deq =>
    refine ⟨?_, ?_, ?_, hs'⟩
    · simpa [List.filterMap_cons, Event.accepted?, Event.handed?] using ha
    · simpa [List.filterMap_cons, Event.memRequest?, Event.handed?] using hm
    · intro d b c hmem
      exact ht d b c (by simpa using hmem)

/-- The requests under a tag are among those accepted. -/
lemma InOrder.toLRec_mem {tr : List (Event ε numClients numTags addrWidth dataWidthBytes)}
    (hi : InOrder tr s) {t : Fin numTags} {r : RRec numClients numTags addrWidth}
    (hr : r ∈ (history t tr).requests) : r.toLRec ∈ tr.filterMap Event.accepted? :=
  hi.passes.toLRec_mem (List.mem_filter.mp hr).1

/-- **The invariant along a run.** -/
theorem routed_of_reaches {δ ι : Type} {env : RuleSystem σ ι δ} {k : ℕ} (hn : numTags ≤ 64)
    (hw : dataWidthBytes = 2 ^ k) {w₀ : σ} {g₀ : τ}
    {tr : List (Event ε numClients numTags addrWidth dataWidthBytes)}
    {p : σ × MemRead τ numClients numTags addrWidth dataWidthBytes}
    (h : ((memRead dataWidthBytes sgl tg).behind env).Reaches (w₀, .reset g₀) tr p)
    (hb : ∀ l ∈ tr.filterMap Event.accepted?, WholeBurst dataWidthBytes l.req.burstLen) :
    InOrder tr p.2 ∧ ∀ t, Routed t (history t tr) (p.2.lane t) := by
  refine h.invariant_behind (I := fun tr s =>
    (∀ l ∈ tr.filterMap Event.accepted?, WholeBurst dataWidthBytes l.req.burstLen) →
      InOrder tr s ∧ ∀ t, Routed t (history t tr) (s.lane t)) ?_ ?_ hb
  · intro _
    refine ⟨⟨rfl, rfl, by simp, by simp [reset]⟩, fun t => ?_⟩
    exact ⟨rfl, rfl, rfl, by simp, by simp, rfl, le_rfl, .inl rfl⟩
  · intro tr w s a w' s' es ih hs hb
    have hf := fires_of_step hs
    obtain ⟨hi, hr⟩ := ih fun l hl => hb l (by simp [List.filterMap_append, hl])
    refine ⟨hi.step hn hf, fun t => ?_⟩
    rw [history_append]
    refine (hr t).step hn hw (hf.lane_step hn t) fun r hmem => ?_
    have hmem' : r.toLRec ∈ (tr ++ es).filterMap Event.accepted? := by
      rw [List.filterMap_append]
      exact List.mem_append_left _ (hi.toLRec_mem hmem)
    exact hb _ hmem'

end MemRead

/-! ## Counting -/

/-- The number of labels that a history calls for. -/
lemma History.labels_length (H : History numClients numTags addrWidth dataWidthBytes) :
    H.labels.length = (H.requests.map fun r => beats dataWidthBytes r.req.burstLen).sum := by
  simp [History.labels, beatLabels, List.length_flatMap, MemRead.toDRec]

namespace Routed

variable {t : Fin numTags} {H : History numClients numTags addrWidth dataWidthBytes}
  {L : Lane numClients numTags dataWidthBytes}

/-- The beats passed on are beats of the memory, each with the label called for. -/
lemma delivered_zip (h : Routed t H L) :
    H.delivered ++ L.piped <+: H.labels.zip H.arrived := by
  rw [h.labels, h.data]
  have hz : ((H.delivered ++ L.piped).map Prod.fst ++ L.remaining).zip
      ((H.delivered ++ L.piped).map Prod.snd ++ L.waiting) =
      (H.delivered ++ L.piped) ++ L.remaining.zip L.waiting := by
    rw [List.zip_append (by simp), ← List.zip_of_prod rfl rfl]
  rw [hz]
  exact List.prefix_append _ _

/-- The requests not yet returned call for the labels remaining, less those of the current burst
that are given.

**Proof sketch.** By cases on the queue. The oldest request has `left` labels to come, at least
one and at most all of its beats. -/
lemma exists_given (h : Routed t H L)
    (hb : ∀ r ∈ H.requests, WholeBurst dataWidthBytes r.req.burstLen) :
    ∃ m, ((H.requests.drop H.returns).map fun r => beats dataWidthBytes r.req.burstLen).sum =
        m + L.remaining.length ∧
      ∀ n ∈ ((H.requests.drop H.returns).map fun r => beats dataWidthBytes r.req.burstLen).head?,
        m < n := by
  cases hq : L.queue with
  | nil =>
    have hd : H.requests.drop H.returns = [] := by
      have := h.queue
      rw [hq] at this
      exact List.map_eq_nil_iff.mp this.symm
    exact ⟨0, by simp [hd, Lane.remaining, hq], by simp [hd]⟩
  | cons d ds =>
    obtain ⟨r, rs, hdrop, rfl, rfl, hmem⟩ := h.head_spec hq
    have hpos := (hb r hmem).beats_pos
    have hleft : 0 < L.left (MemRead.toDRec dataWidthBytes r) ∧
        L.left (MemRead.toDRec dataWidthBytes r) ≤ beats dataWidthBytes r.req.burstLen := by
      rcases h.positioned with hf | ⟨d', ds', hq', hf, h0, h1, -⟩
      · simp only [Lane.left, hf, if_true]
        exact ⟨hpos, le_rfl⟩
      · rw [hq] at hq'
        cases hq'
        simp only [Lane.left, hf]
        exact ⟨h0, h1.le⟩
    refine ⟨beats dataWidthBytes r.req.burstLen - L.left (MemRead.toDRec dataWidthBytes r), ?_, ?_⟩
    · simp only [hdrop, List.map_cons, List.sum_cons, Lane.remaining, hq, List.length_append,
        List.length_replicate, List.length_flatMap, beatLabels, List.map_map, Function.comp_def,
        MemRead.toDRec]
      simp only [MemRead.toDRec] at hleft
      omega
    · intro n hn
      rw [hdrop] at hn
      obtain rfl : beats dataWidthBytes r.req.burstLen = n := by simpa using hn
      omega

/-- **Returns are exact**: `return_tag` has been called once for every request all of whose beats
have passed. -/
lemma returns_eq (h : Routed t H L)
    (hb : ∀ r ∈ H.requests, WholeBurst dataWidthBytes r.req.burstLen) :
    H.returns = completed (H.requests.map fun r => beats dataWidthBytes r.req.burstLen)
      H.outcomes.length := by
  obtain ⟨m, hsum, hhead⟩ := h.exists_given hb
  set f : RRec numClients numTags addrWidth → ℕ := fun r => beats dataWidthBytes r.req.burstLen
  have hsplit : H.requests.map f =
      (H.requests.take H.returns).map f ++ (H.requests.drop H.returns).map f := by
    rw [← List.map_append, List.take_append_drop]
  have hlen : H.outcomes.length = ((H.requests.take H.returns).map f).sum + m := by
    have h1 := congrArg List.length h.labels
    rw [H.labels_length, List.length_append, List.length_map, ← h.passed] at h1
    have h2 := congrArg List.sum hsplit
    rw [List.sum_append, hsum] at h2
    change (H.requests.map f).sum = _ at h1
    omega
  rw [hsplit, hlen, completed_append _ _ _ hhead, List.length_map, List.length_take,
    Nat.min_eq_left h.returns_le]

/-- A lane in which nothing waits, and whose beats have all arrived, is done. -/
lemma complete (h : Routed t H L)
    (hb : ∀ r ∈ H.requests, WholeBurst dataWidthBytes r.req.burstLen) (hx : L.waiting = [])
    (hp : L.piped = []) (hl : H.arrived.length = H.labels.length) :
    H.delivered = H.labels.zip H.arrived ∧ H.returns = H.requests.length := by
  have hlabels := h.labels
  have hdata := h.data
  rw [hp, List.append_nil] at hlabels hdata
  rw [hx, List.append_nil] at hdata
  have hrem : L.remaining = [] := by
    have h1 := congrArg List.length hlabels
    have h2 := congrArg List.length hdata
    simp only [List.length_append, List.length_map] at h1 h2
    apply List.eq_nil_of_length_eq_zero
    omega
  rw [hrem, List.append_nil] at hlabels
  refine ⟨?_, ?_⟩
  · rw [hlabels, hdata]
    exact List.zip_of_prod rfl rfl
  · -- a request in the queue would have a label left
    obtain ⟨m, hsum, hhead⟩ := h.exists_given hb
    have hle := h.returns_le
    cases hd : H.requests.drop H.returns with
    | nil =>
      have := List.drop_eq_nil_iff.mp hd
      omega
    | cons r rs =>
      rw [hd, hrem] at hsum
      have hlt : m < beats dataWidthBytes r.req.burstLen := hhead _ (by rw [hd]; rfl)
      simp only [List.map_cons, List.sum_cons, List.length_nil] at hsum
      omega

end Routed

/-! ## Runs of the module -/

/-- The memory has sent at most the beats it was asked for: `beats` for every request, under the
request's tag. How the beats of different tags interleave is not restricted. -/
def MemoryAnswers {ε : Type}
    (tr : List (MemRead.Event ε numClients numTags addrWidth dataWidthBytes)) : Prop :=
  ∀ tag : BitVec 6, ((tr.filterMap MemRead.Event.memBeat?).filter fun d => d.tag = tag).length ≤
    (((tr.filterMap MemRead.Event.memRequest?).filter fun m => m.tag = tag).map fun m =>
      beats dataWidthBytes m.burstLen).sum

instance {ε : Type} (tr : List (MemRead.Event ε numClients numTags addrWidth dataWidthBytes)) :
    Decidable (MemoryAnswers tr) :=
  inferInstanceAs (Decidable (∀ _ : BitVec 6, _))

/-- What holds of a run of the read module with trace `tr` that ends in state `s`. -/
structure ReadsRouted {τ κ ε : Type} (tg : TagGen τ κ ε numClients numTags)
    (tr : List (MemRead.Event ε numClients numTags addrWidth dataWidthBytes))
    (s : MemRead τ numClients numTags addrWidth dataWidthBytes) : Prop where
  /-- The memory gets the accepted requests in order, under their rename tags. -/
  inOrder : (tr.filterMap MemRead.Event.handed?).map RRec.toLRec <+:
    tr.filterMap MemRead.Event.accepted?
  memRequests : tr.filterMap MemRead.Event.memRequest? =
    (tr.filterMap MemRead.Event.handed?).map RRec.memRequest
  /-- The beats delivered under a rename tag are the beats of the memory, in order, each delivered
  to the client and under the tag of the request it belongs to. -/
  delivered : ∀ t, (MemRead.history t tr).delivered <+:
    (MemRead.history t tr).labels.zip (MemRead.history t tr).arrived
  /-- Both assertions hold whenever they are made. -/
  asserts : ∀ d tagOk lastOk, .response d tagOk lastOk ∈ tr → tagOk = true ∧ lastOk = true
  /-- `return_tag` has been called once for each request whose beats have all passed. -/
  returns : ∀ t, (MemRead.history t tr).returns =
    completed ((MemRead.history t tr).requests.map fun r => beats dataWidthBytes r.req.burstLen)
      (MemRead.history t tr).outcomes.length
  /-- Nothing is lost: once the memory has answered and the queues are empty, every accepted
  request has been handed over, has got all of its beats, and has been returned. -/
  complete : s.front.lreqFifo.items = [] → s.front.reqFifo.items = [] →
    s.responseFifo.items = [] → s.readDataPipelineFifo.items = [] →
    (∀ t, (MemRead.history t tr).arrived.length = (MemRead.history t tr).labels.length) →
    (tr.filterMap MemRead.Event.handed?).map RRec.toLRec = tr.filterMap MemRead.Event.accepted? ∧
    ∀ t, (MemRead.history t tr).delivered =
        (MemRead.history t tr).labels.zip (MemRead.history t tr).arrived ∧
      (MemRead.history t tr).returns = (MemRead.history t tr).requests.length
  /-- A beat that has arrived can move on: it is never stuck for want of its request. -/
  responseReady : s.responseFifo.items ≠ [] → s.readDataPipelineFifo.items.length < 2 →
    (∀ t, (tg.returnTag s.front.tagGen t).isSome) → (s.readClientResponse tg).isSome
  deliverReady : s.readDataPipelineFifo.items ≠ [] →
    (s.readDataComp : Option (_ × List (MemRead.Event ε numClients numTags addrWidth _))).isSome

namespace MemRead

variable {σ τ κ ε : Type} {tg : TagGen τ κ ε numClients numTags}
  {s : MemRead τ numClients numTags addrWidth dataWidthBytes}
  {tr : List (Event ε numClients numTags addrWidth dataWidthBytes)}

/-- Beats of a tag are not ahead of the requests of the tag. -/
lemma arrived_le_labels (hn : numTags ≤ 64) (hi : InOrder tr s) (hm : MemoryAnswers tr)
    (t : Fin numTags) : (history t tr).arrived.length ≤ (history t tr).labels.length := by
  have h := hm (memTag t)
  rw [hi.memRequests, List.filter_map, List.map_map] at h
  have hf : (fun m : MemRequest addrWidth => decide (m.tag = memTag t)) ∘ RRec.memRequest =
      fun r : RRec numClients numTags addrWidth => decide (r.renameTag = t) := by
    funext r
    simp [RRec.memRequest, memTag_inj hn]
  rw [hf] at h
  rw [History.labels_length]
  simpa [history, Function.comp_def, RRec.memRequest] using h

/-- A beat that waits belongs to a lane with a request in its queue.

**Proof sketch.** The memory was asked for the beat, so it has the tag of a lane. In that lane
beats waiting are at most the labels remaining, so some label remains. -/
lemma exists_request (hn : numTags ≤ 64) (hi : InOrder tr s)
    (hr : ∀ t, Routed t (history t tr) (s.lane t)) (hm : MemoryAnswers tr)
    {d : ObjectData (dataWidthBytes * 8)} {ds : List (ObjectData (dataWidthBytes * 8))}
    (hd : s.responseFifo.items = d :: ds) :
    ∃ t drq rest, d.tag = memTag t ∧ (s.dreqFifos t).items = drq :: rest := by
  have hmem : d ∈ tr.filterMap Event.memBeat? := hi.sent d (by simp [hd])
  -- some request has the tag of the beat
  obtain ⟨t, ht⟩ : ∃ t : Fin numTags, d.tag = memTag t := by
    have h := hm d.tag
    rw [hi.memRequests] at h
    have hpos : 0 < ((tr.filterMap Event.memBeat?).filter fun e => e.tag = d.tag).length :=
      List.length_pos_of_mem (List.mem_filter.mpr ⟨hmem, by simp⟩)
    cases hf : ((tr.filterMap Event.handed?).map RRec.memRequest).filter fun m => m.tag = d.tag with
    | nil =>
      rw [hf] at h
      simp only [List.map_nil, List.sum_nil] at h
      omega
    | cons m ms =>
      have hm' : m ∈ m :: ms := List.mem_cons_self
      rw [← hf, List.mem_filter, List.mem_map] at hm'
      obtain ⟨⟨r, -, rfl⟩, htag⟩ := hm'
      exact ⟨r.renameTag, by simpa [RRec.memRequest, eq_comm] using htag⟩
  refine ⟨t, ?_⟩
  have hle := arrived_le_labels hn hi hm t
  rw [(hr t).labels, (hr t).data] at hle
  have hw : (s.lane t).waiting = d.data :: waitingOf t ds := by
    simp [lane, waitingOf, hd, ht]
  rw [hw] at hle
  simp only [List.length_append, List.length_map, List.length_cons] at hle
  cases hq : (s.dreqFifos t).items with
  | nil =>
    have hrem : (s.lane t).remaining = [] := by simp [Lane.remaining, lane, hq]
    rw [hrem] at hle
    simp only [List.length_nil] at hle
    omega
  | cons drq rest => exact ⟨drq, rest, ht, rfl⟩

/-- The rule `read_client_response` can fire when a beat waits, its request is queued, the pipeline
has room, and the tag can be returned. -/
lemma readClientResponse_isSome (hn : numTags ≤ 64) {d : ObjectData (dataWidthBytes * 8)}
    {ds : List (ObjectData (dataWidthBytes * 8))} {t : Fin numTags} {drq : DRec numClients numTags}
    {rest : List (DRec numClients numTags)} (hd : s.responseFifo.items = d :: ds)
    (ht : d.tag = memTag t) (hq : (s.dreqFifos t).items = drq :: rest)
    (hp : s.readDataPipelineFifo.items.length < 2)
    (hg : (tg.returnTag s.front.tagGen t).isSome) : (s.readClientResponse tg).isSome := by
  obtain ⟨responses, hd', -⟩ := Fifo.exists_deq hd
  obtain ⟨pipe, hp', -⟩ := Fifo.exists_enq hp (drq, d)
  obtain ⟨dreqs, hq', -⟩ := Fifo.exists_deq hq
  obtain ⟨g, hg'⟩ := Option.isSome_iff_exists.mp hg
  have hf : (s.dreqFifos t).first = some drq := Fifo.first_eq_some.mpr ⟨rest, hq⟩
  simp only [readClientResponse, hd', (tagIndex_eq_some hn).mpr ht, hf, hp', hq', hg', bind,
    Option.bind_some, pure]
  split <;> rfl

end MemRead

section Theorem

variable {σ τ κ ε ι δ : Type} {sgl : Server σ ReqTup (BitVec addrWidth)}
  {tg : TagGen τ κ ε numClients numTags} {env : RuleSystem σ ι δ}

/-- **Read data is routed.** For any number of clients and at most 64 tags, any address server and
any tag generator: along every run in which the accepted requests are whole bursts and the memory
sends what it was asked for, in any interleaving of the tags, every beat goes to the client and
under the tag of its request, in order and without loss, the assertions hold, and every request is
returned once. The width of a beat is a power of two.

**Proof sketch.** Every lane satisfies `Routed` (`MemRead.routed_of_reaches`); each part is read off
it. -/
theorem memRead_routes {k : ℕ} (hn : numTags ≤ 64) (hw : dataWidthBytes = 2 ^ k) {w₀ : σ} {g₀ : τ}
    {tr : List (MemRead.Event ε numClients numTags addrWidth dataWidthBytes)}
    {p : σ × MemRead τ numClients numTags addrWidth dataWidthBytes}
    (h : ((memRead dataWidthBytes sgl tg).behind env).Reaches (w₀, .reset g₀) tr p)
    (hb : ∀ l ∈ tr.filterMap MemRead.Event.accepted?, WholeBurst dataWidthBytes l.req.burstLen)
    (hm : MemoryAnswers tr) : ReadsRouted tg tr p.2 := by
  obtain ⟨hi, hr⟩ := MemRead.routed_of_reaches hn hw h hb
  have hb' : ∀ t, ∀ r ∈ (MemRead.history t tr).requests,
      WholeBurst dataWidthBytes r.req.burstLen := fun t r hmem => hb _ (hi.toLRec_mem hmem)
  refine ⟨hi.passes.isPrefix, hi.memRequests, fun t => ?_, ?_,
    fun t => (hr t).returns_eq (hb' t), ?_, ?_, ?_⟩
  · exact (List.prefix_append _ _).trans (hr t).delivered_zip
  · intro d b c hmem
    obtain ⟨t, ht⟩ := hi.tags d b c hmem
    have ho : (b, c) ∈ (MemRead.history t tr).outcomes :=
      List.mem_filterMap.mpr ⟨_, hmem, by simp [MemRead.Event.outcome?, ht]⟩
    simpa using (hr t).outcomes _ ho
  · intro hl hq hx hp hsent
    refine ⟨?_, fun t => ?_⟩
    · have hp := hi.passes
      rw [FrontEnd.Passes, hl, hq, List.append_nil, List.append_nil] at hp
      exact hp.symm
    · refine (hr t).complete (hb' t) ?_ ?_ (hsent t)
      · simp [MemRead.lane, MemRead.waitingOf, hx]
      · simp [MemRead.lane, MemRead.pipedOf, hp]
  · intro hx hp hg
    obtain ⟨d, ds, hd⟩ := List.exists_cons_of_ne_nil hx
    obtain ⟨t, drq, rest, ht, hq⟩ := MemRead.exists_request hn hi hr hm hd
    exact MemRead.readClientResponse_isSome hn hd ht hq hp (hg t)
  · intro hp
    obtain ⟨x, xs, hx⟩ := List.exists_cons_of_ne_nil hp
    obtain ⟨pipe, hd, -⟩ := Fifo.exists_deq hx
    simp [MemRead.readDataComp, hd]

end Theorem

/-! ## Concrete runs -/

/-- A read module with an address server that answers every request with its offset, and with the
in-order tag generator. -/
def readModule (numClients dataWidthBytes : ℕ) :=
  (memRead dataWidthBytes (Server.queue 9 fun r : ReqTup => r.off) ( mkTagGenIO numClients)).behind
    (RuleSystem.noRules _)

/-- A run of two clients: bursts of two beats and of one beat, the beats of the second coming in
between those of the first. -/
def readInterleaved :=
  (readModule 2 4).run (Fifo.empty, .reset Fifo.empty)
    [.inl (.front (.loadClient 0 ⟨0, 0x10, 8, 5⟩)), .inl (.front (.loadClient 1 ⟨1, 0x20, 4, 7⟩)),
      .inl (.front .checkSglResp), .inl .readReq, .inl (.front .checkSglResp), .inl .readReq,
      .inl (.readData ⟨0xa, 0, false⟩), .inl (.readData ⟨0xb, 1, false⟩),
      .inl .readClientResponse, .inl .readClientResponse, .inl .readDataComp, .inl .readDataComp,
      .inl (.readData ⟨0xc, 0, true⟩), .inl .readClientResponse, .inl .readDataComp]

/-- Both clients get their beats under their own tags. -/
theorem memRead_routes_interleaved :
    ReadsRouted ( mkTagGenIO 2) readInterleaved.2 readInterleaved.1.2 ∧
      (MemRead.history 0 readInterleaved.2).delivered = [((0, 5), 0xa), ((0, 5), 0xc)] ∧
      (MemRead.history 1 readInterleaved.2).delivered = [((1, 7), 0xb)] := by
  refine ⟨memRead_routes (k := 2) (by decide) rfl (RuleSystem.reaches_run _ _) ?_ ?_, ?_, ?_⟩
  all_goals decide +kernel

/-- A run with beats of three bytes: a burst of one beat. -/
def readThreeBytes :=
  (readModule 1 3).run (Fifo.empty, .reset Fifo.empty)
    [.inl (.front (.loadClient 0 ⟨0, 0x10, 3, 5⟩)), .inl (.front .checkSglResp), .inl .readReq,
      .inl (.readData ⟨0xa, 0, false⟩), .inl .readClientResponse]

/-- **Widths that are not a power of two.** With beats of three bytes the shift is by two bits, so a
burst of three bytes counts as no beat at all and the assertion on the last beat fails. -/
theorem not_readsRouted_three_bytes :
    (readModule 1 3).Reaches (Fifo.empty, .reset Fifo.empty) readThreeBytes.2 readThreeBytes.1 ∧
      (∀ l ∈ readThreeBytes.2.filterMap MemRead.Event.accepted?, WholeBurst 3 l.req.burstLen) ∧
      MemoryAnswers readThreeBytes.2 ∧
      ¬ ReadsRouted ( mkTagGenIO 1) readThreeBytes.2 readThreeBytes.1.2 := by
  refine ⟨RuleSystem.reaches_run _ _, by decide +kernel, by decide +kernel, fun h => ?_⟩
  have hf := h.asserts ⟨0xa, 0, false⟩ true false (by decide +kernel)
  exact absurd hf.2 (by decide)

end Xbsv
