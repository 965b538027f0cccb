import Xbsv.Portal.PageReads

set_option relaxedAutoImplicit false
set_option autoImplicit false

/-!
# Writing through a multiplexer

A multiplexer has at most one write under way. Its request and its beat of data go to the slave
independently of each other, and the slave responds once it has both.

## Main definitions

* `Xbsv.WriteMux.Phase` — where the write under way is.
* `Xbsv.WriteMux.Flow` — what can be seen of a run in a phase.
* `Xbsv.WriteMux.Is`, `Xbsv.SlaveMux.Writes.Is` — what the queues hold in a phase.

## Main results

* `Xbsv.memSlaveMuxWrites_step`, `Xbsv.slaveMuxWrites_step` — a step goes from phase to phase.
* `Xbsv.memSlaveMuxWrites_run`, `Xbsv.slaveMuxWrites_run` — every run is in some phase.
* `Xbsv.memSlaveMuxWrites_finish`, `Xbsv.slaveMuxWrites_finish` — the write under way can be finished.
-/

namespace Xbsv

open Rules

/-- A write: its slave, its request and its beat of data. -/
abbrev Write (n aw dataWidth : ℕ) := Fin n × MemRequest aw × ObjectData dataWidth

namespace WriteMux

variable {n addrWidth aw dataWidth : ℕ}

/-! ## What can be seen -/

namespace Event

def requested? : Event n addrWidth aw dataWidth → Option (MemRequest addrWidth)
  | .requested req => some req
  | _ => none

def delivered? : Event n addrWidth aw dataWidth → Option (Fin n × MemRequest aw)
  | .delivered i req => some (i, req)
  | _ => none

def dataPut? : Event n addrWidth aw dataWidth → Option (ObjectData dataWidth)
  | .dataPut data => some data
  | _ => none

def dataDelivered? : Event n addrWidth aw dataWidth → Option (Fin n × ObjectData dataWidth)
  | .dataDelivered i data => some (i, data)
  | _ => none

def answered? : Event n addrWidth aw dataWidth → Option (Write n aw dataWidth × BitVec 6)
  | .answered i req data tag => some ((i, req, data), tag)
  | _ => none

def done? : Event n addrWidth aw dataWidth → Option (BitVec 6)
  | .done tag => some tag
  | _ => none

end Event

section Traces

variable (tr es : List (Event n addrWidth aw dataWidth))

/-- The requests of the master. -/
def requested : List (MemRequest addrWidth) := tr.filterMap Event.requested?

/-- The requests that were put to slaves. -/
def delivered : List (Fin n × MemRequest aw) := tr.filterMap Event.delivered?

/-- The beats of the master. -/
def dataPut : List (ObjectData dataWidth) := tr.filterMap Event.dataPut?

/-- The beats that were put to slaves. -/
def dataDelivered : List (Fin n × ObjectData dataWidth) := tr.filterMap Event.dataDelivered?

/-- The writes that slaves responded to. -/
def answered : List (Write n aw dataWidth × BitVec 6) := tr.filterMap Event.answered?

/-- The responses that the master has got. -/
def done : List (BitVec 6) := tr.filterMap Event.done?

@[simp] lemma requested_append : requested (tr ++ es) = requested tr ++ requested es := List.filterMap_append

@[simp] lemma delivered_append : delivered (tr ++ es) = delivered tr ++ delivered es := List.filterMap_append

@[simp] lemma dataPut_append : dataPut (tr ++ es) = dataPut tr ++ dataPut es := List.filterMap_append

@[simp] lemma dataDelivered_append : dataDelivered (tr ++ es) = dataDelivered tr ++ dataDelivered es :=
  List.filterMap_append

@[simp] lemma answered_append : answered (tr ++ es) = answered tr ++ answered es := List.filterMap_append

@[simp] lemma done_append : done (tr ++ es) = done tr ++ done es := List.filterMap_append

@[simp] lemma requested_single (e : Event n addrWidth aw dataWidth) : requested [e] = e.requested?.toList := by
  cases e <;> rfl

@[simp] lemma delivered_single (e : Event n addrWidth aw dataWidth) : delivered [e] = e.delivered?.toList := by
  cases e <;> rfl

@[simp] lemma dataPut_single (e : Event n addrWidth aw dataWidth) : dataPut [e] = e.dataPut?.toList := by
  cases e <;> rfl

@[simp] lemma dataDelivered_single (e : Event n addrWidth aw dataWidth) :
    dataDelivered [e] = e.dataDelivered?.toList := by
  cases e <;> rfl

@[simp] lemma answered_single (e : Event n addrWidth aw dataWidth) : answered [e] = e.answered?.toList := by
  cases e <;> rfl

@[simp] lemma done_single (e : Event n addrWidth aw dataWidth) : done [e] = e.done?.toList := by
  cases e <;> rfl

end Traces

/-! ## Phases -/

/-- Where the beat of the write under way is. -/
inductive Beat (dataWidth : ℕ) where
  /-- The master has yet to put it. -/
  | owed
  /-- It is in the multiplexer. -/
  | put (data : ObjectData dataWidth)
  /-- It was put to the slave, or to nobody. -/
  | taken (data : ObjectData dataWidth)

namespace Beat

/-- The beat, once it was put. -/
def data : Beat dataWidth → List (ObjectData dataWidth)
  | .owed => []
  | .put data => [data]
  | .taken data => [data]

/-- The beat, once it has left the multiplexer. -/
def left : Beat dataWidth → List (ObjectData dataWidth)
  | .taken data => [data]
  | _ => []

/-- The beat in the multiplexer. -/
def moving : Beat dataWidth → List (ObjectData dataWidth)
  | .put data => [data]
  | _ => []

/-- The number of beats that the master has yet to put. -/
def toPut : Beat dataWidth → ℕ
  | .owed => 1
  | _ => 0

end Beat

/-- Where the write under way is. -/
inductive Phase (n aw dataWidth : ℕ) where
  | idle
  /-- `taken` tells if the request was put to the slave, or to nobody. -/
  | busy (i : Option (Fin n)) (req : MemRequest aw) (taken : Bool) (beat : Beat dataWidth)

namespace Phase

/-- The write under way. -/
def current : Phase n aw dataWidth → List (Option (Fin n) × MemRequest aw)
  | .idle => []
  | .busy i req _ _ => [(i, req)]

/-- Its request in the multiplexer. -/
def queued : Phase n aw dataWidth → List (MemRequest aw)
  | .idle => []
  | .busy _ req taken _ => if taken then [] else [req]

/-- Its request, if it was put to a slave. -/
def delivered : Phase n aw dataWidth → List (Fin n × MemRequest aw)
  | .idle => []
  | .busy i req taken _ => if taken then i.toList.map fun i => (i, req) else []

/-- Its beat. -/
def data : Phase n aw dataWidth → List (ObjectData dataWidth)
  | .idle => []
  | .busy _ _ _ beat => beat.data

/-- Its beat in the multiplexer. -/
def moving : Phase n aw dataWidth → List (ObjectData dataWidth)
  | .idle => []
  | .busy _ _ _ beat => beat.moving

/-- Its beat, if it was put to a slave. -/
def dataDelivered : Phase n aw dataWidth → List (Fin n × ObjectData dataWidth)
  | .idle => []
  | .busy i _ _ beat => i.toList.flatMap fun i => beat.left.map fun data => (i, data)

/-- The number of beats that the master has yet to put. -/
def toPut : Phase n aw dataWidth → ℕ
  | .idle => 0
  | .busy _ _ _ beat => beat.toPut

/-- Its request at the slave `j`. -/
def pendingReqs (p : Phase n aw dataWidth) (j : Fin n) : List (MemRequest aw) :=
  p.delivered.filterMap fun x => if x.1 = j then some x.2 else none

/-- Its beat at the slave `j`. -/
def pendingData (p : Phase n aw dataWidth) (j : Fin n) : List (ObjectData dataWidth) :=
  p.dataDelivered.filterMap fun x => if x.1 = j then some x.2 else none

end Phase

variable {P : PageSelect n}

/-- The run so far: the writes `past` are finished, and the one under way is in phase `p`. -/
structure Flow (P : PageSelect n) (tr : List (Event n P.addrWidth P.aw dataWidth))
    (past : List (Write n P.aw dataWidth × BitVec 6)) (p : Phase n P.aw dataWidth) : Prop where
  requested : (requested tr).map P.target = past.map (fun x => (some x.1.1, x.1.2.1)) ++ p.current
  delivered : delivered tr = past.map (fun x => (x.1.1, x.1.2.1)) ++ p.delivered
  dataPut : dataPut tr = past.map (fun x => x.1.2.2) ++ p.data
  dataDelivered : dataDelivered tr = past.map (fun x => (x.1.1, x.1.2.2)) ++ p.dataDelivered
  answered : answered tr = past
  done : done tr = past.map Prod.snd

namespace Flow

variable {tr : List (Event n P.addrWidth P.aw dataWidth)} {i : Option (Fin n)} {req : MemRequest P.aw}
  {past : List (Write n P.aw dataWidth × BitVec 6)} {data : ObjectData dataWidth} {taken : Bool}
  {beat : Beat dataWidth}

lemma nil : Flow P ([] : List (Event n P.addrWidth P.aw dataWidth)) [] .idle :=
  ⟨rfl, rfl, rfl, rfl, rfl, rfl⟩

lemma request (h : Flow P tr past .idle) (req : MemRequest P.addrWidth) :
    Flow P (tr ++ [Event.requested req]) past (.busy (P.target req).1 (P.target req).2 false .owed) where
  requested := by simp [h.requested, Phase.current, Event.requested?]
  delivered := by simp [h.delivered, Phase.delivered, Event.delivered?]
  dataPut := by simp [h.dataPut, Phase.data, Beat.data, Event.dataPut?]
  dataDelivered := by simp [h.dataDelivered, Phase.dataDelivered, Beat.left, Event.dataDelivered?]
  answered := by simp [h.answered, Event.answered?]
  done := by simp [h.done, Event.done?]

lemma deliver (h : Flow P tr past (.busy i req false beat)) :
    Flow P (tr ++ i.toList.map fun i => .delivered i req) past (.busy i req true beat) := by
  cases i with
  | none =>
    simp only [Option.toList_none, List.map_nil, List.append_nil]
    exact ⟨h.requested, h.delivered, h.dataPut, h.dataDelivered, h.answered, h.done⟩
  | some i =>
    constructor
    · simp [h.requested, Phase.current, Event.requested?]
    · simp [h.delivered, Phase.delivered, Event.delivered?]
    · simp [h.dataPut, Phase.data, Event.dataPut?]
    · simp [h.dataDelivered, Phase.dataDelivered, Event.dataDelivered?]
    · simp [h.answered, Event.answered?]
    · simp [h.done, Event.done?]

lemma putData (h : Flow P tr past (.busy i req taken .owed)) (data : ObjectData dataWidth) :
    Flow P (tr ++ [Event.dataPut data]) past (.busy i req taken (.put data)) where
  requested := by simp [h.requested, Phase.current, Event.requested?]
  delivered := by simp [h.delivered, Phase.delivered, Event.delivered?]
  dataPut := by simp [h.dataPut, Phase.data, Beat.data, Event.dataPut?]
  dataDelivered := by simp [h.dataDelivered, Phase.dataDelivered, Beat.left, Event.dataDelivered?]
  answered := by simp [h.answered, Event.answered?]
  done := by simp [h.done, Event.done?]

lemma deliverData (h : Flow P tr past (.busy i req taken (.put data))) :
    Flow P (tr ++ i.toList.map fun i => .dataDelivered i data) past (.busy i req taken (.taken data)) := by
  cases i with
  | none =>
    simp only [Option.toList_none, List.map_nil, List.append_nil]
    exact ⟨h.requested, h.delivered, h.dataPut, h.dataDelivered, h.answered, h.done⟩
  | some i =>
    constructor
    · simp [h.requested, Phase.current, Event.requested?]
    · simp [h.delivered, Phase.delivered, Event.delivered?]
    · simp [h.dataPut, Phase.data, Beat.data, Event.dataPut?]
    · simp [h.dataDelivered, Phase.dataDelivered, Beat.left, Event.dataDelivered?]
    · simp [h.answered, Event.answered?]
    · simp [h.done, Event.done?]

lemma finish {i : Fin n} (h : Flow P tr past (.busy (some i) req true (.taken data))) (tag : BitVec 6) :
    Flow P (tr ++ [Event.answered i req data tag, .done tag]) (past ++ [((i, req, data), tag)]) .idle := by
  constructor
  · rw [requested_append, List.map_append, h.requested]
    simp [WriteMux.requested, Phase.current, Event.requested?]
  · rw [delivered_append, h.delivered]
    simp [WriteMux.delivered, Phase.delivered, Event.delivered?]
  · rw [dataPut_append, h.dataPut]
    simp [WriteMux.dataPut, Phase.data, Beat.data, Event.dataPut?]
  · rw [dataDelivered_append, h.dataDelivered]
    simp [WriteMux.dataDelivered, Phase.dataDelivered, Beat.left, Event.dataDelivered?]
  · rw [answered_append, h.answered]
    rfl
  · rw [done_append, h.done, List.map_append]
    rfl

end Flow

/-- The write under way can be finished, without another request. -/
def Finishes {σ α : Type} (M : RuleSystem σ α (Event n P.addrWidth P.aw dataWidth))
    (tr : List (Event n P.addrWidth P.aw dataWidth)) (s : σ) : Prop :=
  ∃ tr' s' past, M.Reaches s tr' s' ∧ requested tr' = [] ∧ Flow P (tr ++ tr') past .idle

section Finishes

variable {σ α : Type} {M : RuleSystem σ α (Event n P.addrWidth P.aw dataWidth)} {s s₁ : σ} {a : α}
  {tr es : List (Event n P.addrWidth P.aw dataWidth)}

lemma Finishes.of_idle {past : List (Write n P.aw dataWidth × BitVec 6)} (h : Flow P tr past .idle) :
    Finishes M tr s := ⟨[], s, past, .refl, rfl, by rwa [List.append_nil]⟩

/-- A step on the way. -/
lemma Finishes.of_step (h : Finishes M (tr ++ es) s₁) (hs : M.step s a = some (s₁, es))
    (hreq : requested es = []) : Finishes M tr s := by
  obtain ⟨tr', s', past, hreach, hreq', hf⟩ := h
  refine ⟨es ++ tr', s', past, (RuleSystem.Reaches.single a hs).trans hreach, ?_, ?_⟩
  · rw [requested_append, hreq, hreq', List.append_nil]
  · rwa [← List.append_assoc]

end Finishes

/-! ## The queues -/

/-- The queues of the multiplexer and the slaves in a phase. -/
structure Is (s : WriteMux n aw dataWidth) (p : Phase n aw dataWidth) : Prop where
  req_aws : s.req_aws.items = p.queued
  ws : s.ws.items.map portalIfcs = p.current.map Prod.fst
  owed : s.owed = p.toPut
  slaveReqs : ∀ j, s.slaveReqs j = p.pendingReqs j
  slaveData : ∀ j, s.slaveData j = p.pendingData j

namespace Is

variable {s s' : WriteMux n aw dataWidth} {p : Phase n aw dataWidth} {i : Option (Fin n)}
  {req : MemRequest aw} {data : ObjectData dataWidth} {taken : Bool} {beat : Beat dataWidth}

lemma reset : (reset n aw dataWidth).Is .idle := ⟨rfl, rfl, rfl, fun _ => rfl, fun _ => rfl⟩

/-- The slave of the write under way is remembered. -/
lemma exists_ws (h : s.Is (.busy i req taken beat)) :
    ∃ sel ws, s.ws.deq = some (sel, ws) ∧ s.ws.first = some sel ∧ ws.items = [] ∧ portalIfcs sel = i := by
  have hcur := h.ws
  obtain ⟨sel, sels, hws⟩ := List.exists_cons_of_ne_nil (l := s.ws.items) fun hnil => by
    rw [hnil] at hcur
    cases hcur
  obtain ⟨ws, hdeq, hitems⟩ := Fifo.exists_deq hws
  rw [hws] at hcur
  obtain ⟨hi, hnil⟩ := List.cons_eq_cons.mp hcur
  exact ⟨sel, ws, hdeq, Fifo.first_eq_some.mpr ⟨sels, hws⟩, hitems.trans (List.map_eq_nil_iff.mp hnil), hi⟩

/-- If a slave is remembered it is that of the write under way. -/
lemma of_first (h : s.Is p) {sel : BitVec (tlog n)} (hsel : s.ws.first = some sel) :
    ∃ req taken beat, p = .busy (portalIfcs sel) req taken beat := by
  obtain ⟨sels, hws⟩ := Fifo.first_eq_some.mp hsel
  have hcur := h.ws
  rw [hws] at hcur
  cases p with
  | idle => cases hcur
  | busy i req taken beat =>
    obtain ⟨hi, -⟩ := List.cons_eq_cons.mp hcur
    exact ⟨req, taken, beat, by rw [hi]⟩

/-- A request is accepted only if no write is under way. -/
lemma writeReq {s s' : WriteMux n P.aw dataWidth} {p : Phase n P.aw dataWidth}
    {req : MemRequest P.addrWidth} (h : s.Is p) (hs : writeReq P s req = some s') :
    p = .idle ∧ s'.Is (.busy (P.target req).1 (P.target req).2 false .owed) := by
  simp only [WriteMux.writeReq, bind, pure, Option.bind_eq_some_iff, Fifo.enq_eq_some,
    Option.some.injEq] at hs
  obtain ⟨req_aws, ⟨-, hreq⟩, ws, ⟨hlen, hws⟩, rfl⟩ := hs
  have hnil : s.ws.items = [] := List.eq_nil_of_length_eq_zero (by omega)
  obtain rfl : p = .idle := by
    have hcur := h.ws
    rw [hnil] at hcur
    cases p with
    | idle => rfl
    | _ => cases hcur
  refine ⟨rfl, ?_, ?_, ?_, h.slaveReqs, fun j => ?_⟩
  · rw [hreq, h.req_aws]
    rfl
  · rw [hws, hnil]
    rfl
  · show s.owed + 1 = 1
    rw [h.owed]
    rfl
  · refine (h.slaveData j).trans ?_
    cases (P.target req).1 <;> rfl

/-- The request of the write under way is put to its slave. -/
lemma deliver (h : s.Is (.busy i req false beat)) {req_aws : Fifo 1 (MemRequest aw)}
    (hnil : req_aws.items = []) {slaveReqs : Fin n → List (MemRequest aw)}
    (hslave : ∀ j, slaveReqs j = s.slaveReqs j ++ if i = some j then [req] else []) :
    { s with req_aws, slaveReqs }.Is (.busy i req true beat) := by
  refine ⟨hnil, h.ws, h.owed, fun j => ?_, h.slaveData⟩
  refine (hslave j).trans ?_
  rw [h.slaveReqs j]
  cases i with
  | none => rfl
  | some i => by_cases hij : i = j <;> simp [Phase.pendingReqs, Phase.delivered, hij]

/-- The rule puts the request to its slave, if it has one. -/
lemma req_aw {es : List (Event n addrWidth aw dataWidth)} (h : s.Is p) (hs : s.req_aw = some (s', es)) :
    ∃ i req beat, p = .busy i req false beat ∧ s'.Is (.busy i req true beat) ∧
      es = i.toList.map fun i => .delivered i req := by
  simp only [WriteMux.req_aw, bind, Option.bind_eq_some_iff, Prod.exists, Fifo.deq_eq_some] at hs
  obtain ⟨req, req_aws, hreq, sel, hsel, hs⟩ := hs
  obtain ⟨req', taken, beat, rfl⟩ := h.of_first hsel
  have hitems := h.req_aws
  rw [hreq] at hitems
  cases taken with
  | true => cases hitems
  | false =>
    obtain ⟨rfl, hnil⟩ := List.cons_eq_cons.mp hitems
    refine ⟨_, req, beat, rfl, ?_⟩
    cases hi : portalIfcs sel with
    | none =>
      rw [hi] at hs h
      simp only [pure, Option.some.injEq, Prod.mk.injEq] at hs
      obtain ⟨rfl, rfl⟩ := hs
      exact ⟨h.deliver hnil fun j => by simp, rfl⟩
    | some i =>
      rw [hi] at hs h
      simp only [pure, Option.some.injEq, Prod.mk.injEq] at hs
      obtain ⟨rfl, rfl⟩ := hs
      refine ⟨h.deliver hnil fun j => ?_, rfl⟩
      by_cases hij : i = j
      · subst hij
        simp
      · simp [hij, Function.update_of_ne (Ne.symm hij)]

/-- The master puts its beat. -/
lemma putData (h : s.Is p) (howed : s.owed ≠ 0) {sel : BitVec (tlog n)} (hsel : s.ws.first = some sel)
    (data : ObjectData dataWidth) :
    ∃ req taken, p = .busy (portalIfcs sel) req taken .owed ∧
      { s with owed := s.owed - 1 }.Is (.busy (portalIfcs sel) req taken (.put data)) := by
  obtain ⟨req, taken, beat, rfl⟩ := h.of_first hsel
  have hbeat : beat = .owed := by
    have ho := h.owed
    cases beat with
    | owed => rfl
    | _ => exact absurd ho howed
  subst hbeat
  refine ⟨req, taken, rfl, h.req_aws, h.ws, ?_, h.slaveReqs, h.slaveData⟩
  show s.owed - 1 = 0
  rw [h.owed]
  rfl

/-- A beat that nobody takes. -/
lemma dropData (h : s.Is (.busy none req taken (.put data))) : s.Is (.busy none req taken (.taken data)) :=
  ⟨h.req_aws, h.ws, h.owed, h.slaveReqs, h.slaveData⟩

/-- The slave takes the beat. -/
lemma deliverData {i : Fin n} (h : s.Is (.busy (some i) req taken (.put data))) :
    { s with slaveData := Function.update s.slaveData i (s.slaveData i ++ [data]) }.Is
      (.busy (some i) req taken (.taken data)) := by
  refine ⟨h.req_aws, h.ws, h.owed, h.slaveReqs, fun j => ?_⟩
  by_cases hij : i = j
  · subst hij
    simp [h.slaveData i, Phase.pendingData, Phase.dataDelivered, Beat.left]
  · simp [Function.update_of_ne (Ne.symm hij), h.slaveData j, Phase.pendingData, Phase.dataDelivered,
      Beat.left, hij]

/-- The slave that responds is the one that has got the request and the beat. -/
lemma writeDone {tag : BitVec 6} {es : List (Event n addrWidth aw dataWidth)} (h : s.Is p)
    (hs : s.writeDone tag = some (s', es)) :
    ∃ i req data, p = .busy (some i) req true (.taken data) ∧ s'.Is .idle ∧
      es = [.answered i req data tag, .done tag] := by
  simp only [WriteMux.writeDone, bind, Option.bind_eq_some_iff, Prod.exists] at hs
  obtain ⟨sel, hsel, i, hi, sel', ws, hws, hs⟩ := hs
  obtain ⟨req, taken, beat, rfl⟩ := h.of_first hsel
  rw [hi] at h
  obtain ⟨sel₁, ws', hws', -, hnil, -⟩ := h.exists_ws
  rw [hws'] at hws
  cases hws
  have hr := h.slaveReqs i
  have hd := h.slaveData i
  split at hs
  · rename_i req' reqs data datas hreqs hdatas
    simp only [pure, Option.some.injEq, Prod.mk.injEq] at hs
    obtain ⟨rfl, rfl⟩ := hs
    rw [hreqs] at hr
    rw [hdatas] at hd
    cases taken with
    | false => cases hr
    | true =>
      cases beat with
      | taken data' =>
        simp only [Phase.pendingReqs, Phase.delivered, Phase.pendingData, Phase.dataDelivered, Beat.left,
          Option.toList_some, List.map_cons, List.map_nil, List.flatMap_cons, List.flatMap_nil, List.append_nil,
          if_true, List.filterMap_cons, List.filterMap_nil, List.cons_eq_cons] at hr hd
        obtain ⟨rfl, rfl⟩ := hr
        obtain ⟨rfl, rfl⟩ := hd
        refine ⟨i, req', data, by rw [hi], ⟨h.req_aws, by rw [hnil]; rfl, h.owed, fun j => ?_, fun j => ?_⟩, rfl⟩
        · by_cases hij : j = i
          · subst hij
            simp [Phase.pendingReqs, Phase.delivered]
          · simp [Function.update_of_ne hij, h.slaveReqs j, Phase.pendingReqs, Phase.delivered, Ne.symm hij]
        · by_cases hij : j = i
          · subst hij
            simp [Phase.pendingData, Phase.dataDelivered]
          · simp [Function.update_of_ne hij, h.slaveData j, Phase.pendingData, Phase.dataDelivered, Beat.left,
              Ne.symm hij]
      | _ => cases hd
  · cases hs

/-- The rule can put a waiting request to its slave. -/
lemma exists_req_aw (h : s.Is (.busy i req false beat)) :
    ∃ r : WriteMux n aw dataWidth × List (Event n addrWidth aw dataWidth), s.req_aw = some r := by
  obtain ⟨req_aws, hdeq, -⟩ := Fifo.exists_deq h.req_aws
  obtain ⟨sel, ws, -, hfirst, -, hi⟩ := h.exists_ws
  cases i with
  | none => exact ⟨_, by simp [WriteMux.req_aw, hdeq, hfirst, hi]; rfl⟩
  | some i => exact ⟨_, by simp [WriteMux.req_aw, hdeq, hfirst, hi]; rfl⟩

/-- The slave can respond. -/
lemma exists_writeDone {i : Fin n} (h : s.Is (.busy (some i) req true (.taken data))) (tag : BitVec 6) :
    ∃ r : WriteMux n aw dataWidth × List (Event n addrWidth aw dataWidth), s.writeDone tag = some r := by
  obtain ⟨sel, ws, hdeq, hfirst, -, hi⟩ := h.exists_ws
  have hr : s.slaveReqs i = [req] := by
    simp [h.slaveReqs i, Phase.pendingReqs, Phase.delivered]
  have hd : s.slaveData i = [data] := by
    simp [h.slaveData i, Phase.pendingData, Phase.dataDelivered, Beat.left]
  exact ⟨_, by simp [WriteMux.writeDone, hdeq, hfirst, hi, hr, hd]; rfl⟩

end Is

end WriteMux

open WriteMux

section MemSlaveMux

variable {n dataWidth : ℕ} {P : PageSelect n} {p : WriteMux.Phase n P.aw dataWidth}
  {tr es : List (WriteMux.Event n P.addrWidth P.aw dataWidth)} {s s' : WriteMux n P.aw dataWidth}
  {past : List (Write n P.aw dataWidth × BitVec 6)}

/-- **One step** of `mkMemSlaveMux`: a slave takes its beat at once. -/
lemma memSlaveMuxWrites_step (hf : WriteMux.Flow P tr past p) (h : s.Is p) (hp : p.moving = [])
    {a : MemSlaveMux.WriteAction P.addrWidth dataWidth}
    (hs : (memSlaveMuxWrites P dataWidth).step s a = some (s', es)) :
    ∃ past' p', WriteMux.Flow P (tr ++ es) past' p' ∧ s'.Is p' ∧ p'.moving = [] := by
  cases a with
  | writeReq req =>
    simp only [memSlaveMuxWrites, bind, pure, Option.bind_eq_some_iff, Option.some.injEq, Prod.mk.injEq] at hs
    obtain ⟨s₁, hreq, rfl, rfl⟩ := hs
    obtain ⟨rfl, h'⟩ := h.writeReq hreq
    exact ⟨past, _, hf.request req, h', rfl⟩
  | req_aw =>
    simp only [memSlaveMuxWrites] at hs
    obtain ⟨i, req, beat, rfl, h', rfl⟩ := h.req_aw hs
    exact ⟨past, _, hf.deliver, h', hp⟩
  | writeData data =>
    simp only [memSlaveMuxWrites, bind, Option.bind_eq_some_iff, Option.ite_none_left_eq_some] at hs
    obtain ⟨howed, sel, hsel, hs⟩ := hs
    obtain ⟨req, taken, rfl, h₁⟩ := h.putData howed hsel data
    have hf₁ := (hf.putData data).deliverData
    rw [List.append_assoc] at hf₁
    cases hi : portalIfcs sel with
    | none =>
      rw [hi] at hs h₁ hf₁
      simp only [pure, Option.some.injEq, Prod.mk.injEq] at hs
      obtain ⟨rfl, rfl⟩ := hs
      exact ⟨past, _, hf₁, h₁.dropData, rfl⟩
    | some i =>
      rw [hi] at hs h₁ hf₁
      simp only [pure, Option.some.injEq, Prod.mk.injEq] at hs
      obtain ⟨rfl, rfl⟩ := hs
      exact ⟨past, _, hf₁, h₁.deliverData, rfl⟩
  | writeDone tag =>
    simp only [memSlaveMuxWrites] at hs
    obtain ⟨i, req, data, rfl, h', rfl⟩ := h.writeDone hs
    exact ⟨_, .idle, hf.finish tag, h', rfl⟩

/-- **All runs** of `mkMemSlaveMux`. -/
lemma memSlaveMuxWrites_run (h : (memSlaveMuxWrites P dataWidth).Reaches (.reset n P.aw dataWidth) tr s) :
    ∃ past p, WriteMux.Flow P tr past p ∧ s.Is p ∧ p.moving = [] := by
  refine h.invariant (I := fun tr (s : WriteMux n P.aw dataWidth) =>
    ∃ past p, WriteMux.Flow P tr past p ∧ s.Is p ∧ p.moving = []) ⟨[], .idle, .nil, .reset, rfl⟩ ?_
  rintro tr s a s' es ⟨past, p, hf, hp, ha⟩ hs
  exact memSlaveMuxWrites_step hf hp ha hs

/-- The slave has got the request and the beat. -/
lemma memSlaveMuxWrites_done {i : Fin n} {req : MemRequest P.aw} {data : ObjectData dataWidth}
    (hf : WriteMux.Flow P tr past (.busy (some i) req true (.taken data)))
    (h : s.Is (.busy (some i) req true (.taken data))) :
    WriteMux.Finishes (memSlaveMuxWrites P dataWidth) tr s := by
  obtain ⟨⟨s₁, es⟩, hs⟩ := h.exists_writeDone 0
  have hstep : (memSlaveMuxWrites P dataWidth).step s (.writeDone 0) = some (s₁, es) := hs
  obtain ⟨i', req', data', heq, -, rfl⟩ := h.writeDone hs
  cases heq
  exact (WriteMux.Finishes.of_idle (hf.finish 0)).of_step hstep rfl

/-- The slave has got the request. -/
lemma memSlaveMuxWrites_beat {i : Fin n} {req : MemRequest P.aw} {beat : Beat dataWidth}
    (hf : WriteMux.Flow P tr past (.busy (some i) req true beat)) (h : s.Is (.busy (some i) req true beat))
    (hp : beat.moving = []) : WriteMux.Finishes (memSlaveMuxWrites P dataWidth) tr s := by
  cases beat with
  | owed =>
    let data : ObjectData dataWidth := ⟨0, 0, true⟩
    obtain ⟨sel, ws, -, hfirst, -, hi⟩ := h.exists_ws
    have howed : s.owed ≠ 0 := by
      rw [h.owed]
      exact Nat.one_ne_zero
    obtain ⟨req', taken, heq, h₁⟩ := h.putData howed hfirst data
    rw [hi] at heq h₁
    cases heq
    have hstep : (memSlaveMuxWrites P dataWidth).step s (.writeData data) =
        some ({ s with
          owed := s.owed - 1
          slaveData := Function.update s.slaveData i (s.slaveData i ++ [data]) },
          [.dataPut data, .dataDelivered i data]) := by
      simp [memSlaveMuxWrites, howed, hfirst, hi, WriteMux.deliverData]
    have hf₁ := (hf.putData data).deliverData
    rw [List.append_assoc] at hf₁
    exact (memSlaveMuxWrites_done hf₁ h₁.deliverData).of_step hstep rfl
  | put data => cases hp
  | taken data => exact memSlaveMuxWrites_done hf h

/-- The write under way, whose slave exists, can be finished. -/
lemma memSlaveMuxWrites_finish (hf : WriteMux.Flow P tr past p) (h : s.Is p) (hp : p.moving = [])
    (hslave : ∀ x ∈ p.current, x.1 ≠ none) : WriteMux.Finishes (memSlaveMuxWrites P dataWidth) tr s := by
  cases p with
  | idle => exact .of_idle hf
  | busy i req taken beat =>
    obtain ⟨i, rfl⟩ := Option.ne_none_iff_exists'.mp (hslave _ (List.mem_singleton_self _))
    cases taken with
    | false =>
      obtain ⟨⟨s₁, es⟩, hs⟩ := h.exists_req_aw
      have hstep : (memSlaveMuxWrites P dataWidth).step s .req_aw = some (s₁, es) := hs
      obtain ⟨i', req', beat', heq, h₁, rfl⟩ := h.req_aw hs
      cases heq
      exact (memSlaveMuxWrites_beat hf.deliver h₁ hp).of_step hstep rfl
    | true => exact memSlaveMuxWrites_beat hf h hp

end MemSlaveMux

/-! ## The unfunnel -/

/-- What the unfunnel holds in a phase: a beat on its way to the slave that is remembered. -/
def WriteMux.Phase.Sends {n aw dataWidth : ℕ} (p : WriteMux.Phase n aw dataWidth)
    (net : Net (unfunnelCap 2) (BitVec (tlog n) × ObjectData dataWidth)) : Prop :=
  match p with
  | .busy i _ _ (.put data) => ∃ node sel, net.Only node (sel, data) ∧
      (∀ j : Fin n, i = some j ↔ outputOf n (bitsPerCycle n) node sel = j) ∧
      (i ≠ none → Directed n (bitsPerCycle n) node (sel, data))
  | _ => net.IsEmpty

/-- The queues of `mkSlaveMux` and the slaves in a phase. -/
structure SlaveMux.Writes.Is {n aw dataWidth : ℕ} (s : SlaveMux.Writes n aw dataWidth)
    (p : WriteMux.Phase n aw dataWidth) : Prop where
  mux : s.mux.Is p
  unfunnel : p.Sends s.write_data_unfunnel

section SlaveMux

variable {n dataWidth : ℕ} {P : PageSelect n} {p : WriteMux.Phase n P.aw dataWidth}
  {tr es : List (WriteMux.Event n P.addrWidth P.aw dataWidth)} {s s' : SlaveMux.Writes n P.aw dataWidth}
  {past : List (Write n P.aw dataWidth × BitVec 6)}

/-- A slave that is remembered is an output of the unfunnel. -/
lemma portalIfcs_eq_some {sel : BitVec (tlog n)} {i : Fin n} :
    portalIfcs sel = some i ↔ sel.toNat = i := by
  unfold portalIfcs
  split
  · rw [Option.some.injEq, Fin.ext_iff]
  · rename_i hge
    exact ⟨(fun h => by cases h), fun h => absurd (h ▸ i.isLt) hge⟩

/-- A beat enters the unfunnel. -/
lemma Sends_top {aw : ℕ} {net net' : Net (unfunnelCap 2) (BitVec (tlog n) × ObjectData dataWidth)}
    (hempty : net.IsEmpty) {sel : BitVec (tlog n)} {data : ObjectData dataWidth}
    (henq : net.enq (stages n (bitsPerCycle n) + 1, 0) (sel, data) = some net') (req : MemRequest aw)
    (taken : Bool) : (WriteMux.Phase.busy (portalIfcs sel) req taken (.put data)).Sends net' := by
  have hout : outputOf n (bitsPerCycle n) (stages n (bitsPerCycle n) + 1, 0) sel = sel.toNat := by
    simp [outputOf, tagShift]
  refine ⟨_, sel, hempty.enq henq, fun j => ?_, fun hne => ?_⟩
  · rw [hout]
    exact portalIfcs_eq_some
  · obtain ⟨i, hi⟩ := Option.ne_none_iff_exists'.mp hne
    have hsel : BitVec.ofNat (tlog n) i = sel := by
      rw [← portalIfcs_eq_some.mp hi, BitVec.ofNat_toNat, BitVec.setWidth_eq]
    rw [← hsel]
    exact directed_top i.isLt data

/-- A beat moves on in the unfunnel. -/
lemma WriteMux.Phase.Sends.move {aw : ℕ} {p : WriteMux.Phase n aw dataWidth}
    {net net' : Net (unfunnelCap 2) (BitVec (tlog n) × ObjectData dataWidth)} (h : p.Sends net) {node : Node}
    (hmove : net.move (unfunnelRoute n (bitsPerCycle n)) node = some net') : p.Sends net' := by
  have hempty : ¬ net.IsEmpty := fun hempty => by
    rw [hempty.move_eq_none] at hmove
    cases hmove
  cases p with
  | idle => exact absurd h hempty
  | busy i req taken beat =>
    cases beat with
    | put data =>
      obtain ⟨node', sel, honly, hout, hdir⟩ := h
      obtain ⟨rfl, m, y, hroute, honly'⟩ := honly.move hmove
      have hfollows := unfunnel_follows (β := ObjectData dataWidth) (bitsPerCycle_pos n) (bitsPerCycle_le n)
      obtain ⟨-, hkey, hpay, -⟩ := hfollows.route_eq hroute (unfunnelPaths_pos _ _)
      obtain ⟨sel', data'⟩ := y
      have hdata : data' = data := hpay
      have hkey' : outputOf n (bitsPerCycle n) m sel' = outputOf n (bitsPerCycle n) node sel := hkey
      subst hdata
      refine ⟨m, sel', honly', fun j => ?_, fun hne => ?_⟩
      · rw [hkey']
        exact hout j
      · exact ((hdir hne).route (bitsPerCycle_pos n) (bitsPerCycle_le n) hroute).2
    | _ => exact absurd h hempty

/-- A beat leaves the unfunnel where its slave is. -/
lemma WriteMux.Phase.Sends.deq {aw : ℕ} {p : WriteMux.Phase n aw dataWidth}
    {net net' : Net (unfunnelCap 2) (BitVec (tlog n) × ObjectData dataWidth)} (h : p.Sends net) {i : Fin n}
    {sel : BitVec (tlog n)} {data : ObjectData dataWidth} (hdeq : net.deq (0, i) = some ((sel, data), net')) :
    ∃ req taken, p = .busy (some i) req taken (.put data) ∧ net'.IsEmpty := by
  have hempty : ¬ net.IsEmpty := fun hempty => by
    rw [hempty.deq_eq_none] at hdeq
    cases hdeq
  cases p with
  | idle => exact absurd h hempty
  | busy i' req taken beat =>
    cases beat with
    | put data' =>
      obtain ⟨node, sel', honly, hout, -⟩ := h
      obtain ⟨rfl, heq, hempty'⟩ := honly.deq hdeq
      cases heq
      obtain rfl : i' = some i := (hout i).mpr (by simp [outputOf])
      exact ⟨req, taken, rfl, hempty'⟩
    | _ => exact absurd h hempty

/-- **One step** of `mkSlaveMux`. -/
lemma slaveMuxWrites_step (hf : WriteMux.Flow P tr past p) (h : s.Is p)
    {a : SlaveMux.WriteAction n P.addrWidth dataWidth}
    (hs : (slaveMuxWrites P dataWidth).step s a = some (s', es)) :
    ∃ past' p', WriteMux.Flow P (tr ++ es) past' p' ∧ s'.Is p' := by
  cases a with
  | writeReq req =>
    simp only [slaveMuxWrites, bind, pure, Option.bind_eq_some_iff, Option.some.injEq, Prod.mk.injEq] at hs
    obtain ⟨mux, hreq, rfl, rfl⟩ := hs
    obtain ⟨rfl, h'⟩ := h.mux.writeReq hreq
    exact ⟨past, _, hf.request req, h', h.unfunnel⟩
  | req_aw =>
    simp only [slaveMuxWrites, bind, pure, Option.bind_eq_some_iff, Prod.exists, Option.some.injEq,
      Prod.mk.injEq] at hs
    obtain ⟨mux, es', hreq, rfl, rfl⟩ := hs
    obtain ⟨i, req, beat, rfl, h', rfl⟩ := h.mux.req_aw hreq
    refine ⟨past, _, hf.deliver, h', ?_⟩
    have hunfunnel := h.unfunnel
    cases beat <;> exact hunfunnel
  | writeData data =>
    simp only [slaveMuxWrites, bind, pure, Option.bind_eq_some_iff, Option.ite_none_left_eq_some,
      Option.some.injEq, Prod.mk.injEq] at hs
    obtain ⟨howed, sel, hsel, net, henq, rfl, rfl⟩ := hs
    obtain ⟨req, taken, rfl, h₁⟩ := h.mux.putData howed hsel data
    have hempty : s.write_data_unfunnel.IsEmpty := h.unfunnel
    exact ⟨past, _, hf.putData data, h₁, Sends_top hempty henq req taken⟩
  | move node =>
    simp only [slaveMuxWrites, bind, pure, Option.bind_eq_some_iff, Option.some.injEq, Prod.mk.injEq] at hs
    obtain ⟨net, hmove, rfl, rfl⟩ := hs
    rw [List.append_nil]
    exact ⟨past, p, hf, h.mux, h.unfunnel.move hmove⟩
  | connect i =>
    simp only [slaveMuxWrites, bind, pure, Option.bind_eq_some_iff, Prod.exists, Option.some.injEq,
      Prod.mk.injEq] at hs
    obtain ⟨sel, data, net, hdeq, rfl, rfl⟩ := hs
    obtain ⟨req, taken, rfl, hempty⟩ := h.unfunnel.deq hdeq
    exact ⟨past, _, hf.deliverData, h.mux.deliverData, hempty⟩
  | writeDone tag =>
    simp only [slaveMuxWrites, bind, pure, Option.bind_eq_some_iff, Prod.exists, Option.some.injEq,
      Prod.mk.injEq] at hs
    obtain ⟨mux, es', hdone, rfl, rfl⟩ := hs
    obtain ⟨i, req, data, rfl, h', rfl⟩ := h.mux.writeDone hdone
    exact ⟨_, .idle, hf.finish tag, h', h.unfunnel⟩

/-- **All runs** of `mkSlaveMux`. -/
lemma slaveMuxWrites_run (h : (slaveMuxWrites P dataWidth).Reaches ⟨.reset n P.aw dataWidth, .empty⟩ tr s) :
    ∃ past p, WriteMux.Flow P tr past p ∧ s.Is p := by
  have hempty : (WriteMux.Phase.idle : WriteMux.Phase n P.aw dataWidth).Sends .empty := Net.isEmpty_empty
  refine h.invariant (I := fun tr (s : SlaveMux.Writes n P.aw dataWidth) =>
    ∃ past p, WriteMux.Flow P tr past p ∧ s.Is p) ⟨[], .idle, .nil, .reset, hempty⟩ ?_
  rintro tr s a s' es ⟨past, p, hf, hp⟩ hs
  exact slaveMuxWrites_step hf hp hs

/-- The slave has got the request and the beat. -/
lemma slaveMuxWrites_done {i : Fin n} {req : MemRequest P.aw} {data : ObjectData dataWidth}
    (hf : WriteMux.Flow P tr past (.busy (some i) req true (.taken data)))
    (h : s.mux.Is (.busy (some i) req true (.taken data))) :
    WriteMux.Finishes (slaveMuxWrites P dataWidth) tr s := by
  have hexists : ∃ r : _ × List (WriteMux.Event n P.addrWidth P.aw dataWidth),
      s.mux.writeDone 0 = some r := h.exists_writeDone 0
  obtain ⟨⟨mux, es⟩, hs⟩ := hexists
  have hstep : (slaveMuxWrites P dataWidth).step s (.writeDone 0) = some ({ s with mux }, es) := by
    simp only [slaveMuxWrites, hs, bind, pure, Option.bind_some]
  obtain ⟨i', req', data', heq, -, rfl⟩ := h.writeDone hs
  cases heq
  exact (WriteMux.Finishes.of_idle (hf.finish 0)).of_step hstep rfl

/-- The beat is in the unfunnel. -/
lemma slaveMuxWrites_put {i : Fin n} {req : MemRequest P.aw} {data : ObjectData dataWidth}
    (hf : WriteMux.Flow P tr past (.busy (some i) req true (.put data)))
    (h : s.mux.Is (.busy (some i) req true (.put data))) {node : Node} {sel : BitVec (tlog n)}
    (honly : s.write_data_unfunnel.Only node (sel, data))
    (hout : outputOf n (bitsPerCycle n) node sel = i) (hdir : Directed n (bitsPerCycle n) node (sel, data)) :
    WriteMux.Finishes (slaveMuxWrites P dataWidth) tr s := by
  obtain ⟨level, c⟩ := node
  induction level generalizing s c sel with
  | zero =>
    obtain rfl : c = i := by simpa [outputOf] using hout
    obtain ⟨net, hdeq⟩ := honly.exists_deq
    have hstep : (slaveMuxWrites P dataWidth).step s (.connect i) =
        some (⟨{ s.mux with
          slaveData := Function.update s.mux.slaveData i (s.mux.slaveData i ++ [data]) }, net⟩,
          [.dataDelivered i data]) := by
      simp [slaveMuxWrites, hdeq, WriteMux.deliverData]
    exact (slaveMuxWrites_done hf.deliverData h.deliverData).of_step hstep rfl
  | succ level ih =>
    obtain ⟨m, ⟨sel', data'⟩, hroute⟩ := hdir.exists_route (bitsPerCycle_pos n) (bitsPerCycle_le n)
      (Nat.succ_pos level)
    have hfollows := unfunnel_follows (β := ObjectData dataWidth) (bitsPerCycle_pos n) (bitsPerCycle_le n)
    obtain ⟨-, hkey, hpay, -⟩ := hfollows.route_eq hroute (unfunnelPaths_pos _ _)
    obtain ⟨hlevel, hdir'⟩ := hdir.route (bitsPerCycle_pos n) (bitsPerCycle_le n) hroute
    have hdata : data' = data := hpay
    subst hdata
    have hkey' : outputOf n (bitsPerCycle n) m sel' = outputOf n (bitsPerCycle n) (level + 1, c) sel := hkey
    obtain ⟨net, hmove⟩ := honly.exists_move hroute
      (fun he => by
        rw [he] at hlevel
        omega)
      (by
        unfold unfunnelCap
        split <;> decide)
    obtain ⟨-, m', y', hroute', honly'⟩ := honly.move hmove
    rw [hroute, Option.some.injEq, Prod.mk.injEq] at hroute'
    obtain ⟨rfl, rfl⟩ := hroute'
    have hstep : (slaveMuxWrites P dataWidth).step s (.move (level + 1, c)) =
        some ({ s with write_data_unfunnel := net }, []) := by
      simp [slaveMuxWrites, hmove]
    obtain ⟨level', c'⟩ := m
    simp only [Nat.add_right_cancel_iff] at hlevel
    subst hlevel
    have hfinish := ih (s := { s with write_data_unfunnel := net }) h c' honly' (hkey'.trans hout) hdir'
    rw [← List.append_nil tr] at hfinish
    exact hfinish.of_step hstep rfl

/-- The slave has got the request. -/
lemma slaveMuxWrites_beat {i : Fin n} {req : MemRequest P.aw} {beat : Beat dataWidth}
    (hf : WriteMux.Flow P tr past (.busy (some i) req true beat)) (h : s.Is (.busy (some i) req true beat)) :
    WriteMux.Finishes (slaveMuxWrites P dataWidth) tr s := by
  have hput : ∀ {s : SlaveMux.Writes n P.aw dataWidth}
      {tr : List (WriteMux.Event n P.addrWidth P.aw dataWidth)} {data : ObjectData dataWidth},
      WriteMux.Flow P tr past (.busy (some i) req true (.put data)) →
      s.Is (.busy (some i) req true (.put data)) →
      WriteMux.Finishes (slaveMuxWrites P dataWidth) tr s := by
    intro s tr data hf h
    obtain ⟨node, sel, honly, hout, hdir⟩ := h.unfunnel
    exact slaveMuxWrites_put hf h.mux honly ((hout i).mp rfl) (hdir (by simp))
  cases beat with
  | owed =>
    let data : ObjectData dataWidth := ⟨0, 0, true⟩
    obtain ⟨sel, ws, -, hfirst, -, hi⟩ := h.mux.exists_ws
    have howed : s.mux.owed ≠ 0 := by
      rw [h.mux.owed]
      exact Nat.one_ne_zero
    have hempty : s.write_data_unfunnel.IsEmpty := h.unfunnel
    obtain ⟨net, henq⟩ := hempty.exists_enq (n := (stages n (bitsPerCycle n) + 1, 0))
      (by rw [unfunnelCap, if_neg (Nat.succ_ne_zero _)]; decide) (sel, data)
    obtain ⟨req', taken, heq, h₁⟩ := h.mux.putData howed hfirst data
    have hsends := Sends_top hempty henq req' taken
    rw [hi] at heq h₁ hsends
    cases heq
    have hstep : (slaveMuxWrites P dataWidth).step s (.writeData data) =
        some (⟨{ s.mux with owed := s.mux.owed - 1 }, net⟩, [.dataPut data]) := by
      simp [slaveMuxWrites, howed, hfirst, henq]
    exact (hput (hf.putData data) ⟨h₁, hsends⟩).of_step hstep rfl
  | put data => exact hput hf h
  | taken data => exact slaveMuxWrites_done hf h.mux

/-- The write under way, whose slave exists, can be finished. -/
lemma slaveMuxWrites_finish (hf : WriteMux.Flow P tr past p) (h : s.Is p)
    (hslave : ∀ x ∈ p.current, x.1 ≠ none) : WriteMux.Finishes (slaveMuxWrites P dataWidth) tr s := by
  cases p with
  | idle => exact .of_idle hf
  | busy i req taken beat =>
    obtain ⟨i, rfl⟩ := Option.ne_none_iff_exists'.mp (hslave _ (List.mem_singleton_self _))
    cases taken with
    | false =>
      have hexists : ∃ r : _ × List (WriteMux.Event n P.addrWidth P.aw dataWidth),
          s.mux.req_aw = some r := h.mux.exists_req_aw
      obtain ⟨⟨mux, es⟩, hs⟩ := hexists
      have hstep : (slaveMuxWrites P dataWidth).step s .req_aw = some ({ s with mux }, es) := by
        simp [slaveMuxWrites, hs]
      obtain ⟨i', req', beat', heq, h₁, rfl⟩ := h.mux.req_aw hs
      cases heq
      have hunfunnel := h.unfunnel
      have h' : SlaveMux.Writes.Is { s with mux } (.busy (some i) req true beat) :=
        ⟨h₁, by cases beat <;> exact hunfunnel⟩
      exact (slaveMuxWrites_beat hf.deliver h').of_step hstep rfl
    | true => exact slaveMuxWrites_beat hf h

end SlaveMux

end Xbsv
