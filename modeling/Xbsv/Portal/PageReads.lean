import Xbsv.Portal.CtrlMux

set_option relaxedAutoImplicit false
set_option autoImplicit false

/-!
# Reading through a multiplexer

A multiplexer has at most one read under way: the queue that remembers its slave is emptied only with the
response. A read goes through the same phases in both multiplexers, which differ in how the data comes back.

## Main definitions

* `Xbsv.ReadMux.Phase` — where the read under way is.
* `Xbsv.ReadMux.Flow` — what can be seen of a run in a phase.
* `Xbsv.ReadMux.Is`, `Xbsv.SlaveMux.Reads.Is` — what the queues hold in a phase.

## Main results

* `Xbsv.memSlaveMuxReads_step`, `Xbsv.slaveMuxReads_step` — a step goes from phase to phase.
* `Xbsv.memSlaveMuxReads_run`, `Xbsv.slaveMuxReads_run` — every run is in some phase.
* `Xbsv.memSlaveMuxReads_finish`, `Xbsv.slaveMuxReads_finish` — the read under way can be finished.
-/

namespace Xbsv

open Rules

/-- The slave of a request, if there is one, and the request that is put to it. -/
def PageSelect.target {n : ℕ} (P : PageSelect n) (req : MemRequest P.addrWidth) :
    Option (Fin n) × MemRequest P.aw := (portalIfcs (P.slaveSel req.addr), P.inPage req)

namespace ReadMux

variable {n addrWidth aw dataWidth : ℕ}

/-! ## What can be seen -/

namespace Event

def requested? : Event n addrWidth aw dataWidth → Option (MemRequest addrWidth)
  | .requested req => some req
  | _ => none

def delivered? : Event n addrWidth aw dataWidth → Option (Fin n × MemRequest aw)
  | .delivered i req => some (i, req)
  | _ => none

def answered? : Event n addrWidth aw dataWidth → Option ((Fin n × MemRequest aw) × ObjectData dataWidth)
  | .answered i req data => some ((i, req), data)
  | _ => none

def returned? : Event n addrWidth aw dataWidth → Option (ObjectData dataWidth)
  | .returned data => some data
  | _ => none

end Event

section Traces

variable (tr es : List (Event n addrWidth aw dataWidth))

/-- The requests of the master. -/
def requested : List (MemRequest addrWidth) := tr.filterMap Event.requested?

/-- The requests that were put to slaves. -/
def delivered : List (Fin n × MemRequest aw) := tr.filterMap Event.delivered?

/-- The requests that slaves responded to, with their data. -/
def answered : List ((Fin n × MemRequest aw) × ObjectData dataWidth) := tr.filterMap Event.answered?

/-- The data that the master has got. -/
def returned : List (ObjectData dataWidth) := tr.filterMap Event.returned?

@[simp] lemma requested_append : requested (tr ++ es) = requested tr ++ requested es := List.filterMap_append

@[simp] lemma delivered_append : delivered (tr ++ es) = delivered tr ++ delivered es := List.filterMap_append

@[simp] lemma answered_append : answered (tr ++ es) = answered tr ++ answered es := List.filterMap_append

@[simp] lemma returned_append : returned (tr ++ es) = returned tr ++ returned es := List.filterMap_append

@[simp] lemma requested_single (e : Event n addrWidth aw dataWidth) : requested [e] = e.requested?.toList := by
  cases e <;> rfl

@[simp] lemma delivered_single (e : Event n addrWidth aw dataWidth) : delivered [e] = e.delivered?.toList := by
  cases e <;> rfl

@[simp] lemma answered_single (e : Event n addrWidth aw dataWidth) : answered [e] = e.answered?.toList := by
  cases e <;> rfl

@[simp] lemma returned_single (e : Event n addrWidth aw dataWidth) : returned [e] = e.returned?.toList := by
  cases e <;> rfl

end Traces

/-! ## Phases -/

/-- Where the read under way is. -/
inductive Phase (n aw dataWidth : ℕ) where
  | idle
  /-- The request is in the multiplexer. -/
  | waiting (i : Option (Fin n)) (req : MemRequest aw)
  /-- It was put to the slave, or to nobody. -/
  | taken (i : Option (Fin n)) (req : MemRequest aw)
  /-- The slave has responded, and the data is on its way. -/
  | returning (i : Fin n) (req : MemRequest aw) (data : ObjectData dataWidth)

namespace Phase

/-- The read under way. -/
def current : Phase n aw dataWidth → List (Option (Fin n) × MemRequest aw)
  | .idle => []
  | .waiting i req => [(i, req)]
  | .taken i req => [(i, req)]
  | .returning i req _ => [(some i, req)]

/-- Its request in the multiplexer. -/
def queued : Phase n aw dataWidth → List (MemRequest aw)
  | .waiting _ req => [req]
  | _ => []

/-- Its request at the slave `j`. -/
def pending (j : Fin n) : Phase n aw dataWidth → List (MemRequest aw)
  | .taken i req => if i = some j then [req] else []
  | _ => []

/-- Its request, if it was put to a slave. -/
def delivered : Phase n aw dataWidth → List (Fin n × MemRequest aw)
  | .taken (some i) req => [(i, req)]
  | .returning i req _ => [(i, req)]
  | _ => []

/-- The response of the slave. -/
def answered : Phase n aw dataWidth → List ((Fin n × MemRequest aw) × ObjectData dataWidth)
  | .returning i req data => [((i, req), data)]
  | _ => []

end Phase

variable {P : PageSelect n} {p : Phase n P.aw dataWidth}

/-- The run so far: the reads `past` are finished, and the one under way is in phase `p`. -/
structure Flow (P : PageSelect n) (tr : List (Event n P.addrWidth P.aw dataWidth))
    (past : List ((Fin n × MemRequest P.aw) × ObjectData dataWidth)) (p : Phase n P.aw dataWidth) : Prop where
  requested : (requested tr).map P.target = past.map (fun x => (some x.1.1, x.1.2)) ++ p.current
  delivered : delivered tr = past.map Prod.fst ++ p.delivered
  answered : answered tr = past ++ p.answered
  returned : returned tr = past.map Prod.snd

namespace Flow

variable {tr : List (Event n P.addrWidth P.aw dataWidth)} {i : Fin n} {req : MemRequest P.aw}
  {past : List ((Fin n × MemRequest P.aw) × ObjectData dataWidth)} {data : ObjectData dataWidth}

lemma nil : Flow P ([] : List (Event n P.addrWidth P.aw dataWidth)) [] .idle := ⟨rfl, rfl, rfl, rfl⟩

lemma request (h : Flow P tr past .idle) (req : MemRequest P.addrWidth) :
    Flow P (tr ++ [Event.requested req]) past (.waiting (P.target req).1 (P.target req).2) where
  requested := by simp [h.requested, Phase.current, Event.requested?]
  delivered := by simp [h.delivered, Phase.delivered, Event.delivered?]
  answered := by simp [h.answered, Phase.answered, Event.answered?]
  returned := by simp [h.returned, Event.returned?]

lemma deliver {i : Option (Fin n)} (h : Flow P tr past (.waiting i req)) :
    Flow P (tr ++ i.toList.map fun i => .delivered i req) past (.taken i req) := by
  cases i with
  | none =>
    simp only [Option.toList_none, List.map_nil, List.append_nil]
    exact ⟨h.requested, h.delivered, h.answered, h.returned⟩
  | some i =>
    constructor
    · simp [h.requested, Phase.current, Event.requested?]
    · simp [h.delivered, Phase.delivered, Event.delivered?]
    · simp [h.answered, Phase.answered, Event.answered?]
    · simp [h.returned, Event.returned?]

lemma answer (h : Flow P tr past (.taken (some i) req)) (data : ObjectData dataWidth) :
    Flow P (tr ++ [Event.answered i req data]) past (.returning i req data) where
  requested := by simp [h.requested, Phase.current, Event.requested?]
  delivered := by simp [h.delivered, Phase.delivered, Event.delivered?]
  answered := by simp [h.answered, Phase.answered, Event.answered?]
  returned := by simp [h.returned, Event.returned?]

lemma finish (h : Flow P tr past (.returning i req data)) :
    Flow P (tr ++ [Event.returned data]) (past ++ [((i, req), data)]) .idle where
  requested := by simp [h.requested, Phase.current, Event.requested?]
  delivered := by simp [h.delivered, Phase.delivered, Event.delivered?]
  answered := by simp [h.answered, Phase.answered, Event.answered?]
  returned := by simp [h.returned, Event.returned?]

end Flow

/-- The read under way can be finished, without another request. -/
def Finishes {σ α : Type} (M : RuleSystem σ α (Event n P.addrWidth P.aw dataWidth))
    (tr : List (Event n P.addrWidth P.aw dataWidth)) (s : σ) : Prop :=
  ∃ tr' s' past, M.Reaches s tr' s' ∧ requested tr' = [] ∧ Flow P (tr ++ tr') past .idle

section Finishes

variable {σ α : Type} {M : RuleSystem σ α (Event n P.addrWidth P.aw dataWidth)} {s s₁ : σ} {a : α}
  {tr es : List (Event n P.addrWidth P.aw dataWidth)}

lemma Finishes.of_idle {past : List ((Fin n × MemRequest P.aw) × ObjectData dataWidth)}
    (h : Flow P tr past .idle) : Finishes M tr s := ⟨[], s, past, .refl, rfl, by rwa [List.append_nil]⟩

/-- A step on the way. -/
lemma Finishes.of_step (h : Finishes M (tr ++ es) s₁) (hs : M.step s a = some (s₁, es))
    (hreq : requested es = []) : Finishes M tr s := by
  obtain ⟨tr', s', past, hreach, hreq', hf⟩ := h
  refine ⟨es ++ tr', s', past, (RuleSystem.Reaches.single a hs).trans hreach, ?_, ?_⟩
  · rw [requested_append, hreq, hreq', List.append_nil]
  · rwa [← List.append_assoc]

end Finishes

/-! ## The queues -/

/-- The queues of the multiplexer and the slaves in a phase. -/
structure Is (s : ReadMux n aw) (p : Phase n aw dataWidth) : Prop where
  req_ars : s.req_ars.items = p.queued
  rs : s.rs.items.map portalIfcs = p.current.map Prod.fst
  slaves : ∀ j, s.slaves j = p.pending j

namespace Is

lemma reset : (reset n aw).Is (.idle : Phase n aw dataWidth) := ⟨rfl, rfl, fun _ => rfl⟩

/-- A request is accepted only if no read is under way. -/
lemma readReq {s s' : ReadMux n P.aw} {req : MemRequest P.addrWidth} (h : s.Is p)
    (hs : readReq P s req = some s') :
    p = .idle ∧ s'.Is (.waiting (P.target req).1 (P.target req).2 : Phase n P.aw dataWidth) := by
  simp only [ReadMux.readReq, bind, pure, Option.bind_eq_some_iff, Fifo.enq_eq_some,
    Option.some.injEq] at hs
  obtain ⟨req_ars, ⟨-, hreq⟩, rs, ⟨hlen, hrs⟩, rfl⟩ := hs
  have hnil : s.rs.items = [] := List.eq_nil_of_length_eq_zero (by omega)
  obtain rfl : p = .idle := by
    have hcur := h.rs
    rw [hnil] at hcur
    cases p with
    | idle => rfl
    | _ => cases hcur
  refine ⟨rfl, ?_, ?_, h.slaves⟩
  · rw [hreq, h.req_ars]
    rfl
  · rw [hrs, hnil]
    rfl

/-- The rule puts the request to its slave, if it has one. -/
lemma req_ar {s s' : ReadMux n aw} {p : Phase n aw dataWidth} {es : List (Event n addrWidth aw dataWidth)}
    (h : s.Is p) (hs : s.req_ar = some (s', es)) :
    ∃ i req, p = .waiting i req ∧ s'.Is (.taken i req : Phase n aw dataWidth) ∧
      es = i.toList.map fun i => .delivered i req := by
  simp only [ReadMux.req_ar, bind, Option.bind_eq_some_iff, Prod.exists, Fifo.deq_eq_some,
    Fifo.first_eq_some] at hs
  obtain ⟨req, req_ars, hreq, sel, ⟨sels, hsel⟩, hs⟩ := hs
  rw [h.req_ars] at hreq
  have hcur := h.rs
  cases p with
  | waiting i req' =>
    obtain ⟨rfl, hnil⟩ := List.cons_eq_cons.mp hreq
    rw [hsel] at hcur
    obtain ⟨hi, -⟩ := List.cons_eq_cons.mp hcur
    refine ⟨i, req', rfl, ?_⟩
    simp only at hi
    rw [hi] at hs
    cases i with
    | none =>
      simp only [pure, Option.some.injEq, Prod.mk.injEq] at hs
      obtain ⟨rfl, rfl⟩ := hs
      refine ⟨⟨hnil.symm, ?_, fun j => ?_⟩, rfl⟩
      · rw [hsel]
        exact hcur
      · simp [h.slaves j, Phase.pending]
    | some i =>
      simp only [pure, Option.some.injEq, Prod.mk.injEq] at hs
      obtain ⟨rfl, rfl⟩ := hs
      refine ⟨⟨hnil.symm, ?_, fun j => ?_⟩, rfl⟩
      · rw [hsel]
        exact hcur
      · by_cases hij : i = j
        · subst hij
          simp [h.slaves i, Phase.pending]
        · simp [h.slaves j, Phase.pending, hij, Function.update_of_ne (Ne.symm hij)]
  | _ => cases hreq

/-- A slave that responds is the one that has got the request. -/
lemma answer {s s' : ReadMux n aw} {p : Phase n aw dataWidth} {i : Fin n} {req : MemRequest aw}
    (h : s.Is p) (hs : s.answer i = some (req, s')) (data : ObjectData dataWidth) :
    p = .taken (some i) req ∧ s'.Is (.returning i req data) ∧ s'.rs = s.rs := by
  have hi := h.slaves i
  simp only [ReadMux.answer] at hs
  split at hs
  · rename_i req' rest hslave
    simp only [Option.some.injEq, Prod.mk.injEq] at hs
    obtain ⟨rfl, rfl⟩ := hs
    rw [hslave] at hi
    cases p with
    | taken k req =>
      simp only [Phase.pending] at hi
      split at hi
      · rename_i hk
        subst hk
        obtain ⟨rfl, rfl⟩ := List.cons_eq_cons.mp hi
        refine ⟨rfl, ⟨h.req_ars, h.rs, fun j => ?_⟩, rfl⟩
        by_cases hij : j = i
        · subst hij
          simp [Phase.pending]
        · have hj := h.slaves j
          simp only [Phase.pending, Option.some.injEq, if_neg (Ne.symm hij)] at hj
          simp [Phase.pending, Function.update_of_ne hij, hj]
      · cases hi
    | _ => cases hi
  · cases hs

/-- The slave is forgotten. -/
lemma finish {s : ReadMux n aw} {i : Fin n} {req : MemRequest aw} {data : ObjectData dataWidth}
    (h : s.Is (.returning i req data)) {sel : BitVec (tlog n)} {rs : Fifo 1 (BitVec (tlog n))}
    (hrs : s.rs.deq = some (sel, rs)) : { s with rs }.Is (.idle : Phase n aw dataWidth) := by
  rw [Fifo.deq_eq_some] at hrs
  have hcur := h.rs
  rw [hrs] at hcur
  obtain ⟨-, hnil⟩ := List.cons_eq_cons.mp hcur
  exact ⟨h.req_ars, hnil, h.slaves⟩

/-- The slave of the read under way is remembered. -/
lemma exists_rs {s : ReadMux n aw} {p : Phase n aw dataWidth} (h : s.Is p) {i : Option (Fin n)}
    {req : MemRequest aw} (hp : p.current = [(i, req)]) :
    ∃ sel rs, s.rs.deq = some (sel, rs) ∧ s.rs.first = some sel ∧ portalIfcs sel = i := by
  have hcur := h.rs
  rw [hp] at hcur
  obtain ⟨sel, sels, hrs⟩ := List.exists_cons_of_ne_nil (l := s.rs.items) fun hnil => by
    rw [hnil] at hcur
    cases hcur
  obtain ⟨rs, hdeq, -⟩ := Fifo.exists_deq hrs
  rw [hrs] at hcur
  obtain ⟨hi, -⟩ := List.cons_eq_cons.mp hcur
  exact ⟨sel, rs, hdeq, Fifo.first_eq_some.mpr ⟨sels, hrs⟩, hi⟩

/-- The rule can put a waiting request to its slave. -/
lemma exists_req_ar {s : ReadMux n aw} {i : Option (Fin n)} {req : MemRequest aw}
    (h : s.Is (.waiting i req : Phase n aw dataWidth)) :
    ∃ r : ReadMux n aw × List (Event n addrWidth aw dataWidth), s.req_ar = some r := by
  obtain ⟨req_ars, hdeq, -⟩ := Fifo.exists_deq h.req_ars
  obtain ⟨sel, -, -, hfirst, hi⟩ := h.exists_rs rfl
  cases i with
  | none => exact ⟨_, by simp [ReadMux.req_ar, hdeq, hfirst, hi]; rfl⟩
  | some i => exact ⟨_, by simp [ReadMux.req_ar, hdeq, hfirst, hi]; rfl⟩

/-- The slave can respond. -/
lemma exists_answer {s : ReadMux n aw} {i : Fin n} {req : MemRequest aw}
    (h : s.Is (.taken (some i) req : Phase n aw dataWidth)) : ∃ s', s.answer i = some (req, s') := by
  have hslave : s.slaves i = req :: [] := by
    rw [h.slaves i, Phase.pending, if_pos rfl]
  simp only [ReadMux.answer, hslave]
  exact ⟨_, rfl⟩

end Is

end ReadMux

open ReadMux

section MemSlaveMux

variable {n dataWidth : ℕ} {P : PageSelect n} {p : Phase n P.aw dataWidth}
  {tr es : List (ReadMux.Event n P.addrWidth P.aw dataWidth)} {s s' : ReadMux n P.aw}
  {past : List ((Fin n × MemRequest P.aw) × ObjectData dataWidth)}

/-- **One step** of `mkMemSlaveMux`: the data that a slave responds with is returned at once. -/
lemma memSlaveMuxReads_step (hf : Flow P tr past p) (h : s.Is p) (hp : p.answered = [])
    {a : MemSlaveMux.ReadAction P.addrWidth dataWidth}
    (hs : (memSlaveMuxReads P dataWidth).step s a = some (s', es)) :
    ∃ past' p', Flow P (tr ++ es) past' p' ∧ s'.Is p' ∧ p'.answered = [] := by
  cases a with
  | readReq req =>
    simp only [memSlaveMuxReads, bind, pure, Option.bind_eq_some_iff, Option.some.injEq, Prod.mk.injEq] at hs
    obtain ⟨s₁, hreq, rfl, rfl⟩ := hs
    obtain ⟨rfl, h'⟩ := h.readReq hreq
    exact ⟨past, _, hf.request req, h', rfl⟩
  | req_ar =>
    simp only [memSlaveMuxReads] at hs
    obtain ⟨i, req, rfl, h', rfl⟩ := h.req_ar hs
    exact ⟨past, _, hf.deliver, h', rfl⟩
  | readData data =>
    simp only [memSlaveMuxReads, bind, pure, Option.bind_eq_some_iff, Prod.exists, Option.some.injEq,
      Prod.mk.injEq] at hs
    obtain ⟨sel, -, i, -, req, s₁, hanswer, sel', rs, hrs, rfl, rfl⟩ := hs
    obtain ⟨rfl, h', -⟩ := h.answer hanswer data
    have hf' := (hf.answer data).finish
    rw [List.append_assoc] at hf'
    exact ⟨_, .idle, hf', h'.finish hrs, rfl⟩

/-- **All runs** of `mkMemSlaveMux`. -/
lemma memSlaveMuxReads_run (h : (memSlaveMuxReads P dataWidth).Reaches (.reset n P.aw) tr s) :
    ∃ past p, Flow P tr past p ∧ s.Is p ∧ p.answered = [] := by
  refine h.invariant (I := fun tr (s : ReadMux n P.aw) => ∃ past p, Flow P tr past p ∧ s.Is p ∧ p.answered = [])
    ⟨[], .idle, .nil, .reset, rfl⟩ ?_
  rintro tr s a s' es ⟨past, p, hf, hp, ha⟩ hs
  exact memSlaveMuxReads_step hf hp ha hs

/-- A request that was put to its slave can be responded to. -/
lemma memSlaveMuxReads_return {i : Fin n} {req : MemRequest P.aw} (hf : Flow P tr past (.taken (some i) req))
    (h : s.Is (.taken (some i) req : Phase n P.aw dataWidth)) :
    Finishes (memSlaveMuxReads P dataWidth) tr s := by
  obtain ⟨s₁, hanswer⟩ := h.exists_answer
  obtain ⟨sel, rs, hrs, hfirst, hsel⟩ := h.exists_rs rfl
  let data : ObjectData dataWidth := ⟨0, 0, true⟩
  obtain ⟨-, -, hrs₁⟩ := h.answer hanswer data
  have hstep : (memSlaveMuxReads P dataWidth).step s (.readData data) =
      some ({ s₁ with rs }, [.answered i req data, .returned data]) := by
    simp [memSlaveMuxReads, hfirst, hsel, hanswer, hrs₁, hrs]
  have hf₁ := (hf.answer data).finish
  rw [List.append_assoc] at hf₁
  exact (Finishes.of_idle hf₁).of_step hstep rfl

/-- The read under way, whose slave exists, can be finished. -/
lemma memSlaveMuxReads_finish (hf : Flow P tr past p) (h : s.Is p) (hp : p.answered = [])
    (hslave : ∀ x ∈ p.current, x.1 ≠ none) : Finishes (memSlaveMuxReads P dataWidth) tr s := by
  cases p with
  | idle => exact .of_idle hf
  | waiting i req =>
    obtain ⟨i, rfl⟩ := Option.ne_none_iff_exists'.mp (hslave _ (List.mem_singleton_self _))
    obtain ⟨⟨s₁, es⟩, hs⟩ := h.exists_req_ar
    have hstep : (memSlaveMuxReads P dataWidth).step s .req_ar = some (s₁, es) := hs
    obtain ⟨i', req', heq, h₁, rfl⟩ := h.req_ar hs
    cases heq
    exact (memSlaveMuxReads_return hf.deliver h₁).of_step hstep rfl
  | taken i req =>
    obtain ⟨i, rfl⟩ := Option.ne_none_iff_exists'.mp (hslave _ (List.mem_singleton_self _))
    exact memSlaveMuxReads_return hf h
  | returning i req data => cases hp

end MemSlaveMux

/-! ## The funnel -/

/-- A node of the funnel that its inputs lead to. -/
def OnFunnel (n : ℕ) (node : Node) : Prop :=
  node.1 ≤ stages n (bitsPerCycle n) ∧ node.2 < n ∧ node.2 < 2 ^ (node.1 * bitsPerCycle n)

lemma onFunnel_top {n : ℕ} (i : Fin n) : OnFunnel n (stages n (bitsPerCycle n), i) := by
  refine ⟨le_rfl, i.isLt, ?_⟩
  refine Nat.lt_of_lt_of_le (Nat.lt_of_lt_of_le i.isLt (le_two_pow_tlog n)) ?_
  exact Nat.pow_le_pow_right (by decide) (tlog_le_stages (bitsPerCycle_pos n))

/-- From a node above the bottom there is a way down. -/
lemma OnFunnel.route {α : Type} {n : ℕ} {node : Node} (h : OnFunnel n node) (hpos : 0 < node.1) (x : α) :
    funnelRoute n (bitsPerCycle n) node x = some ((node.1 - 1, node.2 / 2 ^ bitsPerCycle n), x) ∧
      OnFunnel n (node.1 - 1, node.2 / 2 ^ bitsPerCycle n) := by
  obtain ⟨hlevel, hn, hlt⟩ := h
  refine ⟨if_pos ⟨hpos, hlevel, hlt, hn⟩, (Nat.sub_le _ _).trans hlevel,
    Nat.lt_of_le_of_lt (Nat.div_le_self _ _) hn, ?_⟩
  have hpow : 2 ^ (node.1 * bitsPerCycle n) = 2 ^ ((node.1 - 1) * bitsPerCycle n) * 2 ^ bitsPerCycle n := by
    rw [← Nat.pow_add, ← Nat.succ_mul, Nat.succ_eq_add_one, Nat.sub_add_cancel hpos]
  rw [hpow] at hlt
  exact Nat.div_lt_of_lt_mul (by rwa [Nat.mul_comm])

/-- At the bottom there is one node. -/
lemma OnFunnel.eq_bottom {n : ℕ} {node : Node} (h : OnFunnel n node) (h0 : node.1 = 0) : node = (0, 0) := by
  obtain ⟨-, -, hlt⟩ := h
  rw [h0, Nat.zero_mul, pow_zero] at hlt
  exact Prod.ext h0 (by omega)

/-- What the funnel holds in a phase. -/
def ReadMux.Phase.Brings {n aw dataWidth : ℕ} (p : Phase n aw dataWidth)
    (net : Net (funnelCap n (bitsPerCycle n) 2) (ObjectData dataWidth)) : Prop :=
  match p with
  | .returning _ _ data => ∃ node, net.Only node data ∧ OnFunnel n node
  | _ => net.IsEmpty

/-- The queues of `mkSlaveMux` and the slaves in a phase. -/
structure SlaveMux.Reads.Is {n aw dataWidth : ℕ} (s : SlaveMux.Reads n aw dataWidth)
    (p : Phase n aw dataWidth) : Prop where
  mux : s.mux.Is p
  funnel : p.Brings s.read_data_funnel

section SlaveMux

variable {n dataWidth : ℕ} {P : PageSelect n} {p : Phase n P.aw dataWidth}
  {tr es : List (ReadMux.Event n P.addrWidth P.aw dataWidth)} {s s' : SlaveMux.Reads n P.aw dataWidth}
  {past : List ((Fin n × MemRequest P.aw) × ObjectData dataWidth)}

/-- **One step** of `mkSlaveMux`. -/
lemma slaveMuxReads_step (hf : Flow P tr past p) (h : s.Is p)
    {a : SlaveMux.ReadAction n P.addrWidth dataWidth}
    (hs : (slaveMuxReads P dataWidth).step s a = some (s', es)) :
    ∃ past' p', Flow P (tr ++ es) past' p' ∧ s'.Is p' := by
  cases a with
  | readReq req =>
    simp only [slaveMuxReads, bind, pure, Option.bind_eq_some_iff, Option.some.injEq, Prod.mk.injEq] at hs
    obtain ⟨mux, hreq, rfl, rfl⟩ := hs
    obtain ⟨rfl, h'⟩ := h.mux.readReq hreq
    exact ⟨past, _, hf.request req, h', h.funnel⟩
  | req_ar =>
    simp only [slaveMuxReads, bind, pure, Option.bind_eq_some_iff, Prod.exists, Option.some.injEq,
      Prod.mk.injEq] at hs
    obtain ⟨mux, es', hreq, rfl, rfl⟩ := hs
    obtain ⟨i, req, rfl, h', rfl⟩ := h.mux.req_ar hreq
    exact ⟨past, _, hf.deliver, h', h.funnel⟩
  | connect i data =>
    simp only [slaveMuxReads, bind, pure, Option.bind_eq_some_iff, Prod.exists, Option.some.injEq,
      Prod.mk.injEq] at hs
    obtain ⟨req, mux, hanswer, net, henq, rfl, rfl⟩ := hs
    obtain ⟨rfl, h', -⟩ := h.mux.answer hanswer data
    have hempty : s.read_data_funnel.IsEmpty := h.funnel
    exact ⟨past, _, hf.answer data, h', _, hempty.enq henq, onFunnel_top i⟩
  | move node =>
    simp only [slaveMuxReads, bind, pure, Option.bind_eq_some_iff, Option.some.injEq, Prod.mk.injEq] at hs
    obtain ⟨net, hmove, rfl, rfl⟩ := hs
    rw [List.append_nil]
    cases p with
    | returning i req data =>
      obtain ⟨node', honly, hon⟩ := h.funnel
      obtain ⟨rfl, m, y, hroute, honly'⟩ := honly.move hmove
      have hpos : 0 < node.1 := by
        simp only [funnelRoute, Option.ite_none_right_eq_some] at hroute
        exact hroute.1.1
      obtain ⟨hroute', hon'⟩ := hon.route hpos data
      rw [hroute', Option.some.injEq, Prod.mk.injEq] at hroute
      obtain ⟨rfl, rfl⟩ := hroute
      exact ⟨past, _, hf, h.mux, _, honly', hon'⟩
    | _ =>
      have hempty : s.read_data_funnel.IsEmpty := h.funnel
      rw [hempty.move_eq_none] at hmove
      cases hmove
  | readData =>
    simp only [slaveMuxReads, bind, pure, Option.bind_eq_some_iff, Prod.exists, Option.some.injEq,
      Prod.mk.injEq] at hs
    obtain ⟨data, net, hdeq, sel, rs, hrs, rfl, rfl⟩ := hs
    cases p with
    | returning i req data' =>
      obtain ⟨node, honly, -⟩ := h.funnel
      obtain ⟨-, rfl, hempty⟩ := honly.deq hdeq
      exact ⟨_, .idle, hf.finish, h.mux.finish hrs, hempty⟩
    | _ =>
      have hempty : s.read_data_funnel.IsEmpty := h.funnel
      rw [hempty.deq_eq_none] at hdeq
      cases hdeq

/-- **All runs** of `mkSlaveMux`. -/
lemma slaveMuxReads_run (h : (slaveMuxReads P dataWidth).Reaches ⟨.reset n P.aw, .empty⟩ tr s) :
    ∃ past p, Flow P tr past p ∧ s.Is p := by
  have hempty : (Phase.idle : Phase n P.aw dataWidth).Brings .empty := Net.isEmpty_empty
  refine h.invariant (I := fun tr (s : SlaveMux.Reads n P.aw dataWidth) => ∃ past p, Flow P tr past p ∧ s.Is p)
    ⟨[], .idle, .nil, .reset, hempty⟩ ?_
  rintro tr s a s' es ⟨past, p, hf, hp⟩ hs
  exact slaveMuxReads_step hf hp hs

/-- Data in the funnel can be returned. -/
lemma slaveMuxReads_return {i : Fin n} {req : MemRequest P.aw} {data : ObjectData dataWidth}
    (hf : Flow P tr past (.returning i req data)) (h : s.mux.Is (.returning i req data)) {node : Node}
    (honly : s.read_data_funnel.Only node data) (hon : OnFunnel n node) :
    Finishes (slaveMuxReads P dataWidth) tr s := by
  obtain ⟨level, i'⟩ := node
  induction level generalizing s i' with
  | zero =>
    have hbottom := hon.eq_bottom rfl
    rw [hbottom] at honly
    obtain ⟨net, hdeq⟩ := honly.exists_deq
    obtain ⟨sel, rs, hrs, -, -⟩ := h.exists_rs rfl
    have hstep : (slaveMuxReads P dataWidth).step s .readData =
        some (⟨{ s.mux with rs }, net⟩, [.returned data]) := by
      simp [slaveMuxReads, hdeq, hrs]
    exact (Finishes.of_idle hf.finish).of_step hstep rfl
  | succ level ih =>
    obtain ⟨hroute, hon'⟩ := hon.route (Nat.succ_pos level) data
    obtain ⟨net, hmove⟩ := honly.exists_move hroute
      (fun he => by
        have hlevel := congrArg Prod.fst he
        simp only at hlevel
        omega)
      (by
        unfold funnelCap
        split <;> decide)
    obtain ⟨-, m, y, hroute', honly'⟩ := honly.move hmove
    rw [hroute, Option.some.injEq, Prod.mk.injEq] at hroute'
    obtain ⟨rfl, rfl⟩ := hroute'
    have hstep : (slaveMuxReads P dataWidth).step s (.move (level + 1, i')) =
        some ({ s with read_data_funnel := net }, []) := by
      simp [slaveMuxReads, hmove]
    have hfinish := ih (s := { s with read_data_funnel := net }) h _ honly' hon'
    rw [← List.append_nil tr] at hfinish
    exact hfinish.of_step hstep rfl

/-- A request that was put to its slave can be responded to. -/
lemma slaveMuxReads_answer {i : Fin n} {req : MemRequest P.aw} (hf : Flow P tr past (.taken (some i) req))
    (h : s.Is (.taken (some i) req)) : Finishes (slaveMuxReads P dataWidth) tr s := by
  obtain ⟨mux, hanswer⟩ := h.mux.exists_answer
  let data : ObjectData dataWidth := ⟨0, 0, true⟩
  obtain ⟨-, h₁, -⟩ := h.mux.answer hanswer data
  have hempty : s.read_data_funnel.IsEmpty := h.funnel
  obtain ⟨net, henq⟩ := hempty.exists_enq (n := (stages n (bitsPerCycle n), i.val))
    (by rw [funnelCap, if_pos rfl]; decide) data
  have hstep : (slaveMuxReads P dataWidth).step s (.connect i data) =
      some (⟨mux, net⟩, [.answered i req data]) := by
    simp [slaveMuxReads, hanswer, henq]
  have hfinish := slaveMuxReads_return (hf.answer data) (s := ⟨mux, net⟩) h₁ (hempty.enq henq) (onFunnel_top i)
  exact hfinish.of_step hstep rfl

/-- The read under way, whose slave exists, can be finished. -/
lemma slaveMuxReads_finish (hf : Flow P tr past p) (h : s.Is p) (hslave : ∀ x ∈ p.current, x.1 ≠ none) :
    Finishes (slaveMuxReads P dataWidth) tr s := by
  cases p with
  | idle => exact .of_idle hf
  | waiting i req =>
    obtain ⟨i, rfl⟩ := Option.ne_none_iff_exists'.mp (hslave _ (List.mem_singleton_self _))
    have hexists : ∃ r : _ × List (ReadMux.Event n P.addrWidth P.aw dataWidth),
        s.mux.req_ar = some r := h.mux.exists_req_ar
    obtain ⟨⟨mux, es⟩, hs⟩ := hexists
    have hstep : (slaveMuxReads P dataWidth).step s .req_ar = some ({ s with mux }, es) := by
      simp [slaveMuxReads, hs]
    obtain ⟨i', req', heq, h₁, rfl⟩ := h.mux.req_ar hs
    cases heq
    exact (slaveMuxReads_answer hf.deliver (s := { s with mux }) ⟨h₁, h.funnel⟩).of_step hstep rfl
  | taken i req =>
    obtain ⟨i, rfl⟩ := Option.ne_none_iff_exists'.mp (hslave _ (List.mem_singleton_self _))
    exact slaveMuxReads_answer hf h
  | returning i req data =>
    obtain ⟨node, honly, hon⟩ := h.funnel
    exact slaveMuxReads_return hf h.mux honly hon

end SlaveMux

end Xbsv
