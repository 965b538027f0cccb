import Xbsv.Dma.SGList

set_option relaxedAutoImplicit false
set_option autoImplicit false

/-!
# The address servers answer in order

What a port of the memory management unit still owes is a list, oldest request first: the
addresses already assembled, then the pages already read, then one address for every request
whose page has not been looked up yet. Each rule of the pipeline moves work from one queue to
the next and leaves that list as it is; `put` appends the translation of its request and `get`
removes the head. Over a run in which the tables do not change this gives the contract of the
server: responses taken, then responses owed, are the responses owed at the start, then the
translations of the requests made.

The queues of one stage are filled and emptied together (`Port.Synced`), and that is all the
invariant there is. It does not mention the tables, so the contract holds from every reachable
state, also with requests of an earlier configuration in flight.

## Main definitions

* `Xbsv.SGList.Port.Synced` — the queues of each stage have the same length.
* `Xbsv.SGList.Port.owed`, `Xbsv.SGList.Port.owedErrors` — the responses, and the lookup
  results, that a port still owes against given tables.
* `Xbsv.SGList.puts`, `gets`, `lookups`, `configCalls` — projections of a trace.

## Main results

* `Xbsv.SGList.mmu_run` — conservation of responses and of lookup results over a run.
* `Xbsv.SGList.mmu_run_tables` — the tables after a run, from its configuration calls.
* `Xbsv.SGList.exists_drain` — every request in flight can be answered.
* `Xbsv.SGList.mmu_answer` — with what each request is answered.
-/

namespace Xbsv.SGList

open Rules

variable {addrWidth : ℕ} (undef : Page → Offset → BitVec 40)

/-! ## What a port owes -/

/-- The queues of each stage hold the same number of elements. -/
structure Port.Synced (p : Port addrWidth) : Prop where
  reg8 : p.reg8Resp.items.length = p.reqs0.items.length
  reg4 : p.reg4Resp.items.length = p.reqs0.items.length
  reg0 : p.reg0Resp.items.length = p.reqs0.items.length
  conds : p.conds.items.length = p.reqs1.items.length
  idxOffsets0 : p.idxOffsets0.items.length = p.reqs1.items.length
  pbases : p.pbases.items.length = p.offs0.items.length
  idxOffsets1 : p.idxOffsets1.items.length = p.offs0.items.length
  ptrs1 : p.ptrs1.items.length = p.offs0.items.length
  pages : p.pagesResp.items.length = p.offs1.items.length

/-- The page selections waiting for stage 4. -/
def Port.selected4 (p : Port addrWidth) : List (SGListId × Selected) :=
  (p.ptrs1.items.zip (p.offs0.items.zip (p.pbases.items.zip p.idxOffsets1.items))).map
    fun x => (x.1, ⟨x.2.1, x.2.2.1, x.2.2.2⟩)

/-- The page selections that the requests waiting for stage 3 will make. -/
def Port.selected3 (p : Port addrWidth) : List (SGListId × Selected) :=
  (p.reqs1.items.zip (p.conds.items.zip p.idxOffsets0.items)).map
    fun x => (x.1.ptr, selectPage x.1.off x.2.1 x.2.2)

/-- The page selections that the requests waiting for stage 2 will make. -/
def Port.selected2 (p : Port addrWidth) : List (SGListId × Selected) :=
  (p.reqs0.items.zip (p.reg8Resp.items.zip (p.reg4Resp.items.zip p.reg0Resp.items))).map
    fun x => (x.1.ptr, selectPage x.1.off (regionConds x.1.off x.2.1 x.2.2.1 x.2.2.2)
      (x.2.1.idxOffset, x.2.2.1.idxOffset, x.2.2.2.idxOffset))

/-- The page selections that the requests waiting for stage 1 will make. -/
def Port.selected1 (t : Tables) (p : Port addrWidth) : List (SGListId × Selected) :=
  p.incomingReqs.items.map fun req => (req.ptr, t.select req)

/-- The page selections of all requests before stage 4, oldest first. -/
def Port.selected (t : Tables) (p : Port addrWidth) : List (SGListId × Selected) :=
  p.selected4 ++ p.selected3 ++ p.selected2 ++ p.selected1 t

/-- The addresses of all requests past stage 4, oldest first. -/
def Port.looked (p : Port addrWidth) : List (BitVec addrWidth) :=
  p.pageResponseFifo.items ++
    (p.pagesResp.items.zip p.offs1.items).map fun x => physAddr undef x.1 x.2

/-- Stages 4 and 5 for one page selection. -/
def finish (t : Tables) (x : SGListId × Selected) : BitVec addrWidth :=
  physAddr undef (t.pages (pageIndex x.1 x.2.pbase x.2.idxOffset)) x.2.offset

/-- The responses that a port owes, oldest first. -/
def Port.owed (t : Tables) (p : Port addrWidth) : List (BitVec addrWidth) :=
  p.looked undef ++ (p.selected t).map (finish undef t)

/-- The lookup results that a port owes, oldest first. -/
def Port.owedErrors (t : Tables) (p : Port addrWidth) : List (Option DmaError) :=
  (p.selected t).map fun x => stage4Error x.2.offset x.1

/-! ## One rule of a port -/

section PortRules

variable {t : Tables} {p p' : Port addrWidth}

lemma Port.idle_synced : (Port.idle addrWidth).Synced := by
  constructor <;> rfl

/-- `put` appends one page selection. -/
lemma Port.put_spec {req : ReqTup} (h : p.put req = some p') (hs : p.Synced) :
    p'.Synced ∧ p'.looked undef = p.looked undef ∧
      p'.selected t = p.selected t ++ [(req.ptr, t.select req)] := by
  simp only [Port.put, bind, pure, Option.bind_eq_some_iff, Fifo.enq_eq_some,
    Option.some.injEq] at h
  obtain ⟨incomingReqs, ⟨-, hi⟩, rfl⟩ := h
  obtain ⟨s8, s4, s0, sc, si, sp, so, st, sg⟩ := hs
  refine ⟨⟨s8, s4, s0, sc, si, sp, so, st, sg⟩, rfl, ?_⟩
  simp [Port.selected, Port.selected1, Port.selected2, Port.selected3, Port.selected4, hi]

/-- `get` removes the oldest address. -/
lemma Port.get_spec {addr : BitVec addrWidth} (h : p.get = some (addr, p')) (hs : p.Synced) :
    p'.Synced ∧ p.looked undef = addr :: p'.looked undef ∧ p'.selected t = p.selected t := by
  simp only [Port.get, bind, pure, Option.bind_eq_some_iff, Fifo.deq_eq_some, Prod.exists,
    Option.some.injEq, Prod.mk.injEq] at h
  obtain ⟨_, pageResponseFifo, hq, rfl, rfl⟩ := h
  obtain ⟨s8, s4, s0, sc, si, sp, so, st, sg⟩ := hs
  refine ⟨⟨s8, s4, s0, sc, si, sp, so, st, sg⟩, ?_, rfl⟩
  simp [Port.looked, hq]

/-- Stage 1 reads the region rows that the page selection of its request is defined with. -/
lemma Port.stage1_spec (h : p.stage1 t = some p') (hs : p.Synced) :
    p'.Synced ∧ p'.looked undef = p.looked undef ∧ p'.selected t = p.selected t := by
  simp only [Port.stage1, bind, pure, Option.bind_eq_some_iff, Fifo.enq_eq_some,
    Fifo.deq_eq_some, Prod.exists, Option.some.injEq] at h
  obtain ⟨req, incomingReqs, hq, reg8Resp, ⟨-, h8⟩, reg4Resp, ⟨-, h4⟩, reg0Resp, ⟨-, h0⟩, reqs0,
    ⟨-, hr⟩, rfl⟩ := h
  obtain ⟨s8, s4, s0, sc, si, sp, so, st, sg⟩ := hs
  refine ⟨⟨by simp [h8, hr, s8], by simp [h4, hr, s4], by simp [h0, hr, s0], sc, si, sp, so, st,
    sg⟩, rfl, ?_⟩
  have h2 : Port.selected2 { p with incomingReqs, reg8Resp, reg4Resp, reg0Resp, reqs0 } =
      p.selected2 ++ [(req.ptr, t.select req)] := by
    simp only [Port.selected2, h8, h4, h0, hr]
    rw [List.zip_append (by omega), List.zip_append (by simp; omega),
      List.zip_append (by simp; omega)]
    simp [Tables.select, Tables.conds, Tables.idxOffsets]
  simp only [Port.selected, h2]
  simp [Port.selected1, Port.selected3, Port.selected4, hq]

/-- Stage 2 hands its request on with the conditions that the page selection is made from. -/
lemma Port.stage2_spec (h : p.stage2 = some p') (hs : p.Synced) :
    p'.Synced ∧ p'.looked undef = p.looked undef ∧ p'.selected t = p.selected t := by
  simp only [Port.stage2, bind, pure, Option.bind_eq_some_iff, Fifo.enq_eq_some,
    Fifo.deq_eq_some, Prod.exists, Option.some.injEq] at h
  obtain ⟨req, reqs0, hq, region8, reg8Resp, h8, region4, reg4Resp, h4, region0, reg0Resp, h0,
    conds, ⟨-, hc⟩, idxOffsets0, ⟨-, hi⟩, reqs1, ⟨-, hr⟩, rfl⟩ := h
  obtain ⟨s8, s4, s0, sc, si, sp, so, st, sg⟩ := hs
  refine ⟨⟨by simpa [h8, hq] using s8, by simpa [h4, hq] using s4, by simpa [h0, hq] using s0,
    by simp [hc, hr, sc], by simp [hi, hr, si], sp, so, st, sg⟩, rfl, ?_⟩
  have h3 : Port.selected3 { p with reqs0, reg8Resp, reg4Resp, reg0Resp, conds, idxOffsets0, reqs1 } =
      p.selected3 ++ [(req.ptr, selectPage req.off (regionConds req.off region8 region4 region0)
        (region8.idxOffset, region4.idxOffset, region0.idxOffset))] := by
    simp only [Port.selected3, hc, hi, hr]
    rw [List.zip_append (by omega), List.zip_append (by simp; omega)]
    simp
  simp only [Port.selected, h3]
  simp [Port.selected1, Port.selected2, Port.selected4, hq, h8, h4, h0]

/-- Stage 3 makes the page selection. -/
lemma Port.stage3_spec (h : p.stage3 = some p') (hs : p.Synced) :
    p'.Synced ∧ p'.looked undef = p.looked undef ∧ p'.selected t = p.selected t := by
  simp only [Port.stage3, bind, pure, Option.bind_eq_some_iff, Fifo.enq_eq_some,
    Fifo.deq_eq_some, Prod.exists, Option.some.injEq] at h
  obtain ⟨req, reqs1, hq, cond8, cond4, cond0, conds, hc, idx8, idx4, idx0, idxOffsets0, hi, offs0,
    ⟨-, ho⟩, pbases, ⟨-, hb⟩, idxOffsets1, ⟨-, hx⟩, ptrs1, ⟨-, hp⟩, rfl⟩ := h
  obtain ⟨s8, s4, s0, sc, si, sp, so, st, sg⟩ := hs
  refine ⟨⟨s8, s4, s0, by simpa [hc, hq] using sc, by simpa [hi, hq] using si, by simp [hb, ho, sp],
    by simp [hx, ho, so], by simp [hp, ho, st], sg⟩, rfl, ?_⟩
  have h4 : Port.selected4 { p with reqs1, conds, idxOffsets0, offs0, pbases, idxOffsets1, ptrs1 } =
      p.selected4 ++ [(req.ptr, selectPage req.off (cond8, cond4, cond0) (idx8, idx4, idx0))] := by
    simp only [Port.selected4, ho, hb, hx, hp]
    rw [List.zip_append (by omega), List.zip_append (by simp; omega),
      List.zip_append (by simp; omega)]
    simp
  simp only [Port.selected, h4]
  simp [Port.selected1, Port.selected2, Port.selected3, hq, hc, hi]

/-- Stage 4 takes the oldest page selection, reports on it and reads its page. -/
lemma Port.stage4_spec {err : Option DmaError} (h : p.stage4 t = some (err, p')) (hs : p.Synced) :
    p'.Synced ∧ ∃ x, p.selected t = x :: p'.selected t ∧ err = stage4Error x.2.offset x.1 ∧
      p'.looked undef = p.looked undef ++ [finish undef t x] := by
  simp only [Port.stage4, bind, pure, Option.bind_eq_some_iff, Fifo.enq_eq_some,
    Fifo.deq_eq_some, Prod.exists, Option.some.injEq, Prod.mk.injEq] at h
  obtain ⟨off, offs0, ho, pbase, pbases, hb, idxOffset, idxOffsets1, hx, ptr, ptrs1, hp, pagesResp,
    ⟨-, hg⟩, offs1, ⟨-, hf⟩, rfl, rfl⟩ := h
  obtain ⟨s8, s4, s0, sc, si, sp, so, st, sg⟩ := hs
  refine ⟨⟨s8, s4, s0, sc, si, by simpa [hb, ho] using sp, by simpa [hx, ho] using so,
    by simpa [hp, ho] using st, by simp [hg, hf, sg]⟩, (ptr, ⟨off, pbase, idxOffset⟩), ?_, rfl, ?_⟩
  · simp [Port.selected, Port.selected1, Port.selected2, Port.selected3, Port.selected4, hp, ho, hb,
      hx]
  · simp only [Port.looked, hg, hf]
    rw [List.zip_append sg]
    simp [finish]

/-- Stage 5 assembles the oldest address. -/
lemma Port.stage5_spec (h : p.stage5 undef = some p') (hs : p.Synced) :
    p'.Synced ∧ p'.looked undef = p.looked undef ∧ p'.selected t = p.selected t := by
  simp only [Port.stage5, bind, pure, Option.bind_eq_some_iff, Fifo.enq_eq_some,
    Fifo.deq_eq_some, Prod.exists, Option.some.injEq] at h
  obtain ⟨page, pagesResp, hg, offset, offs1, ho, pageResponseFifo, ⟨-, hr⟩, rfl⟩ := h
  obtain ⟨s8, s4, s0, sc, si, sp, so, st, sg⟩ := hs
  refine ⟨⟨s8, s4, s0, sc, si, sp, so, st, by simpa [hg, ho] using sg⟩, ?_, rfl⟩
  simp [Port.looked, hr, hg, ho]

end PortRules

/-! ## Traces -/

/-- The requests made on server `i`. -/
def puts (i : Fin 2) : List (Event addrWidth) → List ReqTup :=
  List.filterMap fun e => match e with
    | .put j req => if j = i then some req else none
    | _ => none

/-- The responses taken from server `i`. -/
def gets (i : Fin 2) : List (Event addrWidth) → List (BitVec addrWidth) :=
  List.filterMap fun e => match e with
    | .get j addr => if j = i then some addr else none
    | _ => none

/-- The results of the page lookups on server `i`. -/
def lookups (i : Fin 2) : List (Event addrWidth) → List (Option DmaError) :=
  List.filterMap fun e => match e with
    | .lookup j err => if j = i then some err else none
    | _ => none

/-- The configuration calls of a trace. -/
def configCalls : List (Event addrWidth) → List ConfigCall :=
  List.filterMap fun e => match e with
    | .config c => some c
    | _ => none

section Append

variable (i : Fin 2) (tr tr' : List (Event addrWidth))

@[simp] lemma puts_append : puts i (tr ++ tr') = puts i tr ++ puts i tr' :=
  List.filterMap_append

@[simp] lemma gets_append : gets i (tr ++ tr') = gets i tr ++ gets i tr' :=
  List.filterMap_append

@[simp] lemma lookups_append : lookups i (tr ++ tr') = lookups i tr ++ lookups i tr' :=
  List.filterMap_append

@[simp] lemma configCalls_append : configCalls (tr ++ tr') = configCalls tr ++ configCalls tr' :=
  List.filterMap_append

end Append

/-- What one port does while the events `es` happen, the tables being `t`: its queues stay in
step, and responses and lookup results are neither lost nor invented. -/
structure Conserves (t : Tables) (i : Fin 2) (es : List (Event addrWidth)) (p p' : Port addrWidth) :
    Prop where
  synced : p'.Synced
  owed : gets i es ++ p'.owed undef t = p.owed undef t ++ (puts i es).map (translate undef t)
  owedErrors : lookups i es ++ p'.owedErrors t = p.owedErrors t ++ (puts i es).map (lookupError t)

section Conserves

variable {undef} {t : Tables} {i : Fin 2} {p p' : Port addrWidth}

/-- A rule that only moves work along inside the port. -/
lemma Conserves.of_internal (h : p'.Synced ∧ p'.looked undef = p.looked undef ∧
    p'.selected t = p.selected t) : Conserves undef t i [] p p' where
  synced := h.1
  owed := by simp [puts, gets, Port.owed, h.2.1, h.2.2]
  owedErrors := by simp [puts, lookups, Port.owedErrors, h.2.2]

/-- A port that is not touched, events of its own being absent. -/
lemma Conserves.refl {es : List (Event addrWidth)} (hs : p.Synced) (hp : puts i es = [])
    (hg : gets i es = []) (hl : lookups i es = []) : Conserves undef t i es p p where
  synced := hs
  owed := by simp [hp, hg]
  owedErrors := by simp [hp, hl]

/-- Conservation composes. -/
lemma Conserves.trans {es es' : List (Event addrWidth)} {p'' : Port addrWidth}
    (h : Conserves undef t i es p p') (h' : Conserves undef t i es' p' p'') :
    Conserves undef t i (es ++ es') p p'' where
  synced := h'.synced
  owed := by
    rw [gets_append, puts_append, List.map_append, List.append_assoc, h'.owed,
      ← List.append_assoc, h.owed, List.append_assoc]
  owedErrors := by
    rw [lookups_append, puts_append, List.map_append, List.append_assoc, h'.owedErrors,
      ← List.append_assoc, h.owedErrors, List.append_assoc]

end Conserves

@[simp] lemma State.setPort_port_self (s : State addrWidth) (i : Fin 2) (p : Port addrWidth) :
    (s.setPort i p).port i = p := by
  simp [State.setPort]

@[simp] lemma State.setPort_port_ne (s : State addrWidth) {i j : Fin 2} (p : Port addrWidth)
    (h : j ≠ i) : (s.setPort i p).port j = s.port j := by
  simp [State.setPort, h]

/-- **One step of the unit, seen from port `i`.** With no configuration call the step conserves
the responses of the port, and in any case its queues stay in step.

**Proof sketch.** Cases on the action. An action of port `i` is one of the rules above; an
action of the other port, an error or a configuration response leaves port `i` alone and has no
event of its own. -/
lemma mmu_step {s s' : State addrWidth} {a : Action} {es : List (Event addrWidth)}
    (h : (mmu undef).step s a = some (s', es)) (i : Fin 2) (hs : (s.port i).Synced) :
    (s'.port i).Synced ∧
      (configCalls es = [] → Conserves undef s.tables i es (s.port i) (s'.port i)) := by
  -- the cases in which the action belongs to port `j` and changes only that port
  have frame : ∀ (j : Fin 2) (p : Port addrWidth),
      (j = i → Conserves undef s.tables i es (s.port i) p) →
      (j ≠ i → puts i es = [] ∧ gets i es = [] ∧ lookups i es = []) →
      Conserves undef s.tables i es (s.port i) ((s.setPort j p).port i) := by
    intro j p h₁ h₂
    by_cases hj : j = i
    · subst hj
      rw [State.setPort_port_self]
      exact h₁ rfl
    · rw [State.setPort_port_ne _ _ (Ne.symm hj)]
      obtain ⟨hp, hg, hl⟩ := h₂ hj
      exact .refl hs hp hg hl
  -- every action but a configuration call conserves
  suffices hc : configCalls es ≠ [] ∧ s'.port i = s.port i ∨
      Conserves undef s.tables i es (s.port i) (s'.port i) by
    rcases hc with ⟨hne, he⟩ | hc
    · exact ⟨he ▸ hs, fun h0 => absurd h0 hne⟩
    · exact ⟨hc.synced, fun _ => hc⟩
  cases a with
  | put j req =>
    simp only [mmu, bind, pure, Option.bind_eq_some_iff, Option.some.injEq, Prod.mk.injEq] at h
    obtain ⟨p, hp, rfl, rfl⟩ := h
    refine Or.inr (frame j p ?_ ?_)
    · rintro rfl
      obtain ⟨h1, h2, h3⟩ := Port.put_spec undef (t := s.tables) hp hs
      refine ⟨h1, ?_, ?_⟩
      · simp [puts, gets, Port.owed, h2, h3, finish, translate]
      · simp [puts, lookups, Port.owedErrors, h3, lookupError]
    · intro hj
      simp [puts, gets, lookups, hj]
  | get j =>
    simp only [mmu, bind, pure, Option.bind_eq_some_iff, Prod.exists, Option.some.injEq,
      Prod.mk.injEq] at h
    obtain ⟨addr, p, hp, rfl, rfl⟩ := h
    refine Or.inr (frame j p ?_ ?_)
    · rintro rfl
      obtain ⟨h1, h2, h3⟩ := Port.get_spec undef (t := s.tables) hp hs
      refine ⟨h1, ?_, ?_⟩
      · simp [puts, gets, Port.owed, h2, h3]
      · simp [puts, lookups, Port.owedErrors, h3]
    · intro hj
      simp [puts, gets, lookups, hj]
  | stage1 j =>
    simp only [mmu, bind, pure, Option.bind_eq_some_iff, Option.some.injEq, Prod.mk.injEq] at h
    obtain ⟨p, hp, rfl, rfl⟩ := h
    refine Or.inr (frame j p ?_ fun _ => ⟨rfl, rfl, rfl⟩)
    rintro rfl
    exact .of_internal (Port.stage1_spec undef hp hs)
  | stage2 j =>
    simp only [mmu, bind, pure, Option.bind_eq_some_iff, Option.some.injEq, Prod.mk.injEq] at h
    obtain ⟨p, hp, rfl, rfl⟩ := h
    refine Or.inr (frame j p ?_ fun _ => ⟨rfl, rfl, rfl⟩)
    rintro rfl
    exact .of_internal (Port.stage2_spec undef hp hs)
  | stage3 j =>
    simp only [mmu, bind, pure, Option.bind_eq_some_iff, Option.some.injEq, Prod.mk.injEq] at h
    obtain ⟨p, hp, rfl, rfl⟩ := h
    refine Or.inr (frame j p ?_ fun _ => ⟨rfl, rfl, rfl⟩)
    rintro rfl
    exact .of_internal (Port.stage3_spec undef hp hs)
  | stage4 j =>
    simp only [mmu, bind, pure, Option.bind_eq_some_iff, Prod.exists, Option.some.injEq,
      Prod.mk.injEq] at h
    obtain ⟨err, p, hp, dmaErrorFifo, -, rfl, rfl⟩ := h
    refine Or.inr (frame j p ?_ ?_)
    · rintro rfl
      obtain ⟨h1, x, h2, h3, h4⟩ := Port.stage4_spec undef hp hs
      refine ⟨h1, ?_, ?_⟩
      · simp [puts, gets, Port.owed, h2, h4]
      · simp [puts, lookups, Port.owedErrors, h2, h3]
    · intro hj
      simp [puts, gets, lookups, hj]
  | stage5 j =>
    simp only [mmu, bind, pure, Option.bind_eq_some_iff, Option.some.injEq, Prod.mk.injEq] at h
    obtain ⟨p, hp, rfl, rfl⟩ := h
    refine Or.inr (frame j p ?_ fun _ => ⟨rfl, rfl, rfl⟩)
    rintro rfl
    exact .of_internal (Port.stage5_spec undef hp hs)
  | dmaError =>
    simp only [mmu, bind, pure, Option.bind_eq_some_iff, Prod.exists, Option.some.injEq,
      Prod.mk.injEq] at h
    obtain ⟨err, q, -, rfl, rfl⟩ := h
    exact Or.inr (.refl hs rfl rfl rfl)
  | sendConfigResp =>
    simp only [mmu, bind, pure, Option.bind_eq_some_iff, Prod.exists, Option.some.injEq,
      Prod.mk.injEq] at h
    obtain ⟨ptr, q, -, rfl, rfl⟩ := h
    exact Or.inr (.refl hs rfl rfl rfl)
  | config c =>
    simp only [mmu, bind, pure, Option.bind_eq_some_iff, Option.some.injEq, Prod.mk.injEq] at h
    obtain ⟨s₁, hc, rfl, rfl⟩ := h
    refine Or.inl ⟨by simp [configCalls], ?_⟩
    cases c with
    | sglist =>
      simp only [State.config, Option.some.injEq] at hc
      rw [← hc]
    | region =>
      simp only [State.config, bind, pure, Option.bind_eq_some_iff, Option.some.injEq] at hc
      obtain ⟨q, -, rfl⟩ := hc
      rfl

/-- The configuration calls of a step are what changes the tables. -/
lemma mmu_step_tables {s s' : State addrWidth} {a : Action} {es : List (Event addrWidth)}
    (h : (mmu undef).step s a = some (s', es)) :
    s'.tables = (configCalls es).foldl Tables.apply s.tables := by
  cases a with
  | config c =>
    simp only [mmu, bind, pure, Option.bind_eq_some_iff, Option.some.injEq, Prod.mk.injEq] at h
    obtain ⟨s₁, hc, rfl, rfl⟩ := h
    cases c with
    | sglist =>
      simp only [State.config, Option.some.injEq] at hc
      rw [← hc]
      rfl
    | region =>
      simp only [State.config, bind, pure, Option.bind_eq_some_iff, Option.some.injEq] at hc
      obtain ⟨q, -, rfl⟩ := hc
      rfl
  | _ =>
    simp only [mmu, bind, pure, Option.bind_eq_some_iff, Prod.exists, Option.some.injEq,
      Prod.mk.injEq] at h
    first
      | (obtain ⟨p, -, rfl, rfl⟩ := h; rfl)
      | (obtain ⟨x, p, -, rfl, rfl⟩ := h; rfl)
      | (obtain ⟨x, p, -, q, -, rfl, rfl⟩ := h; rfl)

/-! ## Runs -/

/-- The tables after a run are the tables before it with the run's configuration calls applied,
in order. -/
theorem mmu_run_tables {s s' : State addrWidth} {tr : List (Event addrWidth)}
    (h : (mmu undef).Reaches s tr s') :
    s'.tables = (configCalls tr).foldl Tables.apply s.tables := by
  refine h.invariant (I := fun tr s' => s'.tables = (configCalls tr).foldl Tables.apply s.tables)
    rfl ?_
  intro tr s₁ a s₂ es ih hs
  rw [mmu_step_tables undef hs, ih, configCalls_append, List.foldl_append]

/-- The queues of a port stay in step along every run. -/
lemma mmu_run_synced {s s' : State addrWidth} {tr : List (Event addrWidth)}
    (h : (mmu undef).Reaches s tr s') (i : Fin 2) (hs : (s.port i).Synced) :
    (s'.port i).Synced :=
  h.invariant (I := fun _ s' => (s'.port i).Synced) hs fun ih hstep => (mmu_step undef hstep i ih).1

/-- **An address server answers in order.** Along a run without configuration calls, the
responses taken followed by those still owed are the responses owed at the start followed by
the translations of the requests made, and likewise for the results of the lookups.

**Proof sketch.** Invariant rule with the conjunction of this conservation law and the fact that
the tables have not changed; one step is `mmu_step`. -/
theorem mmu_run {s s' : State addrWidth} {tr : List (Event addrWidth)}
    (h : (mmu undef).Reaches s tr s') (i : Fin 2) (hs : (s.port i).Synced)
    (hc : configCalls tr = []) :
    Conserves undef s.tables i tr (s.port i) (s'.port i) := by
  suffices hI : configCalls tr = [] →
      s'.tables = s.tables ∧ Conserves undef s.tables i tr (s.port i) (s'.port i) from (hI hc).2
  refine h.invariant (I := fun tr s' => configCalls tr = [] → s'.tables = s.tables ∧
    Conserves undef s.tables i tr (s.port i) (s'.port i)) ?_ ?_
  · intro _
    exact ⟨rfl, .refl hs rfl rfl rfl⟩
  · intro tr s₁ a s₂ es ih hstep hce
    have hsplit : configCalls tr = [] ∧ configCalls es = [] := by
      simpa using hce
    obtain ⟨ht, hcons⟩ := ih hsplit.1
    refine ⟨?_, ?_⟩
    · rw [mmu_step_tables undef hstep, hsplit.2, List.foldl_nil, ht]
    · have hone := (mmu_step undef hstep i hcons.synced).2 hsplit.2
      rw [ht] at hone
      exact hcons.trans hone

/-! ## Every request can be answered -/

/-- The number of rule firings that the requests in flight on a port still need. -/
def Port.load (p : Port addrWidth) : ℕ :=
  6 * p.incomingReqs.items.length + 5 * p.reqs0.items.length + 4 * p.reqs1.items.length +
    3 * p.offs0.items.length + 2 * p.offs1.items.length + p.pageResponseFifo.items.length

section Progress

variable {p : Port addrWidth}

lemma Port.exists_get (h : p.pageResponseFifo.items ≠ []) :
    ∃ addr p', p.get = some (addr, p') ∧ p'.load < p.load := by
  obtain ⟨addr, rest, hr⟩ := List.exists_cons_of_ne_nil h
  obtain ⟨q, hq, hi⟩ := Fifo.exists_deq hr
  refine ⟨addr, { p with pageResponseFifo := q }, by simp [Port.get, hq], ?_⟩
  simp [Port.load, hr, hi]

lemma Port.exists_stage5 (hs : p.Synced) (h : p.offs1.items ≠ [])
    (hr : p.pageResponseFifo.items = []) : ∃ p', p.stage5 undef = some p' ∧ p'.load < p.load := by
  obtain ⟨o, os, ho⟩ := List.exists_cons_of_ne_nil h
  have hp := hs.pages
  rw [ho] at hp
  obtain ⟨g, gs, hg⟩ := List.exists_cons_of_length_eq_add_one hp
  obtain ⟨q₁, h₁, e₁⟩ := Fifo.exists_deq hg
  obtain ⟨q₂, h₂, e₂⟩ := Fifo.exists_deq ho
  obtain ⟨q₃, h₃, e₃⟩ := Fifo.exists_enq (q := p.pageResponseFifo) (by simp [hr])
    (physAddr undef g o)
  refine ⟨{ p with pagesResp := q₁, offs1 := q₂, pageResponseFifo := q₃ },
    by simp [Port.stage5, h₁, h₂, h₃], ?_⟩
  simp [Port.load, ho, e₂, e₃, hr]
  omega

lemma Port.exists_stage4 (t : Tables) (hs : p.Synced) (h : p.offs0.items ≠ [])
    (hr : p.offs1.items = []) :
    ∃ err p', p.stage4 t = some (err, p') ∧ p'.load < p.load := by
  obtain ⟨o, os, ho⟩ := List.exists_cons_of_ne_nil h
  obtain ⟨-, -, -, -, -, hb, hx, hp, hg⟩ := hs
  rw [ho] at hb hx hp
  rw [hr] at hg
  obtain ⟨b, bs, hb⟩ := List.exists_cons_of_length_eq_add_one hb
  obtain ⟨x, xs, hx⟩ := List.exists_cons_of_length_eq_add_one hx
  obtain ⟨r, rs, hp⟩ := List.exists_cons_of_length_eq_add_one hp
  obtain ⟨q₁, h₁, e₁⟩ := Fifo.exists_deq ho
  obtain ⟨q₂, h₂, e₂⟩ := Fifo.exists_deq hb
  obtain ⟨q₃, h₃, e₃⟩ := Fifo.exists_deq hx
  obtain ⟨q₄, h₄, e₄⟩ := Fifo.exists_deq hp
  obtain ⟨q₅, h₅, e₅⟩ := Fifo.exists_enq (q := p.pagesResp) (by simp [hg])
    (t.pages (pageIndex r b x))
  obtain ⟨q₆, h₆, e₆⟩ := Fifo.exists_enq (q := p.offs1) (by simp [hr]) o
  refine ⟨stage4Error o r,
    { p with
      offs0 := q₁, pbases := q₂, idxOffsets1 := q₃, ptrs1 := q₄, pagesResp := q₅, offs1 := q₆ },
    by simp [Port.stage4, h₁, h₂, h₃, h₄, h₅, h₆], ?_⟩
  simp [Port.load, ho, e₁, e₆, hr]
  omega

lemma Port.exists_stage3 (hs : p.Synced) (h : p.reqs1.items ≠ []) (hr : p.offs0.items = []) :
    ∃ p', p.stage3 = some p' ∧ p'.load < p.load := by
  obtain ⟨o, os, ho⟩ := List.exists_cons_of_ne_nil h
  obtain ⟨-, -, -, hc, hi, hb, hx, hp, -⟩ := hs
  rw [ho] at hc hi
  rw [hr] at hb hx hp
  obtain ⟨c, cs, hc⟩ := List.exists_cons_of_length_eq_add_one hc
  obtain ⟨d, ds, hi⟩ := List.exists_cons_of_length_eq_add_one hi
  obtain ⟨q₁, h₁, e₁⟩ := Fifo.exists_deq ho
  obtain ⟨q₂, h₂, e₂⟩ := Fifo.exists_deq hc
  obtain ⟨q₃, h₃, e₃⟩ := Fifo.exists_deq hi
  set sel := selectPage o.off c d
  obtain ⟨q₄, h₄, e₄⟩ := Fifo.exists_enq (q := p.offs0) (by simp [hr]) sel.offset
  obtain ⟨q₅, h₅, e₅⟩ := Fifo.exists_enq (q := p.pbases) (by simp [hb]) sel.pbase
  obtain ⟨q₆, h₆, e₆⟩ := Fifo.exists_enq (q := p.idxOffsets1) (by simp [hx]) sel.idxOffset
  obtain ⟨q₇, h₇, e₇⟩ := Fifo.exists_enq (q := p.ptrs1) (by simp [hp]) o.ptr
  refine ⟨
    { p with
      reqs1 := q₁, conds := q₂, idxOffsets0 := q₃, offs0 := q₄, pbases := q₅, idxOffsets1 := q₆,
      ptrs1 := q₇ },
    by simp [Port.stage3, h₁, h₂, h₃, h₄, h₅, h₆, h₇, sel], ?_⟩
  simp [Port.load, ho, e₁, e₄, hr]
  omega

lemma Port.exists_stage2 (hs : p.Synced) (h : p.reqs0.items ≠ []) (hr : p.reqs1.items = []) :
    ∃ p', p.stage2 = some p' ∧ p'.load < p.load := by
  obtain ⟨o, os, ho⟩ := List.exists_cons_of_ne_nil h
  obtain ⟨h8, h4, h0, hc, hi, -, -, -, -⟩ := hs
  rw [ho] at h8 h4 h0
  rw [hr] at hc hi
  obtain ⟨r8, rs8, h8⟩ := List.exists_cons_of_length_eq_add_one h8
  obtain ⟨r4, rs4, h4⟩ := List.exists_cons_of_length_eq_add_one h4
  obtain ⟨r0, rs0, h0⟩ := List.exists_cons_of_length_eq_add_one h0
  obtain ⟨q₁, h₁, e₁⟩ := Fifo.exists_deq ho
  obtain ⟨q₂, h₂, e₂⟩ := Fifo.exists_deq h8
  obtain ⟨q₃, h₃, e₃⟩ := Fifo.exists_deq h4
  obtain ⟨q₄, h₄, e₄⟩ := Fifo.exists_deq h0
  obtain ⟨q₅, h₅, e₅⟩ := Fifo.exists_enq (q := p.conds) (by simp [hc])
    (regionConds o.off r8 r4 r0)
  obtain ⟨q₆, h₆, e₆⟩ := Fifo.exists_enq (q := p.idxOffsets0) (by simp [hi])
    (r8.idxOffset, r4.idxOffset, r0.idxOffset)
  obtain ⟨q₇, h₇, e₇⟩ := Fifo.exists_enq (q := p.reqs1) (by simp [hr]) o
  refine ⟨
    { p with
      reqs0 := q₁, reg8Resp := q₂, reg4Resp := q₃, reg0Resp := q₄, conds := q₅, idxOffsets0 := q₆,
      reqs1 := q₇ },
    by simp [Port.stage2, h₁, h₂, h₃, h₄, h₅, h₆, h₇], ?_⟩
  simp [Port.load, ho, e₁, e₇, hr]
  omega

lemma Port.exists_stage1 (t : Tables) (hs : p.Synced) (h : p.incomingReqs.items ≠ [])
    (hr : p.reqs0.items = []) : ∃ p', p.stage1 t = some p' ∧ p'.load < p.load := by
  obtain ⟨o, os, ho⟩ := List.exists_cons_of_ne_nil h
  obtain ⟨h8, h4, h0, -, -, -, -, -, -⟩ := hs
  rw [hr] at h8 h4 h0
  obtain ⟨q₁, h₁, e₁⟩ := Fifo.exists_deq ho
  obtain ⟨q₂, h₂, e₂⟩ := Fifo.exists_enq (q := p.reg8Resp) (by simp [h8]) (t.reg8 o.ptr)
  obtain ⟨q₃, h₃, e₃⟩ := Fifo.exists_enq (q := p.reg4Resp) (by simp [h4]) (t.reg4 o.ptr)
  obtain ⟨q₄, h₄, e₄⟩ := Fifo.exists_enq (q := p.reg0Resp) (by simp [h0]) (t.reg0 o.ptr)
  obtain ⟨q₅, h₅, e₅⟩ := Fifo.exists_enq (q := p.reqs0) (by simp [hr]) o
  refine ⟨
    { p with
      incomingReqs := q₁, reg8Resp := q₂, reg4Resp := q₃, reg0Resp := q₄, reqs0 := q₅ },
    by simp [Port.stage1, h₁, h₂, h₃, h₄, h₅], ?_⟩
  simp [Port.load, ho, e₁, e₅, hr]
  omega

end Progress

/-- What is left to do on port `i`, counting also the errors that wait to be sent: a full error
queue holds up stage 4. -/
def State.work (s : State addrWidth) (i : Fin 2) : ℕ :=
  2 * (s.port i).load + s.dmaErrorFifo.items.length

/-- **The pipeline never gets stuck.** While requests are in flight on port `i`, some step that
is neither a configuration call nor a new request reduces the work left; as long as there is no
response to take, it is a rule of the unit.

**Proof sketch.** Take the last stage that has something to do: the stage after it is empty, so
its rule has room. Only stage 4 can be held up, by a full error queue, and then an error can be
sent. -/
lemma exists_progress (s : State addrWidth) (i : Fin 2) (hs : (s.port i).Synced)
    (hl : 0 < (s.port i).load) :
    ∃ a s' es, (mmu undef).step s a = some (s', es) ∧ s'.work i < s.work i ∧
      configCalls es = [] ∧ puts i es = [] ∧
      ((s.port i).pageResponseFifo.items = [] → a.isBehind i) := by
  set p := s.port i with hp
  -- a rule of port `i` that reduces its load
  have rule : ∀ p' : Port addrWidth, p'.load < p.load → (s.setPort i p').work i < s.work i := by
    intro p' h
    simp only [State.work, State.setPort_port_self, ← hp]
    simp only [State.setPort]
    omega
  by_cases h6 : p.pageResponseFifo.items = []
  swap
  · obtain ⟨addr, p', h, hlt⟩ := Port.exists_get h6
    exact ⟨.get i, s.setPort i p', [.get i addr], by simp [mmu, ← hp, h], rule p' hlt, rfl, rfl,
      fun h => absurd h h6⟩
  by_cases h5 : p.offs1.items = []
  swap
  · obtain ⟨p', h, hlt⟩ := Port.exists_stage5 undef hs h5 h6
    exact ⟨.stage5 i, s.setPort i p', [], by simp [mmu, ← hp, h], rule p' hlt, rfl, rfl, fun _ => rfl⟩
  by_cases h4 : p.offs0.items = []
  swap
  · obtain ⟨err, p', h, hlt⟩ := Port.exists_stage4 s.tables hs h4 h5
    by_cases hroom : s.dmaErrorFifo.items.length < 2
    · obtain ⟨q, hq, hlen⟩ : ∃ q, enqError s.dmaErrorFifo err = some q ∧
          q.items.length ≤ s.dmaErrorFifo.items.length + 1 := by
        cases err with
        | none => exact ⟨s.dmaErrorFifo, rfl, by omega⟩
        | some e =>
          obtain ⟨q, hq, hi⟩ := Fifo.exists_enq hroom e
          exact ⟨q, hq, by simp [hi]⟩
      refine ⟨.stage4 i, { s.setPort i p' with dmaErrorFifo := q }, [.lookup i err],
        by simp [mmu, ← hp, h, hq], ?_, rfl, rfl, fun _ => rfl⟩
      simp only [State.work, State.setPort, Function.update_self, ← hp]
      omega
    · obtain ⟨e, es, he⟩ := List.exists_cons_of_ne_nil (l := s.dmaErrorFifo.items) (by
        intro h0; rw [h0] at hroom; simp at hroom)
      obtain ⟨q, hq, hi⟩ := Fifo.exists_deq he
      refine ⟨.dmaError, { s with dmaErrorFifo := q }, [.dmaError e], by simp [mmu, hq], ?_, rfl,
        rfl, fun _ => rfl⟩
      simp only [State.work, hi, he, List.length_cons]
      omega
  by_cases h3 : p.reqs1.items = []
  swap
  · obtain ⟨p', h, hlt⟩ := Port.exists_stage3 hs h3 h4
    exact ⟨.stage3 i, s.setPort i p', [], by simp [mmu, ← hp, h], rule p' hlt, rfl, rfl, fun _ => rfl⟩
  by_cases h2 : p.reqs0.items = []
  swap
  · obtain ⟨p', h, hlt⟩ := Port.exists_stage2 hs h2 h3
    exact ⟨.stage2 i, s.setPort i p', [], by simp [mmu, ← hp, h], rule p' hlt, rfl, rfl, fun _ => rfl⟩
  have h1 : p.incomingReqs.items ≠ [] := by
    intro h1
    simp [Port.load, h1, h2, h3, h4, h5, h6] at hl
  obtain ⟨p', h, hlt⟩ := Port.exists_stage1 s.tables hs h1 h2
  exact ⟨.stage1 i, s.setPort i p', [], by simp [mmu, ← hp, h], rule p' hlt, rfl, rfl, fun _ => rfl⟩

/-- A port with no load owes nothing. -/
lemma Port.owed_of_load {t : Tables} {p : Port addrWidth} (h : p.load = 0) :
    p.owed undef t = [] ∧ p.owedErrors t = [] := by
  have h1 : p.incomingReqs.items = [] := List.length_eq_zero_iff.mp (by unfold Port.load at h; omega)
  have h2 : p.reqs0.items = [] := List.length_eq_zero_iff.mp (by unfold Port.load at h; omega)
  have h3 : p.reqs1.items = [] := List.length_eq_zero_iff.mp (by unfold Port.load at h; omega)
  have h4 : p.offs0.items = [] := List.length_eq_zero_iff.mp (by unfold Port.load at h; omega)
  have h5 : p.offs1.items = [] := List.length_eq_zero_iff.mp (by unfold Port.load at h; omega)
  have h6 : p.pageResponseFifo.items = [] :=
    List.length_eq_zero_iff.mp (by unfold Port.load at h; omega)
  have hsel : p.selected t = [] := by
    simp [Port.selected, Port.selected1, Port.selected2, Port.selected3, Port.selected4, h1, h2, h3,
      h4]
  simp [Port.owed, Port.owedErrors, Port.looked, hsel, h5, h6]

/-- **Every request in flight can be answered**: from every state, rules of the unit and reads of
responses lead to a state in which port `i` owes nothing, without configuration calls or new
requests on the port.

**Proof sketch.** Strong induction on the work left, one step being `exists_progress`. -/
theorem exists_drain (s : State addrWidth) (i : Fin 2) (hs : (s.port i).Synced) :
    ∃ tr s', (mmu undef).Reaches s tr s' ∧ configCalls tr = [] ∧ puts i tr = [] ∧
      (s'.port i).load = 0 := by
  induction hn : s.work i using Nat.strong_induction_on generalizing s with
  | _ n ih =>
    by_cases hl : (s.port i).load = 0
    · exact ⟨[], s, .refl, rfl, rfl, hl⟩
    · obtain ⟨a, s₁, es, hstep, hlt, hc, hp, -⟩ := exists_progress undef s i hs (by omega)
      obtain ⟨tr, s₂, hrun, hc', hp', hl'⟩ :=
        ih (s₁.work i) (by omega) s₁ (mmu_step undef hstep i hs).1 rfl
      refine ⟨es ++ tr, s₂, (RuleSystem.Reaches.single a hstep).trans hrun, ?_, ?_, hl'⟩
      · rw [configCalls_append, hc, hc', List.append_nil]
      · rw [puts_append, hp, hp', List.append_nil]

/-- **The answer to the `k`-th request.** In a run without configuration calls, the `k`-th request
made on server `i` is answered with its translation: that is what the response `k` places after
those owed at the start is once it has been taken, and it can always still be taken. The same
holds for the result of its lookup. -/
theorem mmu_answer {s s' : State addrWidth} {tr : List (Event addrWidth)}
    (h : (mmu undef).Reaches s tr s') (i : Fin 2) (hs : (s.port i).Synced)
    (hc : configCalls tr = []) {k : ℕ} {req : ReqTup} (hk : (puts i tr)[k]? = some req) :
    (∀ a, (gets i tr)[((s.port i).owed undef s.tables).length + k]? = some a →
      a = translate undef s.tables req) ∧
    (∀ x, (lookups i tr)[((s.port i).owedErrors s.tables).length + k]? = some x →
      x = lookupError s.tables req) ∧
    ∃ tr' s'', (mmu undef).Reaches s' tr' s'' ∧ configCalls tr' = [] ∧ puts i tr' = [] ∧
      (gets i (tr ++ tr'))[((s.port i).owed undef s.tables).length + k]? =
        some (translate undef s.tables req) ∧
      (lookups i (tr ++ tr'))[((s.port i).owedErrors s.tables).length + k]? =
        some (lookupError s.tables req) := by
  have hrun := mmu_run undef h i hs hc
  refine ⟨fun a ha => ?_, fun x hx => ?_, ?_⟩
  · have he := congrArg (·[((s.port i).owed undef s.tables).length + k]?) hrun.owed
    simp only [List.getElem?_append_right (Nat.le_add_right _ _), Nat.add_sub_cancel_left,
      List.getElem?_map, hk, Option.map_some] at he
    rw [List.getElem?_append_left (List.getElem?_eq_some_iff.mp ha).1, ha] at he
    exact Option.some.inj he
  · have he := congrArg (·[((s.port i).owedErrors s.tables).length + k]?) hrun.owedErrors
    simp only [List.getElem?_append_right (Nat.le_add_right _ _), Nat.add_sub_cancel_left,
      List.getElem?_map, hk, Option.map_some] at he
    rw [List.getElem?_append_left (List.getElem?_eq_some_iff.mp hx).1, hx] at he
    exact Option.some.inj he
  · obtain ⟨tr', s'', hdrain, hc', hp', hl⟩ := exists_drain undef s' i hrun.synced
    have hall := mmu_run undef (h.trans hdrain) i hs (by rw [configCalls_append, hc, hc']; rfl)
    obtain ⟨ho, hoe⟩ := Port.owed_of_load undef (t := s.tables) hl
    have e₁ := hall.owed
    have e₂ := hall.owedErrors
    rw [ho, List.append_nil, puts_append, hp', List.append_nil] at e₁
    rw [hoe, List.append_nil, puts_append, hp', List.append_nil] at e₂
    refine ⟨tr', s'', hdrain, hc', hp', ?_, ?_⟩
    · rw [e₁, List.getElem?_append_right (Nat.le_add_right _ _), Nat.add_sub_cancel_left,
        List.getElem?_map, hk, Option.map_some]
    · rw [e₂, List.getElem?_append_right (Nat.le_add_right _ _), Nat.add_sub_cancel_left,
        List.getElem?_map, hk, Option.map_some]

end Xbsv.SGList
