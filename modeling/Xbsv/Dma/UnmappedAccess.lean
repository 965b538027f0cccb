import Xbsv.Dma.AddrServer

set_option relaxedAutoImplicit false
set_option autoImplicit false

/-!
# Requests without a translation

When no region of an object covers the offset of a request, stage 4 of the memory management unit
reports an error and lets the lookup go on. Stage 5 then responds with an address that is not
assigned, and `checkSglResp`, the stage called address validation, takes it like any other. Only
`bad_pointer` keeps a request from the memory, and it does not look at the tables.

The runs considered here are those in which the unit takes steps only while no region covers the
request. Configuration calls are among these steps.

## Main definitions

* `Xbsv.unmappedRules` — the steps of the unit while no region covers a request.
* `Xbsv.TagGen.Serves` — a request for a tag that can be granted.
* `Xbsv.frontEnd` — the front end as a rule system.

## Main results

* `Xbsv.unmapped_notHanded_iff` — such a request is kept from the memory exactly when `bad_pointer`
  rejects it.
* `Xbsv.not_notHanded_stray` — a request that reaches the memory with an address that no table gave.
-/

namespace Xbsv

open Rules SGList

/-! ## The unit while a request is not mapped -/

section Unit

variable {addrWidth : ℕ} (undef : Page → Offset → BitVec 40)

/-- The two methods of port `i`. -/
def SGList.Action.isMethod (i : Fin 2) : SGList.Action → Bool
  | .put j _ => j = i
  | .get j => j = i
  | _ => false

/-- The steps of the unit, the methods of port `i` apart, while no region covers the request `tup`. -/
def unmappedRules (i : Fin 2) (tup : ReqTup) :
    RuleSystem (SGList.State addrWidth) SGList.Action (SGList.Event addrWidth) :=
  (mmu undef).guard fun s a => a.isMethod i = false ∧ s.tables.mapped tup = false

/-- The rules behind a port are among these steps. -/
lemma unmappedRules_of_portRules {i : Fin 2} {tup : ReqTup} {s s' : SGList.State addrWidth}
    {a : SGList.Action} {es : List (SGList.Event addrWidth)} (hm : s.tables.mapped tup = false)
    (h : (portRules undef i).step s a = some (s', es)) :
    s'.tables.mapped tup = false ∧ (unmappedRules undef i tup).step s a = some (s', es) := by
  obtain ⟨hs, -, -, hc⟩ := portRules_step undef h
  have hb : a.isBehind i = true := (RuleSystem.guard_step.mp h).1
  have ht : s'.tables = s.tables := by
    rw [mmu_step_tables undef hs, hc]
    rfl
  refine ⟨by rw [ht]; exact hm, RuleSystem.guard_step.mpr ⟨⟨?_, hm⟩, hs⟩⟩
  cases a with
  | put j req => simpa [SGList.Action.isBehind, SGList.Action.isMethod] using hb
  | get j => simpa [SGList.Action.isBehind, SGList.Action.isMethod] using hb
  | _ => rfl

/-- An unmapped request is answered all the same, by an idle unit and without configuration calls. -/
lemma exists_unmapped_response (i : Fin 2) {t : Tables} {tup : ReqTup} (hm : t.mapped tup = false) :
    ∃ w₁ w₂ w₃ ds, (addrServer i).put (SGList.State.reset addrWidth t) tup = some w₁ ∧
      (unmappedRules undef i tup).Reaches w₁ ds w₂ ∧
      (addrServer i).get w₂ = some (translate undef t tup, w₃) := by
  obtain ⟨q, hq, -⟩ := Fifo.exists_enq (q := (Port.idle addrWidth).incomingReqs)
    (by decide : (0 : ℕ) < 2) tup
  have hput : ∃ w₁, (addrServer i).put (SGList.State.reset addrWidth t) tup = some w₁ := by
    simp [addrServer, SGList.State.reset, Port.put, hq]
  obtain ⟨w₁, hput⟩ := hput
  have ho : (addrServer_inOrder undef i t).owes w₁ [translate undef t tup] :=
    (addrServer_inOrder undef i t).put (addrServer_owes_reset undef i t) hput
  obtain ⟨ds, w₂, w₃, hrun, -, hget⟩ := exists_response undef ho
  have hrun' := (hrun.simulates (N := unmappedRules undef i tup) id id id
    (fun hI hs => by simpa using unmappedRules_of_portRules undef hI hs)
    (by rw [ho.1]; exact hm)).2
  exact ⟨w₁, w₂, w₃, ds.map id, hput, hrun', hget⟩

end Unit

/-! ## A request through the front end -/

variable {σ τ κ ε ι δ : Type} {numClients numTags addrWidth dataWidthBytes : ℕ}

/-- In state `g` the generator can grant a tag for the request: after some of its rules have fired it
has a response. -/
def TagGen.Serves (tg : TagGen τ κ ε numClients numTags) (g : τ) (client : Fin numClients)
    (origTag : BitVec 6) : Prop :=
  ∃ g₁ g₂ g₃ t ds, tg.tagRequest g client origTag = some g₁ ∧ tg.Reaches g₁ ds g₂ ∧
    tg.tagResponse g₂ = some (t, g₃)

/-- The front end as a rule system, over the state of its address server and its own. -/
def frontEnd (errorType : DmaErrorType) (sgl : Server σ ReqTup (BitVec addrWidth))
    (tg : TagGen τ κ ε numClients numTags) :
    RuleSystem (σ × FrontEnd τ numClients numTags addrWidth) (FrontEnd.Action κ numClients)
      (FrontEnd.Event ε numClients numTags addrWidth) where
  step p a := (FrontEnd.step sgl tg errorType p.1 p.2 a).map fun x => ((x.1, x.2.1), x.2.2)

section FrontEnd

variable {errorType : DmaErrorType} {sgl : Server σ ReqTup (BitVec addrWidth)}
  {tg : TagGen τ κ ε numClients numTags} {env : RuleSystem σ ι δ}
  {stream : Fin numClients → ℕ → ObjectData (dataWidthBytes * 8)}

/-- Runs of the front end of the read module are runs of the module. -/
lemma reaches_memRead {w w' : σ} {f f' : FrontEnd τ numClients numTags addrWidth}
    {tr : List (FrontEnd.Event ε numClients numTags addrWidth)}
    (h : ((frontEnd readError sgl tg).behind env).Reaches (w, f) tr (w', f'))
    (s : MemRead τ numClients numTags addrWidth dataWidthBytes) :
    ((memRead dataWidthBytes sgl tg).behind env).Reaches (w, { s with front := f })
      (tr.map .front) (w', { s with front := f' }) := by
  refine (h.simulates (N := (memRead dataWidthBytes sgl tg).behind env) (I := fun _ => True)
    (fun p => (p.1, { s with front := p.2 })) (Sum.map .front id) .front ?_ trivial).2
  intro p a p' es _ hs
  refine ⟨trivial, ?_⟩
  cases a with
  | inl a =>
    simp only [RuleSystem.behind, frontEnd, Option.map_eq_some_iff, Prod.exists,
      Prod.mk.injEq] at hs
    obtain ⟨w₁, f₁, es₁, hstep, rfl, rfl⟩ := hs
    simp [RuleSystem.behind, memRead, MemRead.step, hstep]
  | inr k =>
    obtain ⟨ds, henv, hp, rfl⟩ := RuleSystem.behind_step_inr hs
    simp [RuleSystem.behind, henv, hp]

/-- Runs of the front end of the write module are runs of the module. -/
lemma reaches_memWrite {w w' : σ} {f f' : FrontEnd τ numClients numTags addrWidth}
    {tr : List (FrontEnd.Event ε numClients numTags addrWidth)}
    (h : ((frontEnd writeError sgl tg).behind env).Reaches (w, f) tr (w', f'))
    (s : MemWrite τ numClients numTags addrWidth) :
    ((memWrite sgl tg stream).behind env).Reaches (w, { s with front := f })
      (tr.map .front) (w', { s with front := f' }) := by
  refine (h.simulates (N := (memWrite sgl tg stream).behind env) (I := fun _ => True)
    (fun p => (p.1, { s with front := p.2 })) (Sum.map .front id) .front ?_ trivial).2
  intro p a p' es _ hs
  refine ⟨trivial, ?_⟩
  cases a with
  | inl a =>
    simp only [RuleSystem.behind, frontEnd, Option.map_eq_some_iff, Prod.exists,
      Prod.mk.injEq] at hs
    obtain ⟨w₁, f₁, es₁, hstep, rfl, rfl⟩ := hs
    simp [RuleSystem.behind, memWrite, MemWrite.step, hstep]
  | inr k =>
    obtain ⟨ds, henv, hp, rfl⟩ := RuleSystem.behind_step_inr hs
    simp [RuleSystem.behind, henv, hp]

/-- A request with a good pointer passes an idle front end, once it has an address and a tag. -/
lemma exists_checked {g₀ : τ} {client : Fin numClients} {req : ObjectRequest}
    (hb : badPointer req.pointer = false) (hg : tg.Serves g₀ client req.tag) {w₀ w₁ w₂ w₃ : σ}
    {ds : List δ} {pa : BitVec addrWidth} (hput : sgl.put w₀ (FrontEnd.reqTup req) = some w₁)
    (henv : env.Reaches w₁ ds w₂) (hget : sgl.get w₂ = some (pa, w₃)) :
    ∃ tr f r, ((frontEnd errorType sgl tg).behind env).Reaches (w₀, .reset g₀) tr (w₃, f) ∧
      f.reqFifo.items = [r] ∧ r.toLRec = ⟨req, client⟩ := by
  obtain ⟨g₁, g₂, g₃, t, es, hreq, htag, hresp⟩ := hg
  set M := (frontEnd errorType sgl tg).behind env
  -- `loadClient`
  obtain ⟨lreqs, hl, hli⟩ := Fifo.exists_enq (q := (Fifo.empty : Fifo sglPipelineDepth (LRec _)))
    (by decide : 0 < 9) ⟨req, client⟩
  have h₁ : M.Reaches (w₀, .reset g₀) [.accept client req (FrontEnd.reqTup req)]
      (w₁, ⟨g₁, lreqs, .empty, .empty⟩) := by
    refine .single (.inl (.loadClient client req)) ?_
    simp [M, frontEnd, FrontEnd.step, FrontEnd.loadClient, FrontEnd.reset, hb, hreq, hl, hput]
  -- the rules of the tag generator
  have h₂ : M.Reaches (w₁, ⟨g₁, lreqs, .empty, .empty⟩) (es.map .tag)
      (w₁, ⟨g₂, lreqs, .empty, .empty⟩) := by
    refine (htag.simulates (N := M) (I := fun _ => True)
      (fun g => (w₁, (⟨g, lreqs, .empty, .empty⟩ : FrontEnd τ numClients numTags addrWidth)))
      (fun k => .inl (.tagRule k)) .tag ?_ trivial).2
    intro g k g' es' _ hs
    exact ⟨trivial, by simp [M, frontEnd, FrontEnd.step, hs]⟩
  -- the rules of the unit, and `checkSglResp`
  have h₃ := henv.behind_env (M := frontEnd errorType sgl tg)
    (⟨g₂, lreqs, .empty, .empty⟩ : FrontEnd τ numClients numTags addrWidth)
  obtain ⟨lreqs', hd, -⟩ := Fifo.exists_deq hli
  obtain ⟨reqs, hr, hri⟩ := Fifo.exists_enq
    (q := (Fifo.empty : Fifo 2 (RRec numClients numTags addrWidth))) (by decide : 0 < 2)
    ⟨req, pa, t, client⟩
  have h₄ : M.Reaches (w₂, ⟨g₂, lreqs, .empty, .empty⟩) [.checked ⟨req, pa, t, client⟩]
      (w₃, ⟨g₃, lreqs', reqs, .empty⟩) := by
    refine .single (.inl .checkSglResp) ?_
    simp [M, frontEnd, FrontEnd.step, FrontEnd.checkSglResp, hget, hresp, hd, hr]
  exact ⟨_, _, _, ((h₁.trans h₂).trans h₃).trans h₄, hri, rfl⟩

/-- All requests in the front end passed the check of their pointer. -/
def FrontEnd.GoodPointers (f : FrontEnd τ numClients numTags addrWidth) : Prop :=
  (∀ l ∈ f.lreqFifo.items, badPointer l.req.pointer = false) ∧
    ∀ r ∈ f.reqFifo.items, badPointer r.req.pointer = false

/-- A step of the front end lets only good pointers in. -/
lemma FrontEnd.GoodPointers.fires {w w' : σ} {f f' : FrontEnd τ numClients numTags addrWidth}
    {a : FrontEnd.Action κ numClients} {es : List (FrontEnd.Event ε numClients numTags addrWidth)}
    (hf : f.GoodPointers) (h : FrontEnd.Fires sgl tg errorType w f a w' f' es) :
    f'.GoodPointers := by
  obtain ⟨hl, hr⟩ := hf
  cases h with
  | reject bad enq => exact ⟨hl, hr⟩
  | accept good tag enq put =>
    refine ⟨?_, hr⟩
    intro l hmem
    rw [enq, List.mem_append, List.mem_singleton] at hmem
    rcases hmem with hmem | rfl
    · exact hl l hmem
    · exact good
  | @checked r g w' lreqs reqs get tag deq enq =>
    rw [deq] at hl
    refine ⟨fun l hmem => hl l (List.mem_cons_of_mem _ hmem), ?_⟩
    intro r' hmem
    rw [enq, List.mem_append, List.mem_singleton] at hmem
    rcases hmem with hmem | hmem
    · exact hr r' hmem
    · rw [hmem]
      exact hl r.toLRec List.mem_cons_self
  | dmaError deq => exact ⟨hl, hr⟩
  | tagRule step => exact ⟨hl, hr⟩

/-- Requests may leave the front end. -/
lemma FrontEnd.GoodPointers.of_subset {f f' : FrontEnd τ numClients numTags addrWidth}
    (hf : f.GoodPointers) (hl : f'.lreqFifo = f.lreqFifo)
    (hr : f'.reqFifo.items ⊆ f.reqFifo.items) : f'.GoodPointers := by
  refine ⟨?_, fun r hmem => hf.2 r (hr hmem)⟩
  rw [hl]
  exact hf.1

end FrontEnd

/-! ## What keeps a request from the memory -/

section Theorem

variable {sgl : Server σ ReqTup (BitVec addrWidth)} {tg : TagGen τ κ ε numClients numTags}
  {env : RuleSystem σ ι δ} {stream : Fin numClients → ℕ → ObjectData (dataWidthBytes * 8)}

/-- No request with a bad pointer is read from the memory. -/
lemma memRead_goodPointers {w₀ : σ} {g₀ : τ} {p : σ × MemRead τ numClients numTags addrWidth _}
    {tr : List (MemRead.Event ε numClients numTags addrWidth dataWidthBytes)}
    (h : ((memRead dataWidthBytes sgl tg).behind env).Reaches (w₀, .reset g₀) tr p) :
    p.2.front.GoodPointers ∧ ∀ r m, .readReq r m ∈ tr → badPointer r.req.pointer = false := by
  refine h.invariant_behind (I := fun tr s => s.front.GoodPointers ∧
    ∀ r m, .readReq r m ∈ tr → badPointer r.req.pointer = false) ?_ ?_
  · exact ⟨⟨by simp [MemRead.reset, FrontEnd.reset], by simp [MemRead.reset, FrontEnd.reset]⟩,
      by simp⟩
  intro tr w s a w' s' es ⟨hf, ht⟩ hs
  rcases (MemRead.fires_of_step hs).front_cases with ⟨b, fs, fires, rfl⟩ | ⟨-, hl, hq, hout⟩
  · exact ⟨hf.fires fires, by simpa using ht⟩
  · refine ⟨hf.of_subset hl hq, fun r m hmem => ?_⟩
    rcases List.mem_append.mp hmem with hmem | hmem
    · exact ht r m hmem
    · exact hf.2 r (hout r m hmem)

/-- No request with a bad pointer is written to the memory. -/
lemma memWrite_goodPointers {w₀ : σ} {g₀ : τ} {p : σ × MemWrite τ numClients numTags addrWidth}
    {tr : List (MemWrite.Event ε numClients numTags addrWidth dataWidthBytes)}
    (h : ((memWrite sgl tg stream).behind env).Reaches (w₀, .reset g₀) tr p) :
    p.2.front.GoodPointers ∧ ∀ r m, .writeReq r m ∈ tr → badPointer r.req.pointer = false := by
  refine h.invariant_behind (I := fun tr s => s.front.GoodPointers ∧
    ∀ r m, .writeReq r m ∈ tr → badPointer r.req.pointer = false) ?_ ?_
  · exact ⟨⟨by simp [MemWrite.reset, FrontEnd.reset], by simp [MemWrite.reset, FrontEnd.reset]⟩,
      by simp⟩
  intro tr w s a w' s' es ⟨hf, ht⟩ hs
  rcases (MemWrite.fires_of_step hs).front_cases with ⟨b, fs, fires, rfl⟩ | ⟨-, hl, hq, hout⟩
  · exact ⟨hf.fires fires, by simpa using ht⟩
  · refine ⟨hf.of_subset hl hq, fun r m hmem => ?_⟩
    rcases List.mem_append.mp hmem with hmem | hmem
    · exact ht r m hmem
    · exact hf.2 r (hout r m hmem)

variable (dataWidthBytes) in
/-- A read request in `reqFifo` can be handed to the memory. -/
lemma exists_readReq {g₀ : τ} {w₀ w : σ} {f : FrontEnd τ numClients numTags addrWidth}
    {tr : List (FrontEnd.Event ε numClients numTags addrWidth)}
    {r : RRec numClients numTags addrWidth}
    (h : ((frontEnd readError sgl tg).behind env).Reaches (w₀, .reset g₀) tr (w, f))
    (hr : f.reqFifo.items = [r]) :
    ∃ tr' p, ((memRead dataWidthBytes sgl tg).behind env).Reaches (w₀, .reset g₀) tr' p ∧
      .readReq r r.memRequest ∈ tr' := by
  obtain ⟨s, hs, hdreq, hrun⟩ : ∃ s : MemRead τ numClients numTags addrWidth dataWidthBytes,
      s.front.reqFifo.items = [r] ∧ (∀ t, s.dreqFifos t = .empty) ∧
      ((memRead dataWidthBytes sgl tg).behind env).Reaches (w₀, .reset g₀) (tr.map .front) (w, s) :=
    ⟨_, hr, fun _ => rfl, reaches_memRead h (.reset g₀)⟩
  obtain ⟨reqs, hd, -⟩ := Fifo.exists_deq hs
  obtain ⟨dreqs, he, -⟩ := Fifo.exists_enq (q := (Fifo.empty : Fifo tagDepth (DRec _ _)))
    (by decide : 0 < 32) (MemRead.toDRec dataWidthBytes r)
  have hstep : ∃ p, ((memRead dataWidthBytes sgl tg).behind env).step (w, s) (.inl .readReq) =
      some (p, [.readReq r r.memRequest]) := by
    simp [memRead, MemRead.step, MemRead.readReq, hdreq, hd, he]
  obtain ⟨p, hp⟩ := hstep
  exact ⟨_, p, hrun.step _ hp, by simp⟩

variable (stream) in
/-- A write request in `reqFifo` can be handed to the memory. -/
lemma exists_writeReq {g₀ : τ} {w₀ w : σ} {f : FrontEnd τ numClients numTags addrWidth}
    {tr : List (FrontEnd.Event ε numClients numTags addrWidth)}
    {r : RRec numClients numTags addrWidth}
    (h : ((frontEnd writeError sgl tg).behind env).Reaches (w₀, .reset g₀) tr (w, f))
    (hr : f.reqFifo.items = [r]) :
    ∃ tr' p, ((memWrite sgl tg stream).behind env).Reaches (w₀, .reset g₀) tr' p ∧
      .writeReq r r.memRequest ∈ tr' := by
  obtain ⟨s, hs, hdreq, hrun⟩ : ∃ s : MemWrite τ numClients numTags addrWidth,
      s.front.reqFifo.items = [r] ∧ s.dreqFifo = .empty ∧
      ((memWrite sgl tg stream).behind env).Reaches (w₀, .reset g₀) (tr.map .front) (w, s) :=
    ⟨_, hr, rfl, reaches_memWrite h (.reset g₀)⟩
  obtain ⟨reqs, hd, -⟩ := Fifo.exists_deq hs
  have hroom : (Fifo.empty : Fifo (tagDepth * numTags) (DRec numClients numTags)).items.length <
      tagDepth * numTags := by
    have := r.renameTag.pos
    simp only [Fifo.items_empty, List.length_nil, tagDepth]
    omega
  obtain ⟨dreqs, he, -⟩ := Fifo.exists_enq hroom (MemWrite.toDRec r)
  have hstep : ∃ p, ((memWrite sgl tg stream).behind env).step (w, s) (.inl .writeReq) =
      some (p, [.writeReq r r.memRequest]) := by
    simp [memWrite, MemWrite.step, MemWrite.writeReq, hdreq, hd, he]
  obtain ⟨p, hp⟩ := hstep
  exact ⟨_, p, hrun.step _ hp, by simp⟩

end Theorem

section Main

variable (undef : Page → Offset → BitVec 40) (tg : TagGen τ κ ε numClients numTags)
  (stream : Fin numClients → ℕ → ObjectData (dataWidthBytes * 8))

/-- **Requests without a translation, exactly.** For a request that no region covers, in the tables
after reset and whenever the unit takes a step: no run hands it to the memory, for reading or for
writing, if and only if `bad_pointer` rejects its pointer.

**Proof sketch.** A rejected request never gets into the front end. For any other request there is a
run that hands it over: an idle unit answers it although it is not mapped, the tag generator grants a
tag, and nothing after that looks at the tables. -/
theorem unmapped_notHanded_iff {t : Tables} {g₀ : τ} {client : Fin numClients} {req : ObjectRequest}
    (hm : t.mapped (FrontEnd.reqTup req) = false) (hg : tg.Serves g₀ client req.tag) :
    ((∀ tr p, ((memRead dataWidthBytes (addrServer 0) tg).behind
          (unmappedRules undef 0 (FrontEnd.reqTup req))).Reaches
          (SGList.State.reset addrWidth t, .reset g₀) tr p →
        ∀ r m, .readReq r m ∈ tr → r.toLRec ≠ ⟨req, client⟩) ↔ badPointer req.pointer = true) ∧
    ((∀ tr p, ((memWrite (addrServer 1) tg stream).behind
          (unmappedRules undef 1 (FrontEnd.reqTup req))).Reaches
          (SGList.State.reset addrWidth t, .reset g₀) tr p →
        ∀ r m, .writeReq r m ∈ tr → r.toLRec ≠ ⟨req, client⟩) ↔ badPointer req.pointer = true) := by
  refine ⟨⟨?_, ?_⟩, ⟨?_, ?_⟩⟩
  · intro hall
    by_contra hb
    obtain ⟨w₁, w₂, w₃, ds, hput, henv, hget⟩ := exists_unmapped_response undef 0 hm
    obtain ⟨tr, f, r, hrun, hq, hr⟩ :=
      exists_checked (by simpa using hb) hg hput henv hget
    obtain ⟨tr', p, hrun', hmem⟩ := exists_readReq dataWidthBytes hrun hq
    exact hall tr' p hrun' r _ hmem hr
  · intro hb tr p hrun r m hmem hr
    have hgood := (memRead_goodPointers hrun).2 r m hmem
    have hreq : r.req = req := congrArg LRec.req hr
    rw [hreq, hb] at hgood
    cases hgood
  · intro hall
    by_contra hb
    obtain ⟨w₁, w₂, w₃, ds, hput, henv, hget⟩ := exists_unmapped_response undef 1 hm
    obtain ⟨tr, f, r, hrun, hq, hr⟩ :=
      exists_checked (by simpa using hb) hg hput henv hget
    obtain ⟨tr', p, hrun', hmem⟩ := exists_writeReq stream hrun hq
    exact hall tr' p hrun' r _ hmem hr
  · intro hb tr p hrun r m hmem hr
    have hgood := (memWrite_goodPointers hrun).2 r m hmem
    have hreq : r.req = req := congrArg LRec.req hr
    rw [hreq, hb] at hgood
    cases hgood

end Main

/-! ## Generators that serve, and a concrete run -/

/-- After reset the renaming generator grants a tag to every request. -/
lemma serves_mkTagGenOO (numClients : ℕ) {numTags : ℕ} (h : 0 < numTags)
    (client : Fin numClients) (origTag : BitVec 6) :
    (mkTagGenOO numClients numTags).Serves (.reset numClients numTags) client origTag := by
  obtain ⟨t, ht⟩ : ∃ t, (TagGenOO.reset numClients numTags).nextFree = some t := by
    cases hf : (TagGenOO.reset numClients numTags).nextFree with
    | none => exact absurd rfl (findElem_eq_none.mp hf ⟨0, h⟩)
    | some t => exact ⟨t, rfl⟩
  have hnone : findElem (some (client, origTag)) (TagGenOO.reset numClients numTags).clientMap =
      none := by
    rw [findElem_eq_none]
    intro i
    simp [TagGenOO.reset]
  obtain ⟨q₀, he₀, hi₀⟩ := Fifo.exists_enq (q := (TagGenOO.reset numClients numTags).requestFifo0)
    (by decide : 0 < 9) (none, client, origTag)
  obtain ⟨q₀', hd₀, -⟩ := Fifo.exists_deq hi₀
  obtain ⟨q₁, he₁, hi₁⟩ := Fifo.exists_enq (q := (TagGenOO.reset numClients numTags).requestFifo1)
    (by decide : 0 < 9) (t, client, origTag)
  obtain ⟨q₁', hd₁, -⟩ := Fifo.exists_deq hi₁
  have hreq : (mkTagGenOO numClients numTags).tagRequest (.reset numClients numTags) client origTag =
      some ⟨q₀, .empty, .empty, fun _ => 0, fun _ => none⟩ := by
    simp only [mkTagGenOO, TagGenOO.tagRequest, hnone, he₀]
    rfl
  have hrule : (mkTagGenOO numClients numTags).step ⟨q₀, .empty, .empty, fun _ => 0, fun _ => none⟩
      .tagRequestRule = some (⟨q₀', q₁, .empty, fun _ => 0, fun _ => none⟩, []) := by
    have he : (Fifo.empty : Fifo sglPipelineDepth _).enq (t, client, origTag) = some q₁ := he₁
    have hc : TagGenOO.chooseTag (⟨q₀, .empty, .empty, fun _ => 0, fun _ => none⟩ :
        TagGenOO numClients numTags) none = some t := ht
    simp only [mkTagGenOO, TagGenOO.tagRequestRule, bind, pure, hd₀, Option.bind_some, hc, he]
  have hresp : ∃ g, (mkTagGenOO numClients numTags).tagResponse
      ⟨q₀', q₁, .empty, fun _ => 0, fun _ => none⟩ = some (t, g) := by
    simp [mkTagGenOO, TagGenOO.tagResponse, hd₁]
  obtain ⟨g, hresp⟩ := hresp
  exact ⟨_, _, g, t, [], hreq, .single .tagRequestRule hrule, hresp⟩

/-- So does the in-order generator. -/
lemma serves_mkTagGenIO (numClients : ℕ) (client : Fin numClients) (origTag : BitVec 6) :
    TagGen.Serves ( mkTagGenIO numClients) Fifo.empty client origTag := by
  obtain ⟨q, he, hi⟩ := Fifo.exists_enq (q := (Fifo.empty : Fifo sglPipelineDepth (Fin numClients)))
    (by decide : 0 < 9) client
  obtain ⟨q', hd, -⟩ := Fifo.exists_deq hi
  exact ⟨q, q, q', client, [], he, .refl, hd⟩

/-- Tables with no region at all. -/
def noRegions : Tables := ⟨fun _ => ⟨0, 0⟩, fun _ => ⟨0, 0⟩, fun _ => ⟨0, 0⟩, fun _ => 0⟩

/-- A request for four bytes at offset `0x1000` of object 0. -/
def strayRequest : ObjectRequest := ⟨0, 0x1000, 4, 3⟩

/-- With these tables, and with the renaming generator, the request is not kept from the memory. -/
theorem unmapped_notHanded_iff_stray :
    noRegions.mapped (FrontEnd.reqTup strayRequest) = false ∧
      ¬ ∀ tr p, ((memRead 4 (addrServer 0) (mkTagGenOO 1 2)).behind
          (unmappedRules (fun _ _ => 0) 0 (FrontEnd.reqTup strayRequest))).Reaches
          (SGList.State.reset 40 noRegions, .reset (.reset 1 2)) tr p →
        ∀ r m, .readReq r m ∈ tr → r.toLRec ≠ ⟨strayRequest, 0⟩ := by
  refine ⟨by decide, ?_⟩
  rw [(unmapped_notHanded_iff (fun _ _ => 0) (mkTagGenOO 1 2) (fun _ _ => ⟨0, 0, false⟩) (by decide)
    (serves_mkTagGenOO 1 (by decide) 0 3)).1]
  decide

/-- The steps that hand the request over; `i` is the port of the unit. -/
def strayActions (i : Fin 2) : List (FrontEnd.Action TagGenOO.Rule 1 ⊕ SGList.Action) :=
  [.inl (.loadClient 0 strayRequest), .inl (.tagRule .tagRequestRule), .inr (.stage1 i),
    .inr (.stage2 i), .inr (.stage3 i), .inr (.stage4 i), .inr (.stage5 i), .inl .checkSglResp]

/-- A read of the request, the compiler having put `0xdead000` where the address is not assigned. -/
def strayRead :=
  ((memRead 4 (addrServer 0) (mkTagGenOO 1 2)).behind
    (unmappedRules (fun _ _ => 0xdead000) 0 (FrontEnd.reqTup strayRequest))).run
    (SGList.State.reset 40 noRegions, .reset (.reset 1 2))
    ((strayActions 0).map (Sum.map .front id) ++ [.inl .readReq])

/-- A write of the request. -/
def strayWrite :=
  ((memWrite (addrServer 1) (mkTagGenOO 1 2) fun _ _ => (⟨0, 0, false⟩ : ObjectData (4 * 8))).behind
    (unmappedRules (fun _ _ => 0xdead000) 1 (FrontEnd.reqTup strayRequest))).run
    (SGList.State.reset 40 noRegions, .reset (.reset 1 2))
    ((strayActions 1).map (Sum.map .front id) ++ [.inl .writeReq])

/-- **A stray access.** No region covers the request and its lookup is reported as an error, and yet
the memory gets it, to be read or written at the address that is not assigned. -/
theorem not_notHanded_stray :
    noRegions.mapped (FrontEnd.reqTup strayRequest) = false ∧
      lookupError noRegions (FrontEnd.reqTup strayRequest) = some ⟨.badAddrTrans, 0⟩ ∧
      ((memRead 4 (addrServer 0) (mkTagGenOO 1 2)).behind
        (unmappedRules (fun _ _ => 0xdead000) 0 (FrontEnd.reqTup strayRequest))).Reaches
        (SGList.State.reset 40 noRegions, .reset (.reset 1 2)) strayRead.2 strayRead.1 ∧
      .readReq ⟨strayRequest, 0xdead000, 0, 0⟩ ⟨0xdead000, 4, 0⟩ ∈ strayRead.2 ∧
      ((memWrite (addrServer 1) (mkTagGenOO 1 2) fun _ _ => ⟨0, 0, false⟩).behind
        (unmappedRules (fun _ _ => 0xdead000) 1 (FrontEnd.reqTup strayRequest))).Reaches
        (SGList.State.reset 40 noRegions, .reset (.reset 1 2)) strayWrite.2 strayWrite.1 ∧
      .writeReq ⟨strayRequest, 0xdead000, 0, 0⟩ ⟨0xdead000, 4, 0⟩ ∈ strayWrite.2 := by
  refine ⟨by decide, by decide, RuleSystem.reaches_run _ _, ?_, RuleSystem.reaches_run _ _, ?_⟩
  all_goals decide +kernel

end Xbsv
