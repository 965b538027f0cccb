import Xbsv.Dma.MemRead
import Xbsv.Dma.WriteRouting

set_option relaxedAutoImplicit false
set_option autoImplicit false

/-!
# The use counts of rename tags

`mkTagGenOO` counts the uses of a rename tag in a register of five bits, up in `tag_response` and down
in `return_tag_rule`. Its guard against the largest value stands in `tag_request_rule`, and up to nine
requests may wait between that rule and `tag_response`. The queues of the read and of the write module
hold more than 31 requests of one tag, so a count may come round to zero while the tag is in use.

The requests of a tag that have been counted up and not down are in one of a few queues, whatever the
memory answers. As long as those queues hold fewer than 31 of them whenever a tag is given out, the
counts are exact.

## Main definitions

* `Xbsv.CountsExact` — the counts are exact, and a tag in use is not given to another request.
* `Xbsv.MemRead.inFlight`, `Xbsv.MemWrite.inFlight` — the requests of a tag in the queues.
* `Xbsv.MemRead.roomy`, `Xbsv.MemWrite.roomy` — the steps that leave room in a count.

## Main results

* `Xbsv.countsExact_of_roomy` — along runs of such steps the counts are exact.
* `Xbsv.not_countsExact_full` — a run in which a count comes round.
-/

namespace Xbsv

open Rules SGList

variable {σ κ ε ι δ : Type} {numClients numTags addrWidth dataWidthBytes : ℕ}

/-! ## Counting in a trace -/

namespace FrontEnd

/-- A `checked` event that took the tag `t`. -/
def Event.gives (t : Fin numTags) : Event ε numClients numTags addrWidth → Bool
  | .checked r => r.renameTag = t
  | _ => false

/-- How often `tag_response` returned `t`. -/
def given (t : Fin numTags) (fs : List (Event (Fin numTags) numClients numTags addrWidth)) : ℕ :=
  fs.countP (Event.gives t)

/-- How many returns of `t` the rule `return_tag_rule` has processed. -/
def processed (t : Fin numTags) (fs : List (Event (Fin numTags) numClients numTags addrWidth)) : ℕ :=
  fs.count (.tag t)

end FrontEnd

/-- **The counts are exact**: the unsigned value of a count is the number of times that its tag was given
minus the number of its returns processed. While a tag has requests outstanding its count is not
zero, it is not offered as free, and it has an entry in the map. -/
structure CountsExact (fs : List (FrontEnd.Event (Fin numTags) numClients numTags addrWidth))
    (g : TagGenOO numClients numTags) : Prop where
  exact : ∀ t, (g.tagRegs t).toNat + FrontEnd.processed t fs = FrontEnd.given t fs
  held : ∀ t, FrontEnd.processed t fs < FrontEnd.given t fs →
    g.tagRegs t ≠ 0 ∧ g.nextFree ≠ some t ∧ (g.clientMap t).isSome

/-! ## The front end -/

namespace FrontEnd

/-- The requests of tag `t` in `reqFifo` and the returns of `t` waiting in the generator. -/
def inFlight (f : FrontEnd (TagGenOO numClients numTags) numClients numTags addrWidth)
    (t : Fin numTags) : ℕ :=
  f.reqFifo.items.countP (fun r => r.renameTag = t) + f.tagGen.returnFifo.items.count t

/-- The invariant, with the number `n t` of requests of tag `t` that the module holds behind its front
end. -/
structure Counted (fs : List (Event (Fin numTags) numClients numTags addrWidth))
    (f : FrontEnd (TagGenOO numClients numTags) numClients numTags addrWidth) (n : Fin numTags → ℕ) :
    Prop where
  exact : ∀ t, (f.tagGen.tagRegs t).toNat + processed t fs = given t fs
  flow : ∀ t, processed t fs + (f.inFlight t + n t) = given t fs
  valid : ∀ t, f.tagGen.tagRegs t ≠ 0 → (f.tagGen.clientMap t).isSome

section Counted

variable {sgl : Server σ ReqTup (BitVec addrWidth)} {errorType : DmaErrorType} {w w' : σ}
  {f f' : FrontEnd (TagGenOO numClients numTags) numClients numTags addrWidth}
  {a : Action TagGenOO.Rule numClients}
  {fs es : List (Event (Fin numTags) numClients numTags addrWidth)} {n n' : Fin numTags → ℕ}

/-- After reset no tag is in use. -/
lemma counted_reset :
    Counted ([] : List (Event (Fin numTags) numClients numTags addrWidth))
      (.reset (.reset numClients numTags)) (fun _ => 0) where
  exact _ := rfl
  flow _ := rfl
  valid _ h := absurd rfl h

namespace Counted

/-- What the invariant is for. -/
lemma countsExact (h : Counted fs f n) : CountsExact fs f.tagGen := by
  refine ⟨h.exact, fun t ht => ?_⟩
  have hne : f.tagGen.tagRegs t ≠ 0 := by
    intro hz
    have hx := h.exact t
    rw [hz] at hx
    have hx' : 0 + processed t fs = given t fs := hx
    omega
  refine ⟨hne, fun hfree => ?_, h.valid t hne⟩
  exact hne (eq_of_findElem hfree)

/-- Steps that do not touch the counts, the map, the returns or `reqFifo`. -/
lemma frame (h : Counted fs f n) (hg : ∀ t, given t es = 0) (hp : ∀ t, processed t es = 0)
    (hr : f'.tagGen.tagRegs = f.tagGen.tagRegs) (hm : f'.tagGen.clientMap = f.tagGen.clientMap)
    (hq : f'.tagGen.returnFifo = f.tagGen.returnFifo) (hreq : f'.reqFifo = f.reqFifo) :
    Counted (fs ++ es) f' n := by
  have hg' : ∀ t, given t (fs ++ es) = given t fs := by
    intro t
    rw [given, List.countP_append, ← given, ← given, hg, Nat.add_zero]
  have hp' : ∀ t, processed t (fs ++ es) = processed t fs := by
    intro t
    rw [processed, List.count_append, ← processed, ← processed, hp, Nat.add_zero]
  refine ⟨?_, ?_, ?_⟩
  · intro t
    rw [hr, hg', hp']
    exact h.exact t
  · intro t
    rw [hg', hp', inFlight, hreq, hq]
    exact h.flow t
  · intro t
    rw [hr, hm]
    exact h.valid t

/-- A tag is given out, while the queues hold fewer than 31 requests of it. -/
lemma give (h : Counted fs f n) {t : Fin numTags} (hroom : f.inFlight t + n t < 31)
    {x : Fin numClients × BitVec 6} {r : RRec numClients numTags addrWidth}
    (hr : r.renameTag = t) (hregs : f'.tagGen.tagRegs =
      Function.update f.tagGen.tagRegs t (f.tagGen.tagRegs t + 1))
    (hmap : f'.tagGen.clientMap = Function.update f.tagGen.clientMap t (some x))
    (hq : f'.tagGen.returnFifo = f.tagGen.returnFifo)
    (hreq : f'.reqFifo.items = f.reqFifo.items ++ [r]) : Counted (fs ++ [Event.checked r]) f' n := by
  have hg : ∀ t', given t' (fs ++ [Event.checked r]) = given t' fs + if t' = t then 1 else 0 := by
    intro t'
    rw [given, List.countP_append, List.countP_singleton]
    by_cases ht : t' = t
    · simp [given, Event.gives, ht, hr]
    · simp [given, Event.gives, ht, hr, Ne.symm ht]
  have hp : ∀ t', processed t' (fs ++ [Event.checked r]) = processed t' fs := by
    intro t'
    rw [processed, List.count_append, List.count_singleton, if_neg (by simp), Nat.add_zero,
      processed]
  have hbelow : f.tagGen.tagRegs t ≠ BitVec.allOnes 5 := by
    intro hmax
    have hx := h.exact t
    have hf := h.flow t
    rw [hmax] at hx
    have hx' : 31 + processed t fs = given t fs := hx
    omega
  refine ⟨?_, ?_, ?_⟩
  · intro t'
    rw [hg, hp, hregs, ← h.exact t']
    by_cases ht : t' = t
    · subst ht
      rw [Function.update_self, TagGenOO.toNat_add_one hbelow, if_pos rfl]
      omega
    · rw [Function.update_of_ne ht, if_neg ht]
      omega
  · intro t'
    rw [hg, hp, ← h.flow t', inFlight, inFlight, hreq, hq, List.countP_append,
      List.countP_singleton, hr]
    by_cases ht : t' = t
    · subst ht
      simp
      omega
    · simp [ht, Ne.symm ht]
  · intro t' hne
    rw [hmap]
    by_cases ht : t' = t
    · subst ht
      rw [Function.update_self]
      rfl
    · rw [hregs, Function.update_of_ne ht] at hne
      rw [Function.update_of_ne ht]
      exact h.valid t' hne

/-- A return is processed: the tag is in use, so its count is not zero. -/
lemma process (h : Counted fs f n) {t : Fin numTags} {q : Fifo 2 (Fin numTags)}
    (hd : f.tagGen.returnFifo.items = t :: q.items)
    (hregs : f'.tagGen.tagRegs = Function.update f.tagGen.tagRegs t (f.tagGen.tagRegs t - 1))
    (hmap : f'.tagGen.clientMap = if f.tagGen.tagRegs t = 1 then
      Function.update f.tagGen.clientMap t none else f.tagGen.clientMap)
    (hq : f'.tagGen.returnFifo = q) (hreq : f'.reqFifo = f.reqFifo) :
    Counted (fs ++ [Event.tag t]) f' n := by
  have hg : ∀ t', given t' (fs ++ [Event.tag t]) = given t' fs := by
    intro t'
    simp [given, Event.gives]
  have hp : ∀ t', processed t' (fs ++ [Event.tag t]) = processed t' fs + if t' = t then 1 else 0 := by
    intro t'
    rw [processed, List.count_append, List.count_singleton]
    by_cases ht : t' = t
    · simp [processed, ht]
    · simp [processed, ht, Ne.symm ht]
  have hcount : f.tagGen.returnFifo.items.count t = q.items.count t + 1 := by
    rw [hd, List.count_cons_self]
  have hpos : 0 < (f.tagGen.tagRegs t).toNat := by
    have hx := h.exact t
    have hf := h.flow t
    rw [inFlight, hcount] at hf
    omega
  refine ⟨?_, ?_, ?_⟩
  · intro t'
    rw [hg, hp, hregs, ← h.exact t']
    by_cases ht : t' = t
    · subst ht
      rw [Function.update_self, TagGenOO.toNat_sub_one hpos, if_pos rfl]
      omega
    · rw [Function.update_of_ne ht, if_neg ht]
      omega
  · intro t'
    rw [hg, hp, ← h.flow t', inFlight, inFlight, hreq, hq]
    by_cases ht : t' = t
    · subst ht
      rw [hcount, if_pos rfl]
      omega
    · rw [hd, List.count_cons_of_ne (Ne.symm ht), if_neg ht]
      omega
  · intro t' hne
    rw [hregs] at hne
    -- a count that is not zero now was neither zero nor one before
    have hbefore : f.tagGen.tagRegs t' ≠ 0 ∧ (t' = t → f.tagGen.tagRegs t ≠ 1) := by
      by_cases ht : t' = t
      · subst ht
        rw [Function.update_self] at hne
        refine ⟨fun hz => ?_, fun _ h1 => ?_⟩
        · rw [hz] at hpos
          exact absurd hpos (by decide)
        · rw [h1] at hne
          exact hne rfl
      · rw [Function.update_of_ne ht] at hne
        exact ⟨hne, fun ht' => absurd ht' ht⟩
    obtain ⟨x, hx⟩ := Option.isSome_iff_exists.mp (h.valid t' hbefore.1)
    rw [hmap, TagGenOO.returned_eq_some.mpr ⟨hx, hbefore.2⟩]
    rfl

/-- A step of the front end. A tag is given out only where there is room. -/
lemma fires (h : Counted fs f n)
    (hroom : a = .checkSglResp → ∀ e ∈ f.tagGen.requestFifo1.items.head?,
      f.inFlight e.1 + n e.1 < 31)
    (hf : Fires sgl (mkTagGenOO numClients numTags) errorType w f a w' f' es) :
    Counted (fs ++ es) f' n := by
  cases hf with
  | reject bad enq =>
    exact h.frame (fun _ => rfl) (fun _ => by simp [processed]) rfl rfl rfl rfl
  | accept good tag enq put =>
    obtain ⟨q, -, rfl⟩ := TagGenOO.tagRequest_eq_some tag
    exact h.frame (fun _ => rfl) (fun _ => by simp [processed]) rfl rfl rfl rfl
  | @checked r g w' lreqs reqs get tag deq enq =>
    obtain ⟨x, q, hq, rfl⟩ := TagGenOO.tagResponse_eq_some tag
    refine h.give (hroom rfl (r.renameTag, x) (by rw [hq]; rfl)) rfl rfl rfl rfl enq
  | dmaError deq =>
    exact h.frame (fun _ => rfl) (fun _ => by simp [processed]) rfl rfl rfl rfl
  | @tagRule k g es' step =>
    cases k with
    | returnTagRule =>
      simp only [mkTagGenOO, bind, pure, Option.bind_eq_some_iff, Prod.exists, Option.some.injEq,
        Prod.mk.injEq] at step
      obtain ⟨t, g', hg, rfl, rfl⟩ := step
      obtain ⟨q, hq, rfl⟩ := TagGenOO.returnTagRule_eq_some hg
      exact h.process hq rfl rfl rfl rfl
    | tagRequestRule =>
      simp only [mkTagGenOO, bind, pure, Option.bind_eq_some_iff, Option.some.injEq,
        Prod.mk.injEq] at step
      obtain ⟨g', hg, rfl, rfl⟩ := step
      obtain ⟨found, x, t, q₀, q₁, -, -, -, rfl⟩ := TagGenOO.tagRequestRule_eq_some hg
      exact h.frame (fun _ => rfl) (fun _ => rfl) rfl rfl rfl rfl

/-- A request is handed to the memory: it goes from `reqFifo` to the queues behind. -/
lemma hand (h : Counted fs f n) {r : RRec numClients numTags addrWidth}
    {reqs : Fifo 2 (RRec numClients numTags addrWidth)} (hd : f.reqFifo.items = r :: reqs.items)
    (hn : ∀ t, n' t = n t + if r.renameTag = t then 1 else 0) :
    Counted fs { f with reqFifo := reqs } n' := by
  refine ⟨h.exact, ?_, h.valid⟩
  intro t
  have hf := h.flow t
  rw [inFlight, hd, List.countP_cons] at hf
  show processed t fs + (reqs.items.countP (fun r => r.renameTag = t) +
    f.tagGen.returnFifo.items.count t + n' t) = given t fs
  rw [hn]
  by_cases ht : r.renameTag = t
  · simp only [ht, if_true, decide_true] at hf ⊢
    omega
  · simp only [ht, if_false, decide_false] at hf ⊢
    simpa using hf

/-- A tag is returned: its request goes from the queues behind to the returns. -/
lemma giveBack (h : Counted fs f n) {t : Fin numTags} {g : TagGenOO numClients numTags}
    (hg : f.tagGen.returnTag t = some g) (hn : ∀ t', n t' = n' t' + if t = t' then 1 else 0) :
    Counted fs { f with tagGen := g } n' := by
  obtain ⟨q, hq, rfl⟩ := TagGenOO.returnTag_eq_some hg
  refine ⟨h.exact, ?_, h.valid⟩
  intro t'
  have hf := h.flow t'
  rw [inFlight, hn] at hf
  show processed t' fs + (f.reqFifo.items.countP (fun r => r.renameTag = t') +
    q.items.count t' + n' t') = given t' fs
  rw [hq, List.count_append, List.count_singleton]
  by_cases ht : t = t'
  · subst ht
    rw [if_pos rfl] at hf
    rw [if_pos (beq_self_eq_true t)]
    omega
  · rw [if_neg ht] at hf
    rw [if_neg (by simpa using ht)]
    omega

end Counted

end Counted

end FrontEnd

/-! ## The read module -/

namespace MemRead

/-- The events of the front end. -/
def Event.front? : Event ε numClients numTags addrWidth dataWidthBytes →
    Option (FrontEnd.Event ε numClients numTags addrWidth)
  | .front e => some e
  | _ => none

/-- The requests of tag `t` in `reqFifo` and `dreqFifos`, and its returns not processed yet. -/
def inFlight (s : MemRead (TagGenOO numClients numTags) numClients numTags addrWidth dataWidthBytes)
    (t : Fin numTags) : ℕ :=
  s.front.inFlight t + (s.dreqFifos t).items.length

/-- A step that leaves room: `checkSglResp` takes a tag only while fewer than 31 of its requests are in
the queues. -/
def roomy (s : MemRead (TagGenOO numClients numTags) numClients numTags addrWidth dataWidthBytes) :
    Action TagGenOO.Rule numClients dataWidthBytes → Bool
  | .front .checkSglResp =>
    s.front.tagGen.requestFifo1.items.head?.all fun e => s.inFlight e.1 < 31
  | _ => true

variable {sgl : Server σ ReqTup (BitVec addrWidth)} {w w' : σ}
  {s s' : MemRead (TagGenOO numClients numTags) numClients numTags addrWidth dataWidthBytes}
  {a : Action TagGenOO.Rule numClients dataWidthBytes}
  {tr es : List (Event (Fin numTags) numClients numTags addrWidth dataWidthBytes)}

/-- A step that leaves room keeps the counts exact, whatever the memory answers. -/
lemma counted_step (h : s.front.Counted (tr.filterMap Event.front?)
      fun t => (s.dreqFifos t).items.length) (hroom : s.roomy a)
    (hf : Fires sgl (mkTagGenOO numClients numTags) w s a w' s' es) :
    s'.front.Counted ((tr ++ es).filterMap Event.front?)
      fun t => (s'.dreqFifos t).items.length := by
  rw [List.filterMap_append]
  cases hf with
  | @front a w' front es fires =>
    rw [List.filterMap_map, show Event.front? ∘ Event.front = some from rfl, List.filterMap_some]
    refine h.fires ?_ fires
    rintro rfl e he
    have hr : (s.front.tagGen.requestFifo1.items.head?.all
        fun e => s.inFlight e.1 < 31) = true := hroom
    rw [he] at hr
    exact of_decide_eq_true hr
  | @readReq r reqs dreqs deq enq =>
    refine (List.append_nil _).symm ▸ h.hand deq fun t => ?_
    by_cases ht : r.renameTag = t
    · subst ht
      simp [enq]
    · simp [ht, Function.update_of_ne (Ne.symm ht)]
  | readData enq => exact (List.append_nil _).symm ▸ h
  | beat deq index first enq last => exact (List.append_nil _).symm ▸ h
  | @lastBeat d t drq responses dreqs g pipe deq index first enq last ret =>
    refine (List.append_nil _).symm ▸ h.giveBack ret fun t' => ?_
    by_cases ht : t = t'
    · subst ht
      simp [first]
    · simp [ht, Function.update_of_ne (Ne.symm ht)]
  | deliver deq => exact (List.append_nil _).symm ▸ h

end MemRead

/-! ## The write module -/

namespace MemWrite

/-- The events of the front end. -/
def Event.front? : Event ε numClients numTags addrWidth dataWidthBytes →
    Option (FrontEnd.Event ε numClients numTags addrWidth)
  | .front e => some e
  | _ => none

/-- The requests of tag `t` behind the front end: those whose data has not begun, those that wait for
their acknowledgement, and those acknowledged by the memory. -/
def behindFront (s : MemWrite (TagGenOO numClients numTags) numClients numTags addrWidth)
    (t : Fin numTags) : ℕ :=
  (s.unstarted t).length + (s.respFifos t).items.length +
    s.writeDonePipelineFifo.items.countP fun x => tagIndex numTags x.2 = some t

/-- The requests of tag `t` in the queues, and its returns not processed yet. -/
def inFlight (s : MemWrite (TagGenOO numClients numTags) numClients numTags addrWidth)
    (t : Fin numTags) : ℕ :=
  s.front.inFlight t + s.behindFront t

/-- A step that leaves room: `checkSglResp` takes a tag only while fewer than 31 of its requests are in
the queues. -/
def roomy (s : MemWrite (TagGenOO numClients numTags) numClients numTags addrWidth) :
    Action TagGenOO.Rule numClients → Bool
  | .front .checkSglResp =>
    s.front.tagGen.requestFifo1.items.head?.all fun e => s.inFlight e.1 < 31
  | _ => true

variable {sgl : Server σ ReqTup (BitVec addrWidth)} {w w' : σ}
  {stream : Fin numClients → ℕ → ObjectData (dataWidthBytes * 8)}
  {s s' : MemWrite (TagGenOO numClients numTags) numClients numTags addrWidth}
  {a : Action TagGenOO.Rule numClients}
  {tr es : List (Event (Fin numTags) numClients numTags addrWidth dataWidthBytes)}

/-- A step that leaves room keeps the counts exact, whatever the memory answers. -/
lemma counted_step (h : s.front.Counted (tr.filterMap Event.front?) s.behindFront)
    (hu : s.burstReg ≠ 0 → s.dreqFifo.items ≠ []) (hroom : s.roomy a)
    (hf : Fires sgl (mkTagGenOO numClients numTags) stream w s a w' s' es) :
    s'.front.Counted ((tr ++ es).filterMap Event.front?) s'.behindFront := by
  rw [List.filterMap_append]
  cases hf with
  | @front a w' front es fires =>
    rw [List.filterMap_map, show Event.front? ∘ Event.front = some from rfl, List.filterMap_some]
    refine h.fires ?_ fires
    rintro rfl e he
    have hr : (s.front.tagGen.requestFifo1.items.head?.all
        fun e => s.inFlight e.1 < 31) = true := hroom
    rw [he] at hr
    exact of_decide_eq_true hr
  | @writeReq r reqs dreqs deq enq =>
    refine (List.append_nil _).symm ▸ h.hand deq fun t => ?_
    unfold behindFront
    rw [unstarted_writeReq hu enq reqs t]
    by_cases ht : r.renameTag = t
    · simp [toDRec, ht]
      omega
    · simp [toDRec, ht]
  | @writeData drq rest resps dreqs first resp deq =>
    refine (List.append_nil _).symm ▸ ?_
    have hsame : (s.afterBeat dataWidthBytes drq resps dreqs).behindFront = s.behindFront := by
      funext t
      unfold behindFront
      rw [unstarted_afterBeat first resps deq]
      show _ + (resps t).items.length + _ = _
      rw [resp t, List.length_append, List.length_append]
      by_cases ht : s.burstReg = 0 ∧ drq.renameTag = t
      · rw [if_pos ht]
        simp only [List.length_singleton, afterBeat]
        omega
      · rw [if_neg ht]
        simp only [List.length_nil, afterBeat]
        omega
    rw [hsame]
    exact h
  | @writeDone resp t rresp resps pipe index deq enq =>
    refine (List.append_nil _).symm ▸ ?_
    have hsame : behindFront
        { s with
          writeDonePipelineFifo := pipe
          respFifos := Function.update s.respFifos t resps } = s.behindFront := by
      funext t'
      show (s.unstarted t').length + (Function.update s.respFifos t resps t').items.length +
        pipe.items.countP (fun x => tagIndex numTags x.2 = some t') = s.behindFront t'
      rw [enq, List.countP_append, List.countP_singleton, index]
      unfold behindFront
      by_cases ht : t = t'
      · subst ht
        rw [Function.update_self, deq]
        simp
        omega
      · rw [Function.update_of_ne (Ne.symm ht)]
        simp [ht]
    rw [hsame]
    exact h
  | @writeDoneComp resp t rresp pipe g deq index ret =>
    refine (List.append_nil _).symm ▸ h.giveBack ret fun t' => ?_
    show s.behindFront t' = (s.unstarted t').length + (s.respFifos t').items.length +
      pipe.items.countP (fun x => tagIndex numTags x.2 = some t') + _
    unfold behindFront
    rw [deq, List.countP_cons]
    by_cases ht : t = t'
    · subst ht
      simp [index]
      omega
    · simp [index, ht]

end MemWrite

/-! ## Runs -/

/-- **Use counts are exact while there is room.** In every run of the read or of the write module with the
renaming generator, whatever its address server and the memory do, in which `checkSglResp` takes a tag
only while fewer than 31 requests of that tag are in the queues: the counts are exact, and a tag with
an outstanding request is neither free nor without an entry in the map. -/
theorem countsExact_of_roomy (numClients numTags : ℕ) (sgl : Server σ ReqTup (BitVec addrWidth))
    (env : RuleSystem σ ι δ) (stream : Fin numClients → ℕ → ObjectData (dataWidthBytes * 8))
    (w₀ : σ) :
    (∀ tr p, (((memRead dataWidthBytes sgl (mkTagGenOO numClients numTags)).guard
          fun p a => p.2.roomy a).behind env).Reaches
          (w₀, .reset (.reset numClients numTags)) tr p →
        CountsExact (tr.filterMap MemRead.Event.front?) p.2.front.tagGen) ∧
    (∀ tr p, (((memWrite sgl (mkTagGenOO numClients numTags) stream).guard
          fun p a => p.2.roomy a).behind env).Reaches
          (w₀, .reset (.reset numClients numTags)) tr p →
        CountsExact (tr.filterMap MemWrite.Event.front?) p.2.front.tagGen) := by
  refine ⟨fun tr p h => ?_, fun tr p h => ?_⟩
  · refine FrontEnd.Counted.countsExact (n := fun t => (p.2.dreqFifos t).items.length) ?_
    refine h.invariant_behind (I := fun tr s => s.front.Counted (tr.filterMap MemRead.Event.front?)
      fun t => (s.dreqFifos t).items.length) FrontEnd.counted_reset ?_
    intro tr w s a w' s' es ih hs
    obtain ⟨hroom, hstep⟩ := RuleSystem.guard_step.mp hs
    exact MemRead.counted_step ih hroom (MemRead.fires_of_step hstep)
  · refine FrontEnd.Counted.countsExact (n := p.2.behindFront) ?_
    refine (h.invariant_behind (I := fun tr s =>
      s.front.Counted (tr.filterMap MemWrite.Event.front?) s.behindFront ∧
        (s.burstReg ≠ 0 → s.dreqFifo.items ≠ [])) ⟨FrontEnd.counted_reset, fun h => absurd rfl h⟩
      ?_).1
    intro tr w s a w' s' es ⟨ih, hu⟩ hs
    obtain ⟨hroom, hstep⟩ := RuleSystem.guard_step.mp hs
    have hf := MemWrite.fires_of_step hstep
    exact ⟨MemWrite.counted_step ih hu hroom hf, hf.underWay hu⟩

/-- A read module with the renaming generator, and with an address server that answers every request
with its offset. -/
def countedReads :=
  memRead 4 (Server.queue 9 fun r : ReqTup => r.off) (mkTagGenOO 1 2)

/-- A four-byte request under tag 5. -/
def fourBytes : ObjectRequest := ⟨0, 0x10, 4, 5⟩

/-- Two reads under one tag, of which the first is answered. -/
def roomyRead :=
  ((countedReads.guard fun p a => p.2.roomy a).behind (RuleSystem.noRules _)).run
    (Fifo.empty, .reset (.reset 1 2))
    [.inl (.front (.loadClient 0 fourBytes)), .inl (.front (.tagRule .tagRequestRule)),
      .inl (.front .checkSglResp), .inl .readReq, .inl (.front (.loadClient 0 fourBytes)),
      .inl (.front (.tagRule .tagRequestRule)), .inl (.front .checkSglResp), .inl .readReq,
      .inl (.readData ⟨0xa, 0, true⟩), .inl .readClientResponse,
      .inl (.front (.tagRule .returnTagRule))]

/-- One request is outstanding then, under tag 0. -/
theorem countsExact_of_roomy_twoReads :
    CountsExact (roomyRead.2.filterMap MemRead.Event.front?) roomyRead.1.2.front.tagGen ∧
      roomyRead.1.2.front.tagGen.tagRegs 0 = 1 ∧
      FrontEnd.given 0 (roomyRead.2.filterMap MemRead.Event.front?) = 2 ∧
      FrontEnd.processed 0 (roomyRead.2.filterMap MemRead.Event.front?) = 1 := by
  refine ⟨?_, by decide +kernel, by decide +kernel, by decide +kernel⟩
  exact (countsExact_of_roomy 1 2 _ _ (fun _ _ => (⟨0, 0, false⟩ : ObjectData (4 * 8))) _).1 _ _
    (RuleSystem.reaches_run _ _)

/-- Thirty-two requests of one client under one tag; the first thirty are handed to the memory (`hand`),
which answers none, and the last two are granted their tag together. -/
def fillActions {A : Type} (front : FrontEnd.Action TagGenOO.Rule 1 → A) (hand : A) : List A :=
  (List.replicate 30 [front (.loadClient 0 fourBytes), front (.tagRule .tagRequestRule),
      front .checkSglResp, hand]).flatten ++
    [front (.loadClient 0 fourBytes), front (.loadClient 0 fourBytes),
      front (.tagRule .tagRequestRule), front (.tagRule .tagRequestRule), front .checkSglResp,
      front .checkSglResp]

/-- The run of the read module. -/
def fullRead := countedReads.run (Fifo.empty, .reset (.reset 1 2)) (fillActions .front .readReq)

/-- The write module with the same address server and generator. -/
def countedWrites :=
  memWrite (Server.queue 9 fun r : ReqTup => r.off) (mkTagGenOO 1 2) fun _ _ =>
    (⟨0, 0, false⟩ : ObjectData (4 * 8))

/-- The run of the write module. -/
def fullWrite := countedWrites.run (Fifo.empty, .reset (.reset 1 2)) (fillActions .front .writeReq)

/-- **A count comes round.** After these runs tag 0 has 32 requests outstanding, its count is zero and it
is offered as free. -/
theorem not_countsExact_full :
    countedReads.Reaches (Fifo.empty, .reset (.reset 1 2)) fullRead.2 fullRead.1 ∧
      FrontEnd.given 0 (fullRead.2.filterMap MemRead.Event.front?) = 32 ∧
      FrontEnd.processed 0 (fullRead.2.filterMap MemRead.Event.front?) = 0 ∧
      fullRead.1.2.front.tagGen.tagRegs 0 = 0 ∧
      fullRead.1.2.front.tagGen.nextFree = some 0 ∧
      ¬ CountsExact (fullRead.2.filterMap MemRead.Event.front?) fullRead.1.2.front.tagGen ∧
      countedWrites.Reaches (Fifo.empty, .reset (.reset 1 2)) fullWrite.2 fullWrite.1 ∧
      ¬ CountsExact (fullWrite.2.filterMap MemWrite.Event.front?) fullWrite.1.2.front.tagGen := by
  have hread : fullRead.1.2.front.tagGen.tagRegs 0 = 0 := by decide +kernel
  have hwrite : fullWrite.1.2.front.tagGen.tagRegs 0 = 0 := by decide +kernel
  refine ⟨RuleSystem.reaches_run _ _, by decide +kernel, by decide +kernel, hread,
    by decide +kernel, fun h => ?_, RuleSystem.reaches_run _ _, fun h => ?_⟩
  · exact (h.held 0 (by decide +kernel)).1 hread
  · exact (h.held 0 (by decide +kernel)).1 hwrite

end Xbsv
