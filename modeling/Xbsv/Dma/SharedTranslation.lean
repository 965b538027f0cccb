import Mathlib.Data.List.Infix
import Xbsv.Dma.Arbiter

set_option relaxedAutoImplicit false
set_option autoImplicit false

/-!
# Sharing an address server

In a memory server the masters and the software share one address server. `mkSglAddrServer` gives
out responses to the masters by its token queue, which holds no token for a request of the software:
`addrRequest` and `sglistEntry` go to the address server directly. A response therefore reaches the
one who asked for it only if requests of the software and requests of the masters are never under
way together.

The proof follows the list of all requests under way, oldest first, each with the one who made it.

## Main definitions

* `Xbsv.ConfigServer.NotStolen` — responses are taken by those who asked for them.
* `Xbsv.ConfigServer.separate` — a step that does not mix requests of the software with requests of
  the masters.
* `Xbsv.ConfigServer.Outstanding` — the requests under way.

## Main results

* `Xbsv.notStolen_of_separate` — in runs of such steps no response is stolen.
* `Xbsv.not_notStolen_mixed` — a run in which the software takes the translation of a master.
-/

namespace Xbsv

open Rules SGList

namespace ConfigServer

variable {S A E : Type} {addrWidth n : ℕ}

/-! ## Who asks and who takes -/

/-- A request put to the address server, with the master that made it; `none` is the software. -/
def Event.asked? (asked : E → Option ReqTup) :
    Event E addrWidth n → Option (Option (Fin n) × ReqTup)
  | .master i e => (asked e).map fun req => (some i, req)
  | .addrRequest req => some (none, req)
  | _ => none

/-- A response taken from the address server, with the master that took it and the request that it
took it for; `none` is the software. -/
def Event.taken? (taken : E → Option (ReqTup × BitVec addrWidth)) :
    Event E addrWidth n → Option (Option (Fin n × ReqTup) × BitVec addrWidth)
  | .master i e => (taken e).map fun x => (some (i, x.1), x.2)
  | .addrResponse addr => some (none, addr)
  | _ => none

/-- A request of the software. -/
def Event.addrRequest? : Event E addrWidth n → Option ReqTup
  | .addrRequest req => some req
  | _ => none

/-- A response to the software. -/
def Event.addrResponse? : Event E addrWidth n → Option (BitVec addrWidth)
  | .addrResponse addr => some addr
  | _ => none

/-- A configuration call. -/
def Event.isConfig : Event E addrWidth n → Bool
  | .config _ _ => true
  | _ => false

/-- Who takes the response to a request: a master for that request, or the software. -/
def asker (x : Option (Fin n) × ReqTup) : Option (Fin n × ReqTup) := x.1.map fun i => (i, x.2)

/-- **No response is stolen.** Responses are taken by those who made the requests, in the order of the
requests; and while the configuration does not change, every address that a master takes is the
translation of the request it takes it for, and the addresses that the software takes are the
translations of its requests, in order. -/
structure NotStolen (undef : Page → Offset → BitVec 40) (t : Tables) (asked : E → Option ReqTup)
    (taken : E → Option (ReqTup × BitVec addrWidth)) (tr : List (Event E addrWidth n)) : Prop where
  matched : (tr.filterMap (Event.taken? taken)).map Prod.fst <+:
    (tr.filterMap (Event.asked? asked)).map asker
  masters : (∀ e ∈ tr, e.isConfig = false) → ∀ i e req addr, .master i e ∈ tr →
    taken e = some (req, addr) → addr = translate undef t req
  software : (∀ e ∈ tr, e.isConfig = false) →
    tr.filterMap Event.addrResponse? <+: (tr.filterMap Event.addrRequest?).map (translate undef t)

/-- A step that does not mix: the software asks only when no master waits for a translation, and a
master only when the software does not. `asks` tells which actions of a master make a request. -/
def separate (asks : A → Bool) (s : ConfigServer S addrWidth n) : Action A n → Bool
  | .master _ a => !asks a || s.addrReqFifo.items.isEmpty
  | .addrRequest _ _ => s.sgl.tokFifo.items.isEmpty
  | _ => true

/-! ## The requests under way -/

section Outstanding

variable (undef : Page → Offset → BitVec 40) (port : Fin 2) (errorType : DmaErrorType) (t : Tables)
  {master : Fin n → Server (SglAddrServer (SGList.State addrWidth) n) ReqTup (BitVec addrWidth) →
    RuleSystem (SglAddrServer (SGList.State addrWidth) n × S) A E}
  (U : ∀ i, (mkSglAddrServer (addrServer port) i).Uses
    (master i (mkSglAddrServer (addrServer port) i)))
  (asks : A → Bool) (asked : E → Option ReqTup) (taken : E → Option (ReqTup × BitVec addrWidth))

/-- The requests made so far are those answered, `done`, and those under way, `left`, oldest first;
the queues of the server and of the masters are projections of `left`. -/
structure Outstanding (tr : List (Event E addrWidth n)) (s : ConfigServer S addrWidth n)
    (done left : List (Option (Fin n) × ReqTup)) : Prop where
  asked_eq : tr.filterMap (Event.asked? asked) = done ++ left
  taken_eq : (tr.filterMap (Event.taken? taken)).map Prod.fst = done.map asker
  values : (∀ e ∈ tr, e.isConfig = false) →
    tr.filterMap (Event.taken? taken) = done.map fun x => (asker x, translate undef t x.2)
  owes : (∀ e ∈ tr, e.isConfig = false) →
    (addrServer_inOrder undef port t).owes s.sgl.server (left.map fun x => translate undef t x.2)
  tokens : s.sgl.tokFifo.items = left.filterMap Prod.fst
  pending : ∀ i, (U i).pending (s.masters i) = (left.filter fun x => x.1 = some i).map Prod.snd
  requests : s.addrReqFifo.items.length = left.countP fun x => x.1 = none
  /-- The requests under way are all of masters, or all of the software. -/
  unmixed : (∀ x ∈ left, x.1 ≠ none) ∨ ∀ x ∈ left, x.1 = none

variable {undef port t U asked taken} {tr es : List (Event E addrWidth n)}
  {s s' : ConfigServer S addrWidth n} {done left : List (Option (Fin n) × ReqTup)}

namespace Outstanding

/-- Steps that make no request and take no response. -/
lemma idle (h : Outstanding undef port t U asked taken tr s done left)
    (hask : es.filterMap (Event.asked? asked) = []) (htake : es.filterMap (Event.taken? taken) = [])
    (hw : (∀ e ∈ es, e.isConfig = false) → ∀ l, (addrServer_inOrder undef port t).owes s.sgl.server l →
      (addrServer_inOrder undef port t).owes s'.sgl.server l)
    (htok : s'.sgl.tokFifo = s.sgl.tokFifo)
    (hp : ∀ i, (U i).pending (s'.masters i) = (U i).pending (s.masters i))
    (hr : s'.addrReqFifo = s.addrReqFifo) :
    Outstanding undef port t U asked taken (tr ++ es) s' done left where
  asked_eq := by rw [List.filterMap_append, hask, List.append_nil, h.asked_eq]
  taken_eq := by rw [List.filterMap_append, htake, List.append_nil, h.taken_eq]
  values hc := by
    rw [List.filterMap_append, htake, List.append_nil]
    exact h.values fun e he => hc e (List.mem_append_left _ he)
  owes hc := hw (fun e he => hc e (List.mem_append_right _ he)) _
    (h.owes fun e he => hc e (List.mem_append_left _ he))
  tokens := by rw [htok, h.tokens]
  pending i := by rw [hp, h.pending]
  requests := by rw [hr, h.requests]
  unmixed := h.unmixed

/-- A request of `u` goes to the address server; nobody of the other kind has one under way. -/
lemma ask (h : Outstanding undef port t U asked taken tr s done left) {u : Option (Fin n)}
    {req : ReqTup} (hask : es.filterMap (Event.asked? asked) = [(u, req)])
    (htake : es.filterMap (Event.taken? taken) = [])
    (hput : (addrServer port).put s.sgl.server req = some s'.sgl.server)
    (htok : s'.sgl.tokFifo.items = s.sgl.tokFifo.items ++ u.toList)
    (hp : ∀ i, (U i).pending (s'.masters i) =
      (U i).pending (s.masters i) ++ if u = some i then [req] else [])
    (hr : s'.addrReqFifo.items.length = s.addrReqFifo.items.length + if u = none then 1 else 0)
    (hmix : if u = none then s.sgl.tokFifo.items = [] else s.addrReqFifo.items = []) :
    Outstanding undef port t U asked taken (tr ++ es) s' done (left ++ [(u, req)]) where
  asked_eq := by rw [List.filterMap_append, hask, h.asked_eq, List.append_assoc]
  taken_eq := by rw [List.filterMap_append, htake, List.append_nil, h.taken_eq]
  values hc := by
    rw [List.filterMap_append, htake, List.append_nil]
    exact h.values fun e he => hc e (List.mem_append_left _ he)
  owes hc := by
    rw [List.map_append]
    exact (addrServer_inOrder undef port t).put
      (h.owes fun e he => hc e (List.mem_append_left _ he)) hput
  tokens := by
    rw [htok, h.tokens, List.filterMap_append]
    cases u <;> rfl
  pending i := by
    rw [hp, h.pending, List.filter_append, List.map_append]
    by_cases hu : u = some i
    · simp [hu]
    · simp [hu]
  requests := by
    rw [hr, h.requests, List.countP_append]
    cases u <;> simp
  unmixed := by
    cases u with
    | none =>
      -- no token, so nothing under way is of a master
      rw [if_pos rfl, h.tokens, List.filterMap_eq_nil_iff] at hmix
      right
      intro x hx
      rcases List.mem_append.mp hx with hx | hx
      · exact hmix x hx
      · rw [List.mem_singleton.mp hx]
    | some i =>
      have hzero : left.countP (fun x => x.1 = none) = 0 := by
        rw [← h.requests, (if_neg (by simp)).mp hmix]
        rfl
      rw [List.countP_eq_zero] at hzero
      left
      intro x hx
      rcases List.mem_append.mp hx with hx | hx
      · simpa using hzero x hx
      · rw [List.mem_singleton.mp hx]
        simp

/-- The oldest request under way is answered, to the one who made it. -/
lemma take {x : Option (Fin n) × ReqTup}
    (h : Outstanding undef port t U asked taken tr s done (x :: left)) {addr : BitVec addrWidth}
    (hask : es.filterMap (Event.asked? asked) = [])
    (htake : es.filterMap (Event.taken? taken) = [(asker x, addr)])
    (hget : (addrServer port).get s.sgl.server = some (addr, s'.sgl.server))
    (htok : s.sgl.tokFifo.items = x.1.toList ++ s'.sgl.tokFifo.items)
    (hp : ∀ i, (U i).pending (s.masters i) =
      (if x.1 = some i then [x.2] else []) ++ (U i).pending (s'.masters i))
    (hr : s.addrReqFifo.items.length = s'.addrReqFifo.items.length + if x.1 = none then 1 else 0) :
    Outstanding undef port t U asked taken (tr ++ es) s' (done ++ [x]) left where
  asked_eq := by
    rw [List.filterMap_append, hask, h.asked_eq, List.append_nil, List.append_assoc]
    rfl
  taken_eq := by
    rw [List.filterMap_append, htake, List.map_append, h.taken_eq, List.map_append]
    rfl
  values hc := by
    have hc' : ∀ e ∈ tr, e.isConfig = false := fun e he => hc e (List.mem_append_left _ he)
    obtain ⟨l, hl, -⟩ := (addrServer_inOrder undef port t).get (h.owes hc') hget
    rw [List.map_cons] at hl
    rw [List.filterMap_append, htake, h.values hc', List.map_append, ← (List.cons.inj hl).1]
    rfl
  owes hc := by
    have hc' : ∀ e ∈ tr, e.isConfig = false := fun e he => hc e (List.mem_append_left _ he)
    obtain ⟨l, hl, ho⟩ := (addrServer_inOrder undef port t).get (h.owes hc') hget
    rw [List.map_cons] at hl
    rw [(List.cons.inj hl).2]
    exact ho
  tokens := by
    have ht := h.tokens
    rw [htok, List.filterMap_cons] at ht
    cases hx : x.1 with
    | none => simpa [hx] using ht
    | some i => simpa [hx] using ht
  pending i := by
    have hi := h.pending i
    rw [hp, List.filter_cons] at hi
    by_cases hx : x.1 = some i
    · simpa [hx] using hi
    · simpa [hx] using hi
  requests := by
    have hq := h.requests
    rw [hr, List.countP_cons] at hq
    by_cases hx : x.1 = none
    · simpa [hx] using hq
    · simpa [hx] using hq
  unmixed := by
    rcases h.unmixed with hm | hm
    · exact .inl fun y hy => hm y (List.mem_cons_of_mem _ hy)
    · exact .inr fun y hy => hm y (List.mem_cons_of_mem _ hy)

/-- With a token at the head, the oldest request under way is that of its master. -/
lemma head_of_token (h : Outstanding undef port t U asked taken tr s done left) {i : Fin n}
    {toks : List (Fin n)} (htok : s.sgl.tokFifo.items = i :: toks) {req : ReqTup}
    {reqs : List ReqTup} (hp : (U i).pending (s.masters i) = req :: reqs) :
    ∃ rest, left = (some i, req) :: rest := by
  have ht := h.tokens
  have hpi := h.pending i
  rw [htok] at ht
  rw [hp] at hpi
  cases left with
  | nil => cases ht
  | cons x rest =>
    rcases h.unmixed with hm | hm
    · obtain ⟨j, hj⟩ := Option.ne_none_iff_exists'.mp (hm x List.mem_cons_self)
      rw [List.filterMap_cons, hj] at ht
      obtain ⟨rfl, -⟩ := List.cons.inj ht
      rw [List.filter_cons, if_pos (by simpa using hj), List.map_cons] at hpi
      obtain ⟨hreq, -⟩ := List.cons.inj hpi
      exact ⟨rest, by rw [hreq, ← hj]⟩
    · exfalso
      have : (x :: rest).filterMap Prod.fst = [] := List.filterMap_eq_nil_iff.mpr hm
      rw [this] at ht
      cases ht

/-- With a request of the software waiting, the oldest request under way is one. -/
lemma head_of_request (h : Outstanding undef port t U asked taken tr s done left)
    (hr : s.addrReqFifo.items ≠ []) : ∃ req rest, left = (none, req) :: rest := by
  have hpos : 0 < left.countP fun x => x.1 = none := by
    rw [← h.requests]
    exact List.length_pos_iff.mpr hr
  obtain ⟨x, hx, hnone⟩ := List.countP_pos_iff.mp hpos
  rcases h.unmixed with hm | hm
  · exact absurd (by simpa using hnone) (hm x hx)
  · cases left with
    | nil => cases hx
    | cons y rest => exact ⟨y.2, rest, by rw [← hm y List.mem_cons_self]⟩

end Outstanding

/-! ## Steps of the server -/

/-- A master shows the requests it makes. -/
lemma filterMap_asked_master (i : Fin n) (es : List E) :
    (es.map fun e => (.master i e : Event E addrWidth n)).filterMap (Event.asked? asked) =
      (es.filterMap asked).map fun req => (some i, req) := by
  rw [List.filterMap_map, List.map_filterMap]
  rfl

/-- A master shows the responses it takes. -/
lemma filterMap_taken_master (i : Fin n) (es : List E) :
    (es.map (Event.master i)).filterMap (Event.taken? taken) =
      (es.filterMap taken).map fun x => (some (i, x.1), x.2) := by
  rw [List.filterMap_map, List.map_filterMap]
  rfl

/-- Updating the state of one master. -/
lemma pending_update (i j : Fin n) (m : S) :
    (U j).pending (Function.update s.masters i m j) =
      if j = i then (U i).pending m else (U j).pending (s.masters j) := by
  by_cases h : j = i
  · subst h
    simp
  · simp [h]

/-- A step of a master. -/
lemma Outstanding.master_step (h : Outstanding undef port t U asked taken tr s done left)
    (hU : ∀ i, (U i).asks = asks ∧ (U i).asked = asked ∧ (U i).taken = taken) {i : Fin n} {a : A}
    (hc : separate asks s (.master i a)) {w : SglAddrServer (SGList.State addrWidth) n} {m : S}
    {ms : List E} (hs : (master i (mkSglAddrServer (addrServer port) i)).step (s.sgl, s.masters i) a =
      some ((w, m), ms)) :
    ∃ done' left', Outstanding undef port t U asked taken (tr ++ ms.map (.master i))
      { s with
        sgl := w
        masters := Function.update s.masters i m } done' left' := by
  obtain ⟨hasks, hasked, htaken⟩ := hU i
  have hstep := (U i).step hs
  rw [hasks, hasked, htaken] at hstep
  rcases hstep with ⟨rfl, hp, he, ht⟩ | ⟨req, ha, hput, hp, he, ht⟩ | ⟨req, addr, hget, hp, he, ht⟩
  · refine ⟨done, left, h.idle ?_ ?_ (fun _ _ ho => ho) rfl ?_ rfl⟩
    · rw [filterMap_asked_master, he, List.map_nil]
    · rw [filterMap_taken_master, ht, List.map_nil]
    · intro j
      rw [pending_update, hp]
      split
      · rename_i hj; rw [hj]
      · rfl
  · obtain ⟨hput, htok⟩ := mkSglAddrServer_put hput
    have hempty : s.addrReqFifo.items = [] := by
      simpa [separate, ha] using hc
    refine ⟨done, left ++ [(some i, req)], h.ask ?_ ?_ hput htok ?_ rfl ?_⟩
    · rw [filterMap_asked_master, he, List.map_singleton]
    · rw [filterMap_taken_master, ht, List.map_nil]
    · intro j
      rw [pending_update, hp]
      by_cases hj : j = i
      · subst hj
        simp
      · simp [hj, Ne.symm hj]
    · simpa using hempty
  · obtain ⟨hget, htok, -⟩ := mkSglAddrServer_get.mp hget
    obtain ⟨rest, rfl⟩ := h.head_of_token htok hp
    refine ⟨done ++ [(some i, req)], rest, h.take ?_ ?_ hget htok ?_ rfl⟩
    · rw [filterMap_asked_master, he, List.map_nil]
    · rw [filterMap_taken_master, ht, List.map_singleton]
      rfl
    · intro j
      rw [pending_update]
      by_cases hj : j = i
      · subst hj
        simp [hp]
      · simp [hj, Ne.symm hj]

/-- A step of the server keeps account of the requests under way. -/
theorem Outstanding.step (h : Outstanding undef port t U asked taken tr s done left)
    (hU : ∀ i, (U i).asks = asks ∧ (U i).asked = asked ∧ (U i).taken = taken)
    {a : Action A n}
    (hs : ((configMemServer undef port errorType master).guard fun s a => separate asks s a).step s a =
      some (s', es)) :
    ∃ done' left', Outstanding undef port t U asked taken (tr ++ es) s' done' left' := by
  rw [RuleSystem.guard_step] at hs
  obtain ⟨hc, hs⟩ := hs
  cases a with
  | master i a =>
    simp only [configMemServer, bind, pure, Option.bind_eq_some_iff, Prod.exists, Option.some.injEq,
      Prod.mk.injEq] at hs
    obtain ⟨w, m, ms, hm, rfl, rfl⟩ := hs
    exact h.master_step asks hU hc hm
  | incArb =>
    simp only [configMemServer, Option.some.injEq, Prod.mk.injEq] at hs
    obtain ⟨rfl, rfl⟩ := hs
    exact ⟨done, left, h.idle rfl rfl (fun _ _ ho => ho) rfl (fun _ => rfl) rfl⟩
  | addrRequest pointer offset =>
    simp only [configMemServer, addrRequest, bind, pure, Option.bind_eq_some_iff, Fifo.enq_eq_some,
      Option.some.injEq, Prod.mk.injEq] at hs
    obtain ⟨s₁, ⟨q, ⟨-, hq⟩, server, hput, rfl⟩, rfl, rfl⟩ := hs
    have hempty : s.sgl.tokFifo.items = [] := by simpa [separate] using hc
    refine ⟨done, left ++ [(none, addrTup pointer offset)],
      h.ask rfl rfl hput (by simp) (fun j => by simp) (by simp [hq]) (by simpa using hempty)⟩
  | sglistEntry =>
    simp only [configMemServer, sglistEntry, bind, pure, Option.bind_eq_some_iff, Prod.exists,
      Fifo.deq_eq_some, Option.some.injEq, Prod.mk.injEq] at hs
    obtain ⟨addr, s₁, ⟨_, q, hq, _, server, hget, rfl, rfl⟩, rfl, rfl⟩ := hs
    obtain ⟨req, rest, rfl⟩ := h.head_of_request (by rw [hq]; simp)
    exact ⟨done ++ [(none, req)], rest,
      h.take rfl rfl hget (by simp) (fun j => by simp) (by simp [hq])⟩
  | sglist pref addr len =>
    simp only [configMemServer, sglist, bind, pure, Option.bind_eq_some_iff, Option.some.injEq,
      Prod.mk.injEq] at hs
    obtain ⟨s₁, ⟨errs, -, server, -, rfl⟩, rfl, rfl⟩ := hs
    exact ⟨done, left, h.idle rfl rfl
      (fun hno => absurd (hno _ List.mem_cons_self) (by simp [Event.isConfig])) rfl (fun _ => rfl) rfl⟩
  | region pointer barr8 barr4 barr0 =>
    simp only [configMemServer, bind, pure, Option.bind_eq_some_iff, Option.some.injEq,
      Prod.mk.injEq] at hs
    obtain ⟨server, -, rfl, rfl⟩ := hs
    exact ⟨done, left, h.idle rfl rfl
      (fun hno => absurd (hno _ List.mem_cons_self) (by simp [Event.isConfig])) rfl (fun _ => rfl) rfl⟩
  | dmaError =>
    simp only [configMemServer, bind, pure, Option.bind_eq_some_iff, Prod.exists, Option.some.injEq,
      Prod.mk.injEq] at hs
    obtain ⟨err, errs, -, rfl, rfl⟩ := hs
    exact ⟨done, left, h.idle rfl rfl (fun _ _ ho => ho) rfl (fun _ => rfl) rfl⟩
  | mmu a =>
    simp only [configMemServer, bind, pure, Option.bind_eq_some_iff, Prod.exists, Option.some.injEq,
      Prod.mk.injEq] at hs
    obtain ⟨server, ds, hrule, rfl, rfl⟩ := hs
    exact ⟨done, left, h.idle rfl rfl
      (fun _ _ ho => (addrServer_inOrder undef port t).rule ho hrule) rfl (fun _ => rfl) rfl⟩

/-- What the account says about the trace. -/
lemma Outstanding.notStolen (h : Outstanding undef port t U asked taken tr s done left) :
    NotStolen undef t asked taken tr := by
  refine ⟨?_, ?_, ?_⟩
  · rw [h.taken_eq, h.asked_eq, List.map_append]
    exact List.prefix_append _ _
  · intro hc i e req addr hmem ht
    have hx : (some (i, req), addr) ∈ tr.filterMap (Event.taken? taken) :=
      List.mem_filterMap.mpr ⟨.master i e, hmem, by simp [Event.taken?, ht]⟩
    rw [h.values hc, List.mem_map] at hx
    obtain ⟨x, -, hxe⟩ := hx
    obtain ⟨hasker, rfl⟩ := Prod.mk.inj hxe
    obtain ⟨j, -, hj⟩ := Option.map_eq_some_iff.mp hasker
    rw [(Prod.mk.inj hj).2]
  · intro hc
    -- the software's part of the requests and of the responses
    have hreq : tr.filterMap Event.addrRequest? = (tr.filterMap (Event.asked? asked)).filterMap
        fun x => if x.1 = none then some x.2 else none := by
      rw [List.filterMap_filterMap]
      refine List.filterMap_congr fun e _ => ?_
      cases e with
      | master i e => cases hm : asked e <;> simp [Event.addrRequest?, Event.asked?, hm]
      | _ => rfl
    have hresp : tr.filterMap Event.addrResponse? = (tr.filterMap (Event.taken? taken)).filterMap
        fun x => if x.1 = none then some x.2 else none := by
      rw [List.filterMap_filterMap]
      refine List.filterMap_congr fun e _ => ?_
      cases e with
      | master i e => cases hm : taken e <;> simp [Event.addrResponse?, Event.taken?, hm]
      | _ => rfl
    rw [hreq, hresp, h.asked_eq, h.values hc, List.filterMap_append, List.map_append,
      List.filterMap_map, List.map_filterMap]
    have hdone : done.filterMap ((fun x : Option (Fin n × ReqTup) × BitVec addrWidth =>
        if x.1 = none then some x.2 else none) ∘ fun x => (asker x, translate undef t x.2)) =
        done.filterMap fun x =>
          (if x.1 = none then some x.2 else none).map (translate undef t) := by
      refine List.filterMap_congr fun x _ => ?_
      cases hx : x.1 <;> simp [asker, hx]
    rw [hdone]
    exact List.prefix_append _ _

/-- Nothing is under way after reset. -/
lemma outstanding_reset {m : S} (hm : ∀ i, (U i).pending m = []) :
    Outstanding undef port t U asked taken [] (.reset t m) [] [] where
  asked_eq := rfl
  taken_eq := rfl
  values _ := rfl
  owes _ := addrServer_owes_reset undef port t
  tokens := rfl
  pending i := hm i
  requests := rfl
  unmixed := .inl fun _ hx => by cases hx

/-- A memory server whose masters use their address servers as `U` says. -/
lemma notStolen_run (hU : ∀ i, (U i).asks = asks ∧ (U i).asked = asked ∧ (U i).taken = taken) {m : S}
    (hm : ∀ i, (U i).pending m = [])
    (h : ((configMemServer undef port errorType master).guard fun s a => separate asks s a).Reaches
      (.reset t m) tr s) : NotStolen undef t asked taken tr := by
  have hinv : ∃ done left, Outstanding undef port t U asked taken tr s done left := by
    refine h.invariant (I := fun tr s => ∃ done left,
      Outstanding undef port t U asked taken tr s done left) ⟨[], [], outstanding_reset hm⟩ ?_
    intro tr s a s' es ⟨done, left, ih⟩ hs
    exact ih.step errorType asks hU hs
  obtain ⟨done, left, ho⟩ := hinv
  exact ho.notStolen

end Outstanding

end ConfigServer

/-! ## The two servers -/

section Servers

variable {τ κ ε : Type} {numClients numTags addrWidth dataWidthBytes : ℕ}

/-- **Translations are not stolen while requests are kept apart.** In every run of a read server or of
a write server, with any number of masters, in which the software asks for a translation only when no
master waits for one, and a master only when the software does not: responses are taken by those who
asked for them, and they are the translations of what was asked. -/
theorem notStolen_of_separate (n : ℕ) (undef : Page → Offset → BitVec 40) (t : Tables)
    (tg : TagGen τ κ ε numClients numTags) (g₀ : τ)
    (stream : Fin n → Fin numClients → ℕ → ObjectData (dataWidthBytes * 8)) :
    (∀ tr s, ((configMemServerR n undef tg dataWidthBytes).guard
          fun s a => ConfigServer.separate MemRead.Action.asks s a).Reaches
          (.reset t (.reset g₀) : ConfigServer _ addrWidth n) tr s →
        ConfigServer.NotStolen undef t MemRead.Event.asked? MemRead.Event.taken? tr) ∧
    (∀ tr s, ((configMemServerW n undef tg stream).guard
          fun s a => ConfigServer.separate MemWrite.Action.asks s a).Reaches
          (.reset t (.reset g₀) : ConfigServer _ addrWidth n) tr s →
        ConfigServer.NotStolen undef t MemWrite.Event.asked? MemWrite.Event.taken? tr) := by
  refine ⟨fun tr s h => ?_, fun tr s h => ?_⟩
  · exact ConfigServer.notStolen_run (U := fun i => memRead_uses (mkSglAddrServer (addrServer 0) i) tg)
      _ _ (fun _ => ⟨rfl, rfl, rfl⟩) (fun _ => rfl) h
  · exact ConfigServer.notStolen_run
      (U := fun i => memWrite_uses (mkSglAddrServer (addrServer 1) i) tg (stream i))
      _ _ (fun _ => ⟨rfl, rfl, rfl⟩) (fun _ => rfl) h

/-- The request of the master, at offset `0x1000` of object 0. -/
def pageOne : ObjectRequest := ⟨0, 0x1000, 4, 3⟩

/-- A run of a read server in which the two requests are kept apart. -/
def separateRead :=
  ((configMemServerR 1 (fun _ _ => 0) ( mkTagGenIO 1) 4).guard
      fun s a => ConfigServer.separate MemRead.Action.asks s a).run
    (.reset sixteenPages (.reset Fifo.empty) : ConfigServer _ 40 1)
    [.master 0 (.front (.loadClient 0 pageOne)), .mmu (.stage1 0), .mmu (.stage2 0),
      .mmu (.stage3 0), .mmu (.stage4 0), .mmu (.stage5 0), .master 0 (.front .checkSglResp),
      .addrRequest 0 0x2000, .mmu (.stage1 0), .mmu (.stage2 0), .mmu (.stage3 0),
      .mmu (.stage4 0), .mmu (.stage5 0), .sglistEntry]

/-- Each gets its own translation. -/
theorem notStolen_separateRead :
    ConfigServer.NotStolen (fun _ _ => 0) sixteenPages MemRead.Event.asked? MemRead.Event.taken?
        separateRead.2 ∧
      ConfigServer.Event.addrResponse 0x102000 ∈ separateRead.2 ∧
      ConfigServer.Event.master 0 (.front (.checked ⟨pageOne, 0x101000, 0, 0⟩)) ∈ separateRead.2 := by
  refine ⟨?_, by decide +kernel, by decide +kernel⟩
  exact (notStolen_of_separate 1 (fun _ _ => 0) sixteenPages ( mkTagGenIO 1) Fifo.empty
    fun _ _ _ => (⟨0, 0, false⟩ : ObjectData (4 * 8))).1 _ _ (RuleSystem.reaches_run _ _)

/-- One master; in turn, the master makes a request for page 1 (`load`), the software one for page 2,
and each goes through the unit; the software takes its response first, then the master (`check`). -/
def mixedActions {A : Type} (port : Fin 2) (load check : A) : List (ConfigServer.Action A 1) :=
  [.master 0 load, .addrRequest 0 0x2000, .mmu (.stage1 port), .mmu (.stage2 port),
    .mmu (.stage3 port), .mmu (.stage4 port), .mmu (.stage5 port), .mmu (.stage1 port),
    .mmu (.stage2 port), .mmu (.stage3 port), .mmu (.stage4 port), .mmu (.stage5 port),
    .sglistEntry, .master 0 check]

/-- The run of a read server. -/
def mixedRead :=
  (configMemServerR 1 (fun _ _ => 0) ( mkTagGenIO 1) 4).run
    (.reset sixteenPages (.reset Fifo.empty) : ConfigServer _ 40 1)
    (mixedActions 0 (.front (.loadClient 0 pageOne)) (.front .checkSglResp))

/-- The run of a write server. -/
def mixedWrite :=
  (configMemServerW 1 (fun _ _ => 0) ( mkTagGenIO 1) fun _ _ _ =>
      (⟨0, 0, false⟩ : ObjectData (4 * 8))).run
    (.reset sixteenPages (.reset Fifo.empty) : ConfigServer _ 40 1)
    (mixedActions 1 (.front (.loadClient 0 pageOne)) (.front .checkSglResp))

/-- **Stolen translations.** In both servers the software gets the address of page 1, which the master
asked for, and the master that of page 2. -/
theorem not_notStolen_mixed :
    (configMemServerR 1 (fun _ _ => 0) ( mkTagGenIO 1) 4).Reaches
        (.reset sixteenPages (.reset Fifo.empty) : ConfigServer _ 40 1) mixedRead.2 mixedRead.1 ∧
      ConfigServer.Event.addrResponse 0x101000 ∈ mixedRead.2 ∧
      ConfigServer.Event.master 0 (.front (.checked ⟨pageOne, 0x102000, 0, 0⟩)) ∈ mixedRead.2 ∧
      ¬ ConfigServer.NotStolen (fun _ _ => 0) sixteenPages MemRead.Event.asked? MemRead.Event.taken?
        mixedRead.2 ∧
      (configMemServerW 1 (fun _ _ => 0) ( mkTagGenIO 1) fun _ _ _ =>
          (⟨0, 0, false⟩ : ObjectData (4 * 8))).Reaches
        (.reset sixteenPages (.reset Fifo.empty) : ConfigServer _ 40 1) mixedWrite.2 mixedWrite.1 ∧
      ConfigServer.Event.addrResponse 0x101000 ∈ mixedWrite.2 ∧
      ConfigServer.Event.master 0 (.front (.checked ⟨pageOne, 0x102000, 0, 0⟩)) ∈ mixedWrite.2 ∧
      ¬ ConfigServer.NotStolen (fun _ _ => 0) sixteenPages MemWrite.Event.asked?
        MemWrite.Event.taken? mixedWrite.2 := by
  refine ⟨RuleSystem.reaches_run _ _, by decide +kernel, by decide +kernel, fun h => ?_,
    RuleSystem.reaches_run _ _, by decide +kernel, by decide +kernel, fun h => ?_⟩
  · have hs := h.software (by decide +kernel)
    exact absurd hs (by decide +kernel)
  · have hs := h.software (by decide +kernel)
    exact absurd hs (by decide +kernel)

end Servers

end Xbsv
