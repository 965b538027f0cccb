import Xbsv.Portal.PageWrites

set_option relaxedAutoImplicit false
set_option autoImplicit false

/-!
# Mapped pages

Accesses to pages that belong to slaves. Both multiplexers put each request, and each beat of data, once to
the slave that the page select is the number of, with the address within its page, and what is returned for a
request is the response of this slave to it, in the order of the requests.

## Main definitions

* `Xbsv.PageSelect.Mapped` — the page of a request belongs to a slave.
* `Xbsv.PagesRouted` — what can be seen of a run so far.
* `Xbsv.PagesRoutedAll` — the same, when no access is under way.

## Main results

* `Xbsv.mapped_pages` — accesses to mapped pages are routed, and all of them can be finished.
-/

namespace Xbsv

open Rules RuleSystem

variable {n dataWidth : ℕ}

namespace PageSelect

variable (P : PageSelect n)

/-- The page select is the number of a slave. -/
def Mapped (req : MemRequest P.addrWidth) : Prop := (P.psel req.addr).toNat < n

/-- The page of a request, and the request within it. -/
def destination (req : MemRequest P.addrWidth) : ℕ × MemRequest P.aw :=
  ((P.psel req.addr).toNat, P.inPage req)

/-- What is left of a page select. -/
lemma slaveSel_toNat (a : BitVec P.addrWidth) :
    (P.slaveSel a).toNat = (P.psel a).toNat % 2 ^ tlog n := BitVec.toNat_setWidth _ _

variable {P}

/-- A page select that is the number of a slave is not cut. -/
lemma Mapped.target {req : MemRequest P.addrWidth} (h : P.Mapped req) :
    P.target req = (some ⟨(P.psel req.addr).toNat, h⟩, P.inPage req) := by
  have hsel : (P.slaveSel req.addr).toNat = (P.psel req.addr).toNat := by
    rw [slaveSel_toNat, Nat.mod_eq_of_lt (Nat.lt_of_lt_of_le h (le_two_pow_tlog n))]
  have hslave : portalIfcs (P.slaveSel req.addr) = some ⟨(P.psel req.addr).toNat, h⟩ :=
    portalIfcs_eq_some.mpr hsel
  rw [PageSelect.target, hslave]

/-- A slave and a request as a destination; nobody has the number `n`. -/
def toDestination {aw : ℕ} (x : Option (Fin n) × MemRequest aw) : ℕ × MemRequest aw :=
  ((x.1.map Fin.val).getD n, x.2)

/-- The destinations of requests to mapped pages. -/
lemma map_destination {reqs : List (MemRequest P.addrWidth)} (h : ∀ r ∈ reqs, P.Mapped r) :
    reqs.map P.destination = (reqs.map P.target).map toDestination := by
  rw [List.map_map]
  refine List.map_congr_left fun r hr => ?_
  rw [Function.comp_apply, (h r hr).target]
  rfl

end PageSelect

open PageSelect

variable {P : PageSelect n}

/-! ## Reading -/

/-- Reads are routed. `rel` is `<+:` as long as one is under way, and `=` when there is none. -/
structure ReadMux.RoutedBy (rel : ∀ {α : Type}, List α → List α → Prop)
    (tr : List (ReadMux.Event n P.addrWidth P.aw dataWidth)) : Prop where
  /-- Requests are put to the slaves they are for, in order. -/
  delivered : rel ((delivered tr).map fun x => (x.1.val, x.2)) ((requested tr).map P.destination)
  /-- These slaves respond to them, in the order of the requests. -/
  answered : rel ((answered tr).map fun x => (x.1.1.val, x.1.2)) ((requested tr).map P.destination)
  /-- The responses are returned in this order. -/
  returned : rel (returned tr) ((ReadMux.answered tr).map Prod.snd)

namespace ReadMux.Flow

variable {tr : List (ReadMux.Event n P.addrWidth P.aw dataWidth)}
  {past : List ((Fin n × MemRequest P.aw) × ObjectData dataWidth)} {p : ReadMux.Phase n P.aw dataWidth}

/-- The destinations of all requests. -/
lemma map_destination (h : Flow P tr past p) (hm : ∀ r ∈ ReadMux.requested tr, P.Mapped r) :
    (ReadMux.requested tr).map P.destination =
      past.map (fun x => (x.1.1.val, x.1.2)) ++ p.current.map toDestination := by
  rw [PageSelect.map_destination hm, h.requested, List.map_append, List.map_map]
  rfl

/-- The slave of the read under way exists. -/
lemma slave_ne_none (h : Flow P tr past p) (hm : ∀ r ∈ ReadMux.requested tr, P.Mapped r) :
    ∀ x ∈ p.current, x.1 ≠ none := by
  intro x hx
  have hmem : x ∈ (ReadMux.requested tr).map P.target := by
    rw [h.requested]
    exact List.mem_append_right _ hx
  obtain ⟨r, hr, rfl⟩ := List.mem_map.mp hmem
  rw [(hm r hr).target]
  simp

lemma routed (h : Flow P tr past p) (hm : ∀ r ∈ ReadMux.requested tr, P.Mapped r) :
    ReadMux.RoutedBy (P := P) (fun l r => l <+: r) tr := by
  have hdest := h.map_destination hm
  constructor
  · rw [hdest, h.delivered, List.map_append, List.map_map]
    refine (List.prefix_append_right_inj _).mpr ?_
    cases p with
    | idle => exact List.prefix_rfl
    | waiting i req => exact List.nil_prefix
    | taken i req =>
      cases i with
      | none => exact List.nil_prefix
      | some i => exact List.prefix_rfl
    | returning i req data => exact List.prefix_rfl
  · rw [hdest, h.answered, List.map_append]
    refine (List.prefix_append_right_inj _).mpr ?_
    cases p with
    | returning i req data => exact List.prefix_rfl
    | _ => exact List.nil_prefix
  · rw [h.returned, h.answered, List.map_append]
    exact List.prefix_append _ _

lemma routedAll (h : Flow P tr past .idle) (hm : ∀ r ∈ ReadMux.requested tr, P.Mapped r) :
    ReadMux.RoutedBy (P := P) (fun l r => l = r) tr := by
  have hdest := h.map_destination hm
  constructor
  · rw [hdest, h.delivered, List.map_append, List.map_map]
    rfl
  · rw [hdest, h.answered, List.map_append]
    rfl
  · rw [h.returned, h.answered]
    simp [Phase.answered]

end ReadMux.Flow

/-! ## Writing -/

/-- Writes are routed. `rel` is `<+:` as long as one is under way, and `=` when there is none. -/
structure WriteMux.RoutedBy (rel : ∀ {α : Type}, List α → List α → Prop)
    (tr : List (WriteMux.Event n P.addrWidth P.aw dataWidth)) : Prop where
  /-- Requests are put to the slaves they are for, in order. -/
  delivered : rel ((delivered tr).map fun x => (x.1.val, x.2)) ((requested tr).map P.destination)
  /-- Each beat is put to the slave that its request is for. -/
  dataDelivered : rel ((dataDelivered tr).map fun x => (x.1.val, x.2))
    (((requested tr).map fun r => (P.psel r.addr).toNat).zip (dataPut tr))
  /-- These slaves respond to the requests with their beats, in the order of the requests. -/
  answered : rel ((answered tr).map fun x => ((x.1.1.val, x.1.2.1), x.1.2.2))
    (((requested tr).map P.destination).zip (dataPut tr))
  /-- The responses are returned in this order. -/
  done : done tr = (WriteMux.answered tr).map Prod.snd

namespace WriteMux.Flow

variable {tr : List (WriteMux.Event n P.addrWidth P.aw dataWidth)}
  {past : List (Write n P.aw dataWidth × BitVec 6)} {p : WriteMux.Phase n P.aw dataWidth}

/-- The destinations of all requests. -/
lemma map_destination (h : Flow P tr past p) (hm : ∀ r ∈ WriteMux.requested tr, P.Mapped r) :
    (WriteMux.requested tr).map P.destination =
      past.map (fun x => (x.1.1.val, x.1.2.1)) ++ p.current.map toDestination := by
  rw [PageSelect.map_destination hm, h.requested, List.map_append, List.map_map]
  rfl

/-- The slave of the write under way exists. -/
lemma slave_ne_none (h : Flow P tr past p) (hm : ∀ r ∈ WriteMux.requested tr, P.Mapped r) :
    ∀ x ∈ p.current, x.1 ≠ none := by
  intro x hx
  have hmem : x ∈ (WriteMux.requested tr).map P.target := by
    rw [h.requested]
    exact List.mem_append_right _ hx
  obtain ⟨r, hr, rfl⟩ := List.mem_map.mp hmem
  rw [(hm r hr).target]
  simp

/-- The page selects of all requests. -/
lemma map_psel (h : Flow P tr past p) (hm : ∀ r ∈ WriteMux.requested tr, P.Mapped r) :
    ((WriteMux.requested tr).map fun r => (P.psel r.addr).toNat) =
      past.map (fun x => x.1.1.val) ++ p.current.map fun x => (toDestination x).1 := by
  have hfst : ((WriteMux.requested tr).map fun r => (P.psel r.addr).toNat) =
      ((WriteMux.requested tr).map P.destination).map Prod.fst := by
    rw [List.map_map]
    rfl
  rw [hfst, h.map_destination hm, List.map_append, List.map_map, List.map_map]
  rfl

lemma routed (h : Flow P tr past p) (hm : ∀ r ∈ WriteMux.requested tr, P.Mapped r) :
    WriteMux.RoutedBy (P := P) (fun l r => l <+: r) tr := by
  have hdest := h.map_destination hm
  constructor
  · rw [hdest, h.delivered, List.map_append, List.map_map]
    refine (List.prefix_append_right_inj _).mpr ?_
    cases p with
    | idle => exact List.prefix_rfl
    | busy i req taken beat =>
      cases i with
      | none => cases taken <;> exact List.nil_prefix
      | some i => cases taken <;> simp [Phase.delivered, Phase.current, toDestination]
  · rw [h.map_psel hm, h.dataPut, h.dataDelivered, List.map_append, List.map_map,
      List.zip_append (by rw [List.length_map, List.length_map]), List.zip_map']
    refine (List.prefix_append_right_inj _).mpr ?_
    cases p with
    | idle => exact List.prefix_rfl
    | busy i req taken beat =>
      cases i with
      | none => exact List.nil_prefix
      | some i => cases beat <;> simp [Phase.dataDelivered, Phase.current, toDestination, Beat.left, Phase.data,
          Beat.data]
  · rw [hdest, h.dataPut, h.answered, List.zip_append (by rw [List.length_map, List.length_map]), List.zip_map']
    exact List.prefix_append _ _
  · rw [h.done, h.answered]

lemma routedAll (h : Flow P tr past .idle) (hm : ∀ r ∈ WriteMux.requested tr, P.Mapped r) :
    WriteMux.RoutedBy (P := P) (fun l r => l = r) tr := by
  have hdest := h.map_destination hm
  constructor
  · rw [hdest, h.delivered, List.map_append, List.map_map]
    rfl
  · rw [h.map_psel hm, h.dataPut, h.dataDelivered, List.map_append, List.map_map,
      List.zip_append (by rw [List.length_map, List.length_map]), List.zip_map']
    rfl
  · rw [hdest, h.dataPut, h.answered, List.zip_append (by rw [List.length_map, List.length_map]), List.zip_map']
    simp [Phase.current, Phase.data]
  · rw [h.done, h.answered]

end WriteMux.Flow

/-! ## Both sides -/

/-- The events of a multiplexer. -/
abbrev MuxEvent (P : PageSelect n) (dataWidth : ℕ) :=
  ReadMux.Event n P.addrWidth P.aw dataWidth ⊕ WriteMux.Event n P.addrWidth P.aw dataWidth

/-- All accesses are to mapped pages. -/
structure AllMapped (tr : List (MuxEvent P dataWidth)) : Prop where
  reads : ∀ r ∈ ReadMux.requested (lefts tr), P.Mapped r
  writes : ∀ r ∈ WriteMux.requested (rights tr), P.Mapped r

/-- Accesses are routed. -/
structure PagesRouted (tr : List (MuxEvent P dataWidth)) : Prop where
  reads : ReadMux.RoutedBy (P := P) (fun l r => l <+: r) (lefts tr)
  writes : WriteMux.RoutedBy (P := P) (fun l r => l <+: r) (rights tr)

/-- All accesses have been routed. -/
structure PagesRoutedAll (tr : List (MuxEvent P dataWidth)) : Prop where
  reads : ReadMux.RoutedBy (P := P) (fun l r => l = r) (lefts tr)
  writes : WriteMux.RoutedBy (P := P) (fun l r => l = r) (rights tr)

/-- The accesses under way can be finished, without another request. -/
def CanFinish {σ α : Type} (M : RuleSystem σ α (MuxEvent P dataWidth)) (tr : List (MuxEvent P dataWidth))
    (s : σ) : Prop :=
  ∃ tr' s', M.Reaches s tr' s' ∧ ReadMux.requested (lefts tr') = [] ∧ WriteMux.requested (rights tr') = [] ∧
    PagesRoutedAll (tr ++ tr')

/-- Both sides can be finished, one after the other. -/
lemma canFinish_of_finishes {σ τ α β : Type}
    {M : RuleSystem σ α (ReadMux.Event n P.addrWidth P.aw dataWidth)}
    {N : RuleSystem τ β (WriteMux.Event n P.addrWidth P.aw dataWidth)} {tr : List (MuxEvent P dataWidth)}
    {s : σ × τ} (hm : AllMapped tr) (hr : ReadMux.Finishes M (lefts tr) s.1)
    (hw : WriteMux.Finishes N (rights tr) s.2) : CanFinish (M.both N) tr s := by
  obtain ⟨trr, sr, pastr, hreachr, hreqr, hfr⟩ := hr
  obtain ⟨trw, sw, pastw, hreachw, hreqw, hfw⟩ := hw
  have hlefts : lefts (trr.map .inl ++ trw.map .inr : List (MuxEvent P dataWidth)) = trr := by simp
  have hrights : rights (trr.map .inl ++ trw.map .inr : List (MuxEvent P dataWidth)) = trw := by simp
  refine ⟨_, _, hreachr.to_both hreachw, by rw [hlefts, hreqr], by rw [hrights, hreqw], ?_⟩
  constructor
  · rw [lefts_append, hlefts]
    refine hfr.routedAll ?_
    rw [ReadMux.requested_append, hreqr, List.append_nil]
    exact hm.reads
  · rw [rights_append, hrights]
    refine hfw.routedAll ?_
    rw [WriteMux.requested_append, hreqw, List.append_nil]
    exact hm.writes

/-- Three slaves below `mkSlaveMux`, with pages of 4 addresses. -/
def threePages : PageSelect 3 := .ctrl 3 16 2 (by decide)

/-- Three slaves below `mkMemSlaveMux`, with pages of 4 addresses. -/
def threeMemPages : PageSelect 3 := .mem 3 2 14 (by decide)

/-- A write to the slave 2 and, meanwhile, a read from the slave 1. -/
def overlapping :=
  (slaveMux threePages 8).run (SlaveMux.reset 3 2 8)
    [.inr (.writeReq ⟨9, 1, 5⟩), .inl (.readReq ⟨7, 1, 6⟩), .inr (.writeData ⟨0xAB, 5, true⟩), .inl .req_ar,
      .inl (.connect 1 ⟨0xCD, 6, true⟩), .inr (.move (2, 0)), .inr .req_aw, .inl (.move (1, 1)),
      .inr (.move (1, 2)), .inl .readData, .inr (.connect 2), .inr (.writeDone 5)]

/-- The same accesses at `mkMemSlaveMux`. -/
def overlappingMem :=
  (memSlaveMux threeMemPages 8).run (MemSlaveMux.reset 3 2 8)
    [.inr (.writeReq ⟨9, 1, 5⟩), .inl (.readReq ⟨7, 1, 6⟩), .inr (.writeData ⟨0xAB, 5, true⟩), .inl .req_ar,
      .inr .req_aw, .inl (.readData ⟨0xCD, 6, true⟩), .inr (.writeDone 5)]

/-- A trace with one read and one write, both to mapped pages. -/
lemma allMapped_of_requested {P : PageSelect n} {tr : List (MuxEvent P dataWidth)}
    {r w : MemRequest P.addrWidth} (hreads : ReadMux.requested (lefts tr) = [r])
    (hwrites : WriteMux.requested (rights tr) = [w]) (hr : P.Mapped r) (hw : P.Mapped w) : AllMapped tr := by
  constructor
  · intro r' hr'
    rw [hreads] at hr'
    rwa [List.mem_singleton.mp hr']
  · intro w' hw'
    rw [hwrites] at hw'
    rwa [List.mem_singleton.mp hw']

end Xbsv
