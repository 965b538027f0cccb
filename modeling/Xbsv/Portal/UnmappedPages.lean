import Xbsv.Portal.MappedPages

set_option relaxedAutoImplicit false
set_option autoImplicit false

/-!
# Unmapped pages

A multiplexer keeps as many bits of a page select as the number of a slave has. So a page select that is not
the number of a slave may still lead to one: the pages repeat every `2 ^ tlog n`. Only those that are not the
number of a slave even then belong to nobody.

## Main definitions

* `Xbsv.PageSelect.slaveOf` — the slave that a request is put to.

## Main results

* `Xbsv.decoded_pages` — what the slaves get, for any page selects.
* `Xbsv.not_isolated` — a page of nobody leads to the registers of a slave.
-/

namespace Xbsv

open Rules RuleSystem PageSelect

variable {n dataWidth : ℕ}

namespace PageSelect

/-- The slave whose number is left of the page select. -/
def slaveOf (P : PageSelect n) (req : MemRequest P.addrWidth) : Option (Fin n) :=
  if h : (P.psel req.addr).toNat % 2 ^ tlog n < n then some ⟨_, h⟩ else none

/-- The request as it is put to its slave. -/
def place (P : PageSelect n) (req : MemRequest P.addrWidth) : Option (Fin n × MemRequest P.aw) :=
  (P.slaveOf req).map fun i => (i, P.inPage req)

variable {P : PageSelect n}

lemma target_eq (req : MemRequest P.addrWidth) : P.target req = (P.slaveOf req, P.inPage req) := by
  rw [PageSelect.target, Prod.mk.injEq]
  refine ⟨?_, rfl⟩
  unfold slaveOf
  split
  · rename_i h
    have hsel : (P.slaveSel req.addr).toNat = (P.psel req.addr).toNat % 2 ^ tlog n := P.slaveSel_toNat req.addr
    exact portalIfcs_eq_some.mpr hsel
  · rename_i h
    rw [← slaveSel_toNat] at h
    exact dif_neg h

/-- The requests that are put to slaves. -/
lemma filterMap_place (reqs : List (MemRequest P.addrWidth)) :
    reqs.filterMap P.place = (reqs.map P.target).filterMap fun x => x.1.map fun i => (i, x.2) := by
  rw [List.filterMap_map]
  refine List.filterMap_congr fun r _ => ?_
  rw [Function.comp_apply, target_eq]
  rfl

end PageSelect

variable {P : PageSelect n}

/-- What the slaves get in reading: the requests that are for them, in order. -/
lemma ReadMux.Flow.delivered_place {tr : List (ReadMux.Event n P.addrWidth P.aw dataWidth)}
    {past : List ((Fin n × MemRequest P.aw) × ObjectData dataWidth)} {p : ReadMux.Phase n P.aw dataWidth}
    (h : ReadMux.Flow P tr past p) : ReadMux.delivered tr <+: (ReadMux.requested tr).filterMap P.place := by
  have hpast : (past.map fun x => ((some x.1.1 : Option (Fin n)), x.1.2)).filterMap
      (fun x => x.1.map fun i => (i, x.2)) = past.map Prod.fst := by
    rw [List.filterMap_map, ← List.filterMap_eq_map]
    rfl
  rw [filterMap_place, h.requested, h.delivered, List.filterMap_append, hpast]
  refine (List.prefix_append_right_inj _).mpr ?_
  cases p with
  | idle => exact List.prefix_rfl
  | waiting i req => exact List.nil_prefix
  | taken i req => cases i <;> exact List.prefix_rfl
  | returning i req data => exact List.prefix_rfl

section Writing

variable {tr : List (WriteMux.Event n P.addrWidth P.aw dataWidth)}
  {past : List (Write n P.aw dataWidth × BitVec 6)} {p : WriteMux.Phase n P.aw dataWidth}

/-- What the slaves get in writing: the requests that are for them, in order. -/
lemma WriteMux.Flow.delivered_place (h : WriteMux.Flow P tr past p) :
    WriteMux.delivered tr <+: (WriteMux.requested tr).filterMap P.place := by
  have hpast : (past.map fun x => ((some x.1.1 : Option (Fin n)), x.1.2.1)).filterMap
      (fun x => x.1.map fun i => (i, x.2)) = past.map fun x => (x.1.1, x.1.2.1) := by
    rw [List.filterMap_map, ← List.filterMap_eq_map]
    rfl
  rw [filterMap_place, h.requested, h.delivered, List.filterMap_append, hpast]
  refine (List.prefix_append_right_inj _).mpr ?_
  cases p with
  | idle => exact List.prefix_rfl
  | busy i req taken beat => cases i <;> cases taken <;> simp [Phase.delivered, Phase.current]

/-- The beats that the slaves get: those of the requests that are for them, in order. -/
lemma WriteMux.Flow.dataDelivered_place (h : WriteMux.Flow P tr past p) :
    WriteMux.dataDelivered tr <+:
      ((WriteMux.requested tr).zip (WriteMux.dataPut tr)).filterMap fun x => (P.slaveOf x.1).map (·, x.2) := by
  have hzip : ((WriteMux.requested tr).zip (WriteMux.dataPut tr)).filterMap
      (fun x => (P.slaveOf x.1).map (·, x.2)) =
      (((WriteMux.requested tr).map P.target).zip (WriteMux.dataPut tr)).filterMap
        fun x => x.1.1.map (·, x.2) := by
    rw [List.zip_map_left, List.filterMap_map]
    refine List.filterMap_congr fun x _ => ?_
    rw [Function.comp_apply, Prod.map_fst, target_eq]
    rfl
  have hpast : (past.map fun x => (((some x.1.1 : Option (Fin n)), x.1.2.1), x.1.2.2)).filterMap
      (fun x => x.1.1.map (·, x.2)) = past.map fun x => (x.1.1, x.1.2.2) := by
    rw [List.filterMap_map, ← List.filterMap_eq_map]
    rfl
  rw [hzip, h.requested, h.dataPut, h.dataDelivered, List.zip_append (by rw [List.length_map, List.length_map]),
    List.zip_map', List.filterMap_append, hpast]
  refine (List.prefix_append_right_inj _).mpr ?_
  cases p with
  | idle => exact List.prefix_rfl
  | busy i req taken beat =>
    cases i <;> cases beat <;> simp [Phase.dataDelivered, Phase.current, Phase.data, Beat.data, Beat.left]

end Writing

/-- What the slaves get is for them: requests, and beats of data of such requests. -/
structure Decoded (tr : List (MuxEvent P dataWidth)) : Prop where
  reads : ReadMux.delivered (lefts tr) <+: (ReadMux.requested (lefts tr)).filterMap P.place
  writes : WriteMux.delivered (rights tr) <+: (WriteMux.requested (rights tr)).filterMap P.place
  data : WriteMux.dataDelivered (rights tr) <+:
    ((WriteMux.requested (rights tr)).zip (WriteMux.dataPut (rights tr))).filterMap
      fun x => (P.slaveOf x.1).map (·, x.2)

/-- **Decoding.** In every run of either multiplexer, for requests to any pages, a request and its data are
put to the slave whose number is the page select modulo `2 ^ tlog n`, and to nobody if there is no such
slave. -/
theorem decoded_pages (P : PageSelect n) (tr : List (MuxEvent P dataWidth)) :
    (∀ s, (memSlaveMux P dataWidth).Reaches (MemSlaveMux.reset n P.aw dataWidth) tr s → Decoded tr) ∧
    ∀ s, (slaveMux P dataWidth).Reaches (SlaveMux.reset n P.aw dataWidth) tr s → Decoded tr := by
  constructor
  · intro s h
    obtain ⟨hreads, hwrites⟩ := h.of_both
    obtain ⟨pastr, pr, hfr, -, -⟩ := memSlaveMuxReads_run hreads
    obtain ⟨pastw, pw, hfw, -, -⟩ := memSlaveMuxWrites_run hwrites
    exact ⟨hfr.delivered_place, hfw.delivered_place, hfw.dataDelivered_place⟩
  · intro s h
    obtain ⟨hreads, hwrites⟩ := h.of_both
    obtain ⟨pastr, pr, hfr, -⟩ := slaveMuxReads_run hreads
    obtain ⟨pastw, pw, hfw, -⟩ := slaveMuxWrites_run hwrites
    exact ⟨hfr.delivered_place, hfw.delivered_place, hfw.dataDelivered_place⟩

/-- A write to the page 5 reaches a slave of `mkMemSlaveMux`. -/
def aliasedMem :=
  (memSlaveMux threeMemPages 8).run (MemSlaveMux.reset 3 2 8)
    [.inr (.writeReq ⟨0x16, 1, 0⟩), .inr .req_aw, .inr (.writeData ⟨0xFF, 0, true⟩)]

/-- It reaches a slave of `mkSlaveMux`. -/
def aliased :=
  (slaveMux threePages 8).run (SlaveMux.reset 3 2 8)
    [.inr (.writeReq ⟨0x16, 1, 0⟩), .inr .req_aw, .inr (.writeData ⟨0xFF, 0, true⟩), .inr (.move (2, 0)),
      .inr (.move (1, 1)), .inr (.connect 1)]

/-- Page 5 of three pages is not mapped, and its accesses reach the slave 1. -/
theorem not_isolated :
    (¬ ∀ {n dataWidth : ℕ} (P : PageSelect n) (tr : List (MuxEvent P dataWidth)),
      (∃ s, (memSlaveMux P dataWidth).Reaches (MemSlaveMux.reset n P.aw dataWidth) tr s) →
      (∀ r ∈ WriteMux.requested (rights tr), ¬ P.Mapped r) →
        WriteMux.delivered (rights tr) = [] ∧ WriteMux.dataDelivered (rights tr) = []) ∧
    ¬ ∀ {n dataWidth : ℕ} (P : PageSelect n) (tr : List (MuxEvent P dataWidth)),
      (∃ s, (slaveMux P dataWidth).Reaches (SlaveMux.reset n P.aw dataWidth) tr s) →
      (∀ r ∈ WriteMux.requested (rights tr), ¬ P.Mapped r) →
        WriteMux.delivered (rights tr) = [] ∧ WriteMux.dataDelivered (rights tr) = [] := by
  constructor
  · intro h
    have hreq : WriteMux.requested (rights aliasedMem.2) = [⟨0x16, 1, 0⟩] := by decide +kernel
    have hdel : WriteMux.delivered (rights aliasedMem.2) = [(1, ⟨2, 1, 0⟩)] := by decide +kernel
    have hnil := h threeMemPages aliasedMem.2 ⟨_, reaches_run _ _⟩ fun r hr => by
      rw [hreq] at hr
      obtain rfl := List.mem_singleton.mp hr
      show ¬ 5 < 3
      decide
    rw [hdel] at hnil
    cases hnil.1
  · intro h
    have hreq : WriteMux.requested (rights aliased.2) = [⟨0x16, 1, 0⟩] := by decide +kernel
    have hdata : WriteMux.dataDelivered (rights aliased.2) = [(1, ⟨0xFF, 0, true⟩)] := by decide +kernel
    have hnil := h threePages aliased.2 ⟨_, reaches_run _ _⟩ fun r hr => by
      rw [hreq] at hr
      obtain rfl := List.mem_singleton.mp hr
      show ¬ 5 < 3
      decide
    rw [hdata] at hnil
    cases hnil.2

end Xbsv
