import Mathlib.Data.List.FinRange
import Mathlib.Logic.Function.Basic
import Xbsv.Rules.Fifo
import Xbsv.Rules.System
import Xbsv.Dma.MemTypes

set_option relaxedAutoImplicit false
set_option autoImplicit false

/-!
# Tag generators

The interface `TagGen` of `MemServerInternal.bsv` and its two implementations. `mkTagGenIO` uses
the number of the client as the tag. `mkTagGenOO` renames: it looks a request's client and tag up
in `client_map`, picks a free tag when there is none, and counts the uses of each tag in
`tag_regs`. The three steps are separated by two queues.

A client is an element of `Fin numClients` and a rename tag one of `Fin numTags`: the source has
bit vectors of `TLog` bits there and uses them as indices into vectors of these sizes.

## Main definitions

* `Xbsv.TagGen` — the interface: three methods, and the rules of the module behind it.
* `Xbsv.TagGenOO`, `Xbsv.mkTagGenOO` — the renaming generator.
* `Xbsv.mkTagGenIO` — the in-order generator.
-/

namespace Xbsv

open Rules

/-- `SGL_PIPELINE_DEPTH`. -/
abbrev sglPipelineDepth : ℕ := 9

/-- `TAG_DEPTH`. -/
abbrev tagDepth : ℕ := 32

/-- Interface `TagGen`: states `τ`, rules `κ`, and the events `ε` that the rules make visible. -/
structure TagGen (τ κ ε : Type*) (numClients numTags : ℕ) extends RuleSystem τ κ ε where
  tagRequest : τ → Fin numClients → BitVec 6 → Option τ
  tagResponse : τ → Option (Fin numTags × τ)
  returnTag : τ → Fin numTags → Option τ

/-- `findElem`: the first index of a vector that holds the given value. -/
def findElem {n : ℕ} {α : Type*} [DecidableEq α] (x : α) (v : Fin n → α) : Option (Fin n) :=
  (List.finRange n).find? fun i => v i = x

section FindElem

variable {n : ℕ} {α : Type*} [DecidableEq α] {x : α} {v : Fin n → α}

/-- What `findElem` returns is an index of the value. -/
lemma eq_of_findElem {i : Fin n} (h : findElem x v = some i) : v i = x := by
  simpa using List.find?_some h

/-- `findElem` fails only when the value is nowhere. -/
lemma findElem_eq_none : findElem x v = none ↔ ∀ i, v i ≠ x := by
  simp [findElem]

end FindElem

/-! ## The renaming generator -/

/-- The registers and queues of `mkTagGenOO`. -/
@[ext]
structure TagGenOO (numClients numTags : ℕ) where
  requestFifo0 : Fifo sglPipelineDepth (Option (Fin numTags) × Fin numClients × BitVec 6)
  requestFifo1 : Fifo sglPipelineDepth (Fin numTags × Fin numClients × BitVec 6)
  returnFifo : Fifo 2 (Fin numTags)
  tagRegs : Fin numTags → BitVec 5
  clientMap : Fin numTags → Option (Fin numClients × BitVec 6)

namespace TagGenOO

variable {numClients numTags : ℕ}

/-- The state after reset. -/
def reset (numClients numTags : ℕ) : TagGenOO numClients numTags :=
  ⟨.empty, .empty, .empty, fun _ => 0, fun _ => none⟩

/-- `next_free`: the first tag whose count is zero. -/
def nextFree (s : TagGenOO numClients numTags) : Option (Fin numTags) := findElem 0 s.tagRegs

/-- Rule `return_tag_rule`. Also returns the tag it processed. -/
def returnTagRule (s : TagGenOO numClients numTags) :
    Option (Fin numTags × TagGenOO numClients numTags) := do
  let (tag, returnFifo) ← s.returnFifo.deq
  return (tag,
    { s with
      returnFifo
      tagRegs := Function.update s.tagRegs tag (s.tagRegs tag - 1)
      clientMap :=
        if s.tagRegs tag = 1 then Function.update s.clientMap tag none else s.clientMap })

/-- The tag that `tag_request_rule` chooses, with its `_when_` guards: a tag found in the map must
not have the largest count, and otherwise some tag must be free. -/
def chooseTag (s : TagGenOO numClients numTags) : Option (Fin numTags) → Option (Fin numTags)
  | some tag => if s.tagRegs tag < BitVec.allOnes 5 then some tag else none
  | none => s.nextFree

/-- Rule `tag_request_rule`. -/
def tagRequestRule (s : TagGenOO numClients numTags) : Option (TagGenOO numClients numTags) := do
  let ((found, client, origTag), requestFifo0) ← s.requestFifo0.deq
  let rv ← s.chooseTag found
  let requestFifo1 ← s.requestFifo1.enq (rv, client, origTag)
  return { s with requestFifo0, requestFifo1 }

/-- Method `tag_request`: look the client and its tag up in the map. -/
def tagRequest (s : TagGenOO numClients numTags) (client : Fin numClients) (origTag : BitVec 6) :
    Option (TagGenOO numClients numTags) := do
  let requestFifo0 ←
    s.requestFifo0.enq (findElem (some (client, origTag)) s.clientMap, client, origTag)
  return { s with requestFifo0 }

/-- Method `tag_response`. -/
def tagResponse (s : TagGenOO numClients numTags) :
    Option (Fin numTags × TagGenOO numClients numTags) := do
  let ((rv, client, origTag), requestFifo1) ← s.requestFifo1.deq
  return (rv,
    { s with
      requestFifo1
      clientMap := Function.update s.clientMap rv (some (client, origTag))
      tagRegs := Function.update s.tagRegs rv (s.tagRegs rv + 1) })

/-- Method `return_tag`. -/
def returnTag (s : TagGenOO numClients numTags) (tag : Fin numTags) :
    Option (TagGenOO numClients numTags) := do
  let returnFifo ← s.returnFifo.enq tag
  return { s with returnFifo }

/-! ### Counts -/

/-- A count below its largest value does not come round. -/
lemma toNat_add_one {r : BitVec 5} (h : r ≠ BitVec.allOnes 5) : (r + 1).toNat = r.toNat + 1 := by
  have hlt := r.isLt
  have hne : r.toNat ≠ 31 := fun h31 => h (BitVec.eq_of_toNat_eq h31)
  simp only [BitVec.toNat_add, BitVec.ofNat_eq_ofNat, BitVec.toNat_ofNat]
  omega

/-- Nor does one above zero. -/
lemma toNat_sub_one {r : BitVec 5} (h : 0 < r.toNat) : (r - 1).toNat = r.toNat - 1 := by
  have hlt := r.isLt
  simp only [BitVec.toNat_sub, BitVec.ofNat_eq_ofNat, BitVec.toNat_ofNat]
  omega

/-- The map after `return_tag_rule`: only the entry of a tag whose count was one is gone. -/
lemma returned_eq_some {s : TagGenOO numClients numTags} {t t' : Fin numTags}
    {x : Fin numClients × BitVec 6} :
    (if s.tagRegs t = 1 then Function.update s.clientMap t none else s.clientMap) t' = some x ↔
      s.clientMap t' = some x ∧ (t' = t → s.tagRegs t ≠ 1) := by
  by_cases h1 : s.tagRegs t = 1
  · rw [if_pos h1]
    by_cases ht : t' = t
    · subst ht
      simp [h1]
    · rw [Function.update_of_ne ht]
      simp [ht]
  · rw [if_neg h1]
    exact ⟨fun hm => ⟨hm, fun _ => h1⟩, fun hm => hm.1⟩

/-! ### What the methods and rules do -/

section Specs

variable {s s' : TagGenOO numClients numTags} {t : Fin numTags}

/-- A successful `tag_request` queued the result of its lookup. -/
lemma tagRequest_eq_some {client : Fin numClients} {origTag : BitVec 6}
    (h : s.tagRequest client origTag = some s') :
    ∃ q, q.items = s.requestFifo0.items ++
        [(findElem (some (client, origTag)) s.clientMap, client, origTag)] ∧
      s' = { s with requestFifo0 := q } := by
  simp only [tagRequest, bind, pure, Option.bind_eq_some_iff, Fifo.enq_eq_some,
    Option.some.injEq] at h
  obtain ⟨q, ⟨-, hq⟩, rfl⟩ := h
  exact ⟨q, hq, rfl⟩

/-- A successful `tag_response` gave the tag of the oldest request, counted it and wrote the map. -/
lemma tagResponse_eq_some (h : s.tagResponse = some (t, s')) :
    ∃ x q, s.requestFifo1.items = (t, x) :: q.items ∧
      s' =
        { s with
          requestFifo1 := q
          clientMap := Function.update s.clientMap t (some x)
          tagRegs := Function.update s.tagRegs t (s.tagRegs t + 1) } := by
  simp only [tagResponse, bind, pure, Option.bind_eq_some_iff, Prod.exists, Fifo.deq_eq_some,
    Option.some.injEq, Prod.mk.injEq] at h
  obtain ⟨rv, client, origTag, q, hq, rfl, rfl⟩ := h
  exact ⟨(client, origTag), q, hq, rfl⟩

/-- A successful `return_tag` queued the tag. -/
lemma returnTag_eq_some (h : s.returnTag t = some s') :
    ∃ q, q.items = s.returnFifo.items ++ [t] ∧ s' = { s with returnFifo := q } := by
  simp only [returnTag, bind, pure, Option.bind_eq_some_iff, Fifo.enq_eq_some,
    Option.some.injEq] at h
  obtain ⟨q, ⟨-, hq⟩, rfl⟩ := h
  exact ⟨q, hq, rfl⟩

/-- A firing of `return_tag_rule` took the oldest return. -/
lemma returnTagRule_eq_some (h : s.returnTagRule = some (t, s')) :
    ∃ q, s.returnFifo.items = t :: q.items ∧
      s' =
        { s with
          returnFifo := q
          tagRegs := Function.update s.tagRegs t (s.tagRegs t - 1)
          clientMap :=
            if s.tagRegs t = 1 then Function.update s.clientMap t none else s.clientMap } := by
  simp only [returnTagRule, bind, pure, Option.bind_eq_some_iff, Prod.exists, Fifo.deq_eq_some,
    Option.some.injEq, Prod.mk.injEq] at h
  obtain ⟨t', q, hq, rfl, rfl⟩ := h
  exact ⟨q, hq, rfl⟩

/-- A firing of `tag_request_rule` moved the oldest request on, with the tag it chose. -/
lemma tagRequestRule_eq_some (h : s.tagRequestRule = some s') :
    ∃ found x t q₀ q₁, s.requestFifo0.items = (found, x) :: q₀.items ∧ s.chooseTag found = some t ∧
      q₁.items = s.requestFifo1.items ++ [(t, x)] ∧
      s' =
        { s with
          requestFifo0 := q₀
          requestFifo1 := q₁ } := by
  simp only [tagRequestRule, bind, pure, Option.bind_eq_some_iff, Prod.exists, Fifo.deq_eq_some,
    Fifo.enq_eq_some, Option.some.injEq] at h
  obtain ⟨found, client, origTag, q₀, hq₀, t, ht, q₁, ⟨-, hq₁⟩, rfl⟩ := h
  exact ⟨found, (client, origTag), t, q₀, q₁, hq₀, ht, hq₁, rfl⟩

end Specs

/-- The rules of `mkTagGenOO`. -/
inductive Rule
  | returnTagRule
  | tagRequestRule
  deriving DecidableEq, Repr

end TagGenOO

/-- `mkTagGenOO`. Its rules make visible the tags whose return they process. -/
def mkTagGenOO (numClients numTags : ℕ) :
    TagGen (TagGenOO numClients numTags) TagGenOO.Rule (Fin numTags) numClients numTags where
  step s
    | .returnTagRule => do
      let (tag, s') ← s.returnTagRule
      return (s', [tag])
    | .tagRequestRule => do
      let s' ← s.tagRequestRule
      return (s', [])
  tagRequest := TagGenOO.tagRequest
  tagResponse := TagGenOO.tagResponse
  returnTag := TagGenOO.returnTag

/-! ## The in-order generator -/

/-- `mkTagGenIO`: the number of the client is the tag, so there are as many tags as clients. Its
state is the queue of clients; it has no rule and returns are ignored. -/
def mkTagGenIO (numClients : ℕ) :
    TagGen (Fifo sglPipelineDepth (Fin numClients)) Empty Empty numClients numClients where
  step _ r := r.elim
  tagRequest q client _ := q.enq client
  tagResponse q := q.deq
  returnTag q _ := some q

end Xbsv
