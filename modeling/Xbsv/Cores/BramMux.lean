import Mathlib.Data.List.FinRange
import Xbsv.Cores.Bram
import Xbsv.Dma.MemTypes
import Xbsv.Rules.Fifo
import Xbsv.Rules.System

set_option relaxedAutoImplicit false
set_option autoImplicit false

/-!
# The multiplexer of block memories

`mkBramServerMux` of `BramMux.bsv` makes one memory of several: the upper bits of an address choose the server. Each
server has a rule `respond` that moves its responses to `responseFifo`, and of those that could fire in a cycle the
first one does. Nothing says in which order the requests were made, so the responses of two servers may pass each other
while the queue is full.

The requests that have a response are numbered as they are made, and the numbers go along with the responses, to say
which request a response is for.

## Main definitions

* `Xbsv.BramServerMux`, `Xbsv.bramServerMux` — the multiplexer with its servers, and its runs.
* `Xbsv.BramServerMux.Ordered` — the responses are those of the requests, in order.
* `Xbsv.BramServerMux.TakesOldest` — the rule that fires has the oldest response.

## Main results

* `Xbsv.BramServerMux.Tracks.step` — what a cycle does to the responses under way.
* `Xbsv.BramServerMux.ordered_of_takesOldest` — the runs in which the order is kept.
* `Xbsv.BramServerMux.ordered_of_own` — requests that find only requests to their own server under way.
-/

namespace Xbsv

open Rules

/-- The state of `mkBramServerMux` with its servers, and the number of the next request. -/
structure BramServerMux (numServers asz : ℕ) (α : Type) where
  servers : Fin numServers → BramServer asz α ℕ
  responseFifo : Fifo 1 (α × ℕ)
  number : ℕ

namespace BramServerMux

variable {numServers asz : ℕ} {α : Type}

/-- The multiplexer of memories. -/
def reset (mem : Fin numServers → BitVec asz → α) : BramServerMux numServers asz α :=
  ⟨fun i => ⟨mem i, []⟩, .empty, 0⟩

/-- What is done in a cycle: a request is put, and a response got. -/
structure Cycle (numServers asz : ℕ) (α : Type) where
  request : Option (BRAMRequest (asz + tlog numServers) α)
  response : Bool

/-- A request that has a response was put, with the word that its server reads, and a response was got. -/
inductive Event (α : Type)
  | asked (x : α)
  | returned (x : α × ℕ)
  deriving DecidableEq

/-- `clientNumber`, if there is such a server. -/
def clientNumber (address : BitVec (asz + tlog numServers)) : Option (Fin numServers) :=
  if h : (address.extractLsb' asz (tlog numServers)).toNat < numServers then some ⟨_, h⟩ else none

/-- The request that a server gets. -/
def request : BRAMRequest (asz + tlog numServers) α → Option (Fin numServers × BRAMRequest asz α)
  | .write address datain => (clientNumber address).map fun i => (i, .write (address.setWidth _) datain)
  | .read address => (clientNumber address).map fun i => (i, .read (address.setWidth _))

/-- The rules `respond`: the first that can fire does, if there is room in `responseFifo`, which is a pipeline. -/
def respond (s : BramServerMux numServers asz α) (response : Bool) : Option (Fin numServers × (α × ℕ)) :=
  if s.responseFifo.items = [] ∨ response = true then
    (List.finRange numServers).findSome? fun i => (s.servers i).response.map fun x => (i, x)
  else none

/-- The request of a cycle, which its server must have room for. -/
def put (capacity : Fin numServers → ℕ) (s : BramServerMux numServers asz α) :
    Option (BRAMRequest (asz + tlog numServers) α) → Option (Option (Fin numServers × BRAMRequest asz α))
  | none => some none
  | some req => do
    let (i, req) ← request req
    if (s.servers i).pending.length < capacity i then some (some (i, req)) else none

/-- What there is for one of the servers. -/
def forServer {β : Type} (i : Fin numServers) : Option (Fin numServers × β) → Option β
  | none => none
  | some (j, x) => if j = i then some x else none

/-- The word that is read. -/
def answer (s : BramServerMux numServers asz α) : Option (Fin numServers × BRAMRequest asz α) → Option α
  | none => none
  | some (i, req) => (s.servers i).answer (some req)

/-- One cycle. -/
def step (latency capacity : Fin numServers → ℕ) (s : BramServerMux numServers asz α)
    (c : Cycle numServers asz α) : Option (BramServerMux numServers asz α × List (Event α)) := do
  let req ← s.put capacity c.request
  let fired := s.respond c.response
  let responseFifo ← s.responseFifo.pipelined c.response (fired.map Prod.snd)
  let got := if c.response then s.responseFifo.items.head? else none
  return ({
      servers := fun i => (s.servers i).cycle (latency i) s.number (forServer i fired).isSome (forServer i req)
      responseFifo
      number := s.number + (s.answer req).toList.length },
    got.toList.map .returned ++ (s.answer req).toList.map .asked)

end BramServerMux

/-- The multiplexer of servers that have their responses after `latency` cycles and room for `capacity` requests, with
any requests and a consumer that stalls at will. -/
def bramServerMux (numServers asz : ℕ) (α : Type) (latency capacity : Fin numServers → ℕ) :
    RuleSystem (BramServerMux numServers asz α) (BramServerMux.Cycle numServers asz α) (BramServerMux.Event α) where
  step s c := s.step latency capacity c

namespace BramServerMux

variable {numServers asz : ℕ} {α : Type} {latency capacity : Fin numServers → ℕ}

/-! ## The order -/

/-- The responses that the requests should have, in order. -/
def asked (tr : List (Event α)) : List α :=
  tr.filterMap fun
    | .asked x => some x
    | .returned _ => none

/-- The responses that were got. -/
def returned (tr : List (Event α)) : List (α × ℕ) :=
  tr.filterMap fun
    | .asked _ => none
    | .returned x => some x

/-- **The order is kept**: the responses that were got, and the one that can be got next, are those of the requests, in
order. -/
def Ordered (tr : List (Event α)) (s : BramServerMux numServers asz α) : Prop :=
  returned tr ++ s.responseFifo.items <+: (asked tr).zipIdx

/-- The rule that fires has the oldest response under way. -/
def TakesOldest (s : BramServerMux numServers asz α) (c : Cycle numServers asz α) : Prop :=
  ∀ p ∈ s.respond c.response, ∀ i, ∀ q ∈ (s.servers i).pending, p.2.2 ≤ q.2.2

instance (s : BramServerMux numServers asz α) (c : Cycle numServers asz α) : Decidable (s.TakesOldest c) :=
  match h : s.respond c.response with
  | none => isTrue fun p hp => by rw [h] at hp; cases hp
  | some p =>
    decidable_of_iff (∀ i, ∀ q ∈ (s.servers i).pending, p.2.2 ≤ q.2.2)
      ⟨fun hall r hr => by rw [h] at hr; cases hr; exact hall, fun hall => hall p h⟩

section Traces

variable (tr es : List (Event α)) (xs : List (α × ℕ)) (ys : List α)

@[simp] lemma asked_append : asked (tr ++ es) = asked tr ++ asked es := List.filterMap_append

@[simp] lemma returned_append : returned (tr ++ es) = returned tr ++ returned es := List.filterMap_append

/-- The events of one cycle. -/
lemma asked_events : asked (xs.map .returned ++ ys.map .asked) = ys := by
  simp [asked, List.filterMap_append, List.filterMap_map]

lemma returned_events : returned (xs.map .returned ++ ys.map .asked : List (Event α)) = xs := by
  simp [returned, List.filterMap_append, List.filterMap_map]

end Traces

/-! ## What is under way -/

/-- The responses under way at one server. -/
def lane (out : List (Fin numServers × (α × ℕ))) (i : Fin numServers) : List (α × ℕ) :=
  out.filterMap fun p => forServer i (some p)

lemma lane_append (out out' : List (Fin numServers × (α × ℕ))) (i : Fin numServers) :
    lane (out ++ out') i = lane out i ++ lane out' i := List.filterMap_append

lemma mem_lane {out : List (Fin numServers × (α × ℕ))} {i : Fin numServers} {x : α × ℕ} :
    x ∈ lane out i ↔ (i, x) ∈ out := by
  simp only [lane, forServer, List.mem_filterMap, Prod.exists, Option.ite_none_right_eq_some, Option.some.injEq]
  constructor
  · rintro ⟨j, y, k, hmem, rfl, rfl⟩
    exact hmem
  · intro hmem
    exact ⟨i, x.1, x.2, hmem, rfl, rfl⟩

lemma lane_sublist (out : List (Fin numServers × (α × ℕ))) (i : Fin numServers) :
    (lane out i).Sublist (out.map Prod.snd) := by
  induction out with
  | nil => exact List.Sublist.slnil
  | cons p out ih =>
    obtain ⟨j, x⟩ := p
    by_cases hij : j = i
    · have hcons : lane ((j, x) :: out) i = x :: lane out i := List.filterMap_cons_some (if_pos hij)
      rw [hcons]
      exact ih.cons_cons x
    · have hcons : lane ((j, x) :: out) i = lane out i := List.filterMap_cons_none (if_neg hij)
      rw [hcons]
      exact ih.cons x

/-- **The invariant**: what was got, what is in the queue and what is under way, in the order of the requests, are the
responses that the requests should have. -/
structure Tracks (tr : List (Event α)) (s : BramServerMux numServers asz α)
    (out : List (Fin numServers × (α × ℕ))) : Prop where
  pending : ∀ i, (s.servers i).pending.map Prod.snd = lane out i
  all : returned tr ++ s.responseFifo.items ++ out.map Prod.snd = (asked tr).zipIdx
  number : s.number = (asked tr).length

variable {s s' : BramServerMux numServers asz α} {tr es : List (Event α)}
  {out : List (Fin numServers × (α × ℕ))} {c : Cycle numServers asz α}

lemma tracks_reset (mem : Fin numServers → BitVec asz → α) : Tracks [] (reset mem) [] :=
  ⟨fun _ => rfl, rfl, rfl⟩

lemma Tracks.ordered (h : Tracks tr s out) : Ordered tr s := ⟨_, h.all⟩

/-- The numbers of what is under way go up. -/
lemma Tracks.pairwise (h : Tracks tr s out) : (out.map Prod.snd).Pairwise fun x y => x.2 < y.2 := by
  have hall : (asked tr).zipIdx.Pairwise fun x y => x.2 < y.2 := by
    have hrange : ((asked tr).zipIdx.map Prod.snd).Pairwise (· < ·) := by
      rw [List.zipIdx_map_snd]
      exact List.pairwise_lt_range'
    exact List.pairwise_map.mp hrange
  rw [← h.all] at hall
  exact (List.pairwise_append.mp hall).2.1

/-- A rule that fires has the oldest response of its server. -/
lemma respond_eq_some {response : Bool} {i : Fin numServers} {x : α × ℕ} (h : s.respond response = some (i, x)) :
    (s.responseFifo.items = [] ∨ response = true) ∧ ∃ rest, (s.servers i).pending = (0, x) :: rest := by
  unfold respond at h
  split at h
  · rename_i hroom
    obtain ⟨j, -, hj⟩ := List.exists_of_findSome?_eq_some h
    obtain ⟨y, hy, heq⟩ := Option.map_eq_some_iff.mp hj
    cases heq
    exact ⟨hroom, BramServer.response_eq_some hy⟩
  · cases h

/-- What is under way at the server that fires. -/
lemma Tracks.lane_of_respond (h : Tracks tr s out) {response : Bool} {i : Fin numServers} {x : α × ℕ}
    (hfired : s.respond response = some (i, x)) : ∃ rest, lane out i = x :: rest := by
  obtain ⟨-, rest, hrest⟩ := respond_eq_some hfired
  refine ⟨rest.map Prod.snd, ?_⟩
  rw [← h.pending i, hrest]
  rfl

/-- **The rule takes the oldest response exactly when it is the next one.** -/
lemma Tracks.takesOldest_iff (h : Tracks tr s out) {i : Fin numServers} {x : α × ℕ}
    (hfired : s.respond c.response = some (i, x)) :
    s.TakesOldest c ↔ ∃ rest, out = (i, x) :: rest := by
  obtain ⟨later, hlane⟩ := h.lane_of_respond hfired
  have hx : (i, x) ∈ out := mem_lane.mp (hlane ▸ List.mem_cons_self)
  obtain ⟨⟨j, y⟩, rest, rfl⟩ := List.exists_cons_of_ne_nil (List.ne_nil_of_mem hx)
  have hpairwise := h.pairwise
  rw [List.map_cons, List.pairwise_cons] at hpairwise
  constructor
  · intro hold
    rcases List.mem_cons.mp hx with heq | hmem
    · exact ⟨rest, by rw [heq]⟩
    · -- The first one is older.
      have hy : y ∈ (s.servers j).pending.map Prod.snd := by
        rw [h.pending j]
        exact mem_lane.mpr List.mem_cons_self
      obtain ⟨q, hq, hqy⟩ := List.mem_map.mp hy
      have hle := hold (i, x) hfired j q hq
      have hlt := hpairwise.1 x (List.mem_map_of_mem hmem)
      rw [hqy] at hle
      exact absurd hlt (Nat.not_lt.mpr hle)
  · rintro ⟨rest', heq⟩ p hp k q hq
    obtain ⟨hfirst, -⟩ := List.cons.inj heq
    cases hfirst
    rw [hfired] at hp
    cases hp
    have hmem : (k, q.2) ∈ (i, x) :: rest := by
      rw [← mem_lane, ← h.pending k]
      exact List.mem_map_of_mem hq
    rcases List.mem_cons.mp hmem with heq' | hmem'
    · cases heq'
      exact Nat.le_refl _
    · exact (hpairwise.1 q.2 (List.mem_map_of_mem hmem')).le

/-! ## A cycle -/

/-- What a cycle needs and does. -/
lemma step_eq_some (h : (bramServerMux numServers asz α latency capacity).step s c = some (s', es)) :
    ∃ req, (c.response = true → s.responseFifo.items ≠ []) ∧
      s'.responseFifo.items = (if c.response then s.responseFifo.items.tail else s.responseFifo.items) ++
        ((s.respond c.response).map Prod.snd).toList ∧
      s'.number = s.number + (s.answer req).toList.length ∧ asked es = (s.answer req).toList ∧
      returned es = (if c.response then s.responseFifo.items.head? else none).toList ∧
      ∀ i, s'.servers i = (s.servers i).cycle (latency i) s.number (forServer i (s.respond c.response)).isSome
        (forServer i req) := by
  simp only [bramServerMux, step, Option.bind_eq_bind, Option.bind_eq_some_iff, Option.pure_def, Option.some.injEq,
    Prod.mk.injEq] at h
  obtain ⟨req, -, fifo, hfifo, rfl, rfl⟩ := h
  obtain ⟨hne, -, hitems⟩ := Fifo.pipelined_eq_some hfifo
  exact ⟨req, hne, hitems, rfl, asked_events _ _, returned_events _ _, fun i => rfl⟩

/-- What was got and is in the queue after a cycle. -/
lemma returned_step {req : Option (α × ℕ)} {response : Bool} {q q' : Fifo 1 (α × ℕ)}
    (hne : response = true → q.items ≠ [])
    (hitems : q'.items = (if response then q.items.tail else q.items) ++ req.toList) :
    (if response then q.items.head? else none).toList ++ q'.items = q.items ++ req.toList := by
  rw [hitems]
  cases response with
  | false => rfl
  | true =>
    obtain ⟨x, xs, hx⟩ := List.exists_cons_of_ne_nil (hne rfl)
    rw [hx]
    rfl

/-- The responses under way after a cycle: those before without the one that was taken, if it was the next one, and the
new one. -/
theorem Tracks.step (h : Tracks tr s out) (hold : s.TakesOldest c)
    (hstep : (bramServerMux numServers asz α latency capacity).step s c = some (s', es)) :
    ∃ out', Tracks (tr ++ es) s' out' := by
  obtain ⟨req, hne, hitems, hnumber, hasked, hreturned, hservers⟩ := step_eq_some hstep
  have hgot := returned_step hne hitems
  -- The new response under way, if the request has one.
  set new : List (Fin numServers × (α × ℕ)) :=
    (req.bind fun p => (s.answer req).map fun x => (p.1, (x, s.number))).toList with hnewdef
  have hnew : new.map Prod.snd = (s.answer req).toList.map fun x => (x, s.number) := by
    rw [hnewdef]
    cases req with
    | none => rfl
    | some p =>
      simp only [Option.bind_some]
      cases s.answer (some p) <;> rfl
  have hlane : ∀ i, lane new i = (((s.servers i).answer (forServer i req)).map fun x => (x, s.number)).toList := by
    intro i
    rw [hnewdef]
    cases req with
    | none => rfl
    | some p =>
      obtain ⟨j, r⟩ := p
      simp only [Option.bind_some, forServer, answer]
      by_cases hij : j = i
      · subst hij
        rw [if_pos rfl]
        cases (s.servers j).answer (some r) <;> simp [lane, forServer]
      · rw [if_neg hij]
        cases (s.servers j).answer (some r) <;> simp [lane, forServer, hij, BramServer.answer]
  have hzip : (asked (tr ++ es)).zipIdx = (asked tr).zipIdx ++ new.map Prod.snd := by
    rw [asked_append, hasked, hnew, List.zipIdx_append, h.number]
    cases s.answer req <;> simp
  have hcount : s'.number = (asked (tr ++ es)).length := by
    rw [hnumber, asked_append, hasked, List.length_append, h.number]
  have hpending : ∀ i, (s'.servers i).pending.map Prod.snd =
      (if (forServer i (s.respond c.response)).isSome then (lane out i).tail else lane out i) ++ lane new i := by
    intro i
    rw [hservers i, BramServer.map_snd_cycle, h.pending i, hlane i]
  have hfront : ∀ rest, (s.respond c.response).toList ++ rest = out →
      (∀ i, (if (forServer i (s.respond c.response)).isSome then (lane out i).tail else lane out i) = lane rest i) →
      Tracks (tr ++ es) s' (rest ++ new) := by
    intro rest hout htail
    refine ⟨fun i => ?_, ?_, hcount⟩
    · rw [hpending i, htail i, lane_append]
    · rw [hzip, ← h.all, ← hout, returned_append, hreturned, List.append_assoc (returned tr), hgot]
      cases s.respond c.response <;> simp
  cases hfired : s.respond c.response with
  | none =>
    rw [hfired] at hfront
    exact ⟨out ++ new, hfront out rfl fun i => rfl⟩
  | some p =>
    obtain ⟨i, x⟩ := p
    rw [hfired] at hfront
    obtain ⟨rest, rfl⟩ := (h.takesOldest_iff hfired).mp hold
    refine ⟨rest ++ new, hfront rest rfl fun j => ?_⟩
    by_cases hij : i = j
    · subst hij
      simp [forServer, lane]
    · simp [forServer, lane, hij]

/-- If the rule takes another response, the order is lost. -/
lemma Tracks.takesOldest_of_ordered (h : Tracks tr s out)
    (hstep : (bramServerMux numServers asz α latency capacity).step s c = some (s', es))
    (hordered : Ordered (tr ++ es) s') : s.TakesOldest c := by
  obtain ⟨req, hne, hitems, -, hasked, hreturned, -⟩ := step_eq_some hstep
  have hgot := returned_step hne hitems
  cases hfired : s.respond c.response with
  | none => exact fun p hp => by rw [hfired] at hp; cases hp
  | some p =>
    obtain ⟨i, x⟩ := p
    obtain ⟨later, hlane⟩ := h.lane_of_respond hfired
    have hx : (i, x) ∈ out := mem_lane.mp (hlane ▸ List.mem_cons_self)
    obtain ⟨⟨j, y⟩, rest, rfl⟩ := List.exists_cons_of_ne_nil (List.ne_nil_of_mem hx)
    rw [h.takesOldest_iff hfired]
    refine ⟨rest, ?_⟩
    have hprefix : returned tr ++ s.responseFifo.items ++ [x] <+:
        returned tr ++ s.responseFifo.items ++ y :: (rest.map Prod.snd ++ (asked es).zipIdx (asked tr).length) := by
      have hall := h.all
      rw [List.map_cons] at hall
      rw [Ordered, returned_append, hreturned, List.append_assoc (returned tr), hgot, hfired, asked_append,
        List.zipIdx_append, ← hall] at hordered
      simpa using hordered
    have hxy : x = y := by
      rw [List.prefix_append_right_inj, List.cons_prefix_cons] at hprefix
      exact hprefix.1
    subst hxy
    -- The numbers tell the two apart, so the servers are the same.
    rcases List.mem_cons.mp hx with heq | hmem
    · rw [heq]
    · have hlt := (List.pairwise_cons.mp h.pairwise).1 x (List.mem_map_of_mem hmem)
      exact absurd hlt (Nat.lt_irrefl _)

/-! ## The runs -/

/-- A request finds only requests to its own server under way. -/
def Own (s : BramServerMux numServers asz α) (c : Cycle numServers asz α) : Prop :=
  ∀ p ∈ c.request.bind request, ∀ i, i ≠ p.1 → (s.servers i).pending.length = 0

instance (s : BramServerMux numServers asz α) (c : Cycle numServers asz α) : Decidable (s.Own c) :=
  match h : c.request.bind request with
  | none => isTrue fun p hp => by rw [h] at hp; cases hp
  | some p =>
    decidable_of_iff (∀ i, i ≠ p.1 → (s.servers i).pending.length = 0)
      ⟨fun hall r hr => by rw [h] at hr; cases hr; exact hall, fun hall => hall p h⟩

/-- All that is under way is at one server. -/
def OneServer (s : BramServerMux numServers asz α) : Prop :=
  ∀ i j, (s.servers i).pending ≠ [] → (s.servers j).pending ≠ [] → i = j

/-- Then its responses come in order. -/
lemma Tracks.takesOldest_of_oneServer (h : Tracks tr s out) (hone : s.OneServer) : s.TakesOldest c := by
  rintro ⟨i, x⟩ hfired j q hq
  obtain ⟨-, rest, hrest⟩ := respond_eq_some hfired
  have hij : i = j := hone i j (by rw [hrest]; exact List.cons_ne_nil _ _) (List.ne_nil_of_mem hq)
  subst hij
  have hpairwise := h.pairwise.sublist (lane_sublist out i)
  rw [← h.pending i, hrest, List.map_cons, List.pairwise_cons] at hpairwise
  rw [hrest] at hq
  rcases List.mem_cons.mp hq with rfl | hmem
  · exact Nat.le_refl _
  · exact (hpairwise.1 q.2 (List.mem_map_of_mem hmem)).le

/-- The request of a cycle. -/
lemma put_eq_some {r : Option (BRAMRequest (asz + tlog numServers) α)}
    {req : Option (Fin numServers × BRAMRequest asz α)} (h : s.put capacity r = some req) : req = r.bind request := by
  cases r with
  | none =>
    cases h
    rfl
  | some r =>
    obtain ⟨⟨i, r'⟩, hp, h⟩ := Option.bind_eq_some_iff.mp h
    by_cases hroom : (s.servers i).pending.length < capacity i
    · cases (if_pos hroom).symm.trans h
      exact hp.symm
    · cases (if_neg hroom).symm.trans h

/-- A cycle with such a request. -/
lemma OneServer.step (hone : s.OneServer) (hown : s.Own c)
    (hstep : (bramServerMux numServers asz α latency capacity).step s c = some (s', es)) : s'.OneServer := by
  simp only [bramServerMux, BramServerMux.step, Option.bind_eq_bind, Option.bind_eq_some_iff, Option.pure_def,
    Option.some.injEq, Prod.mk.injEq] at hstep
  obtain ⟨req, hput, fifo, -, rfl, -⟩ := hstep
  obtain rfl := put_eq_some hput
  -- What is under way is from before, or from the request.
  have hfrom : ∀ i, ((s.servers i).cycle (latency i) s.number (forServer i (s.respond c.response)).isSome
      (forServer i (c.request.bind request))).pending ≠ [] →
      (s.servers i).pending ≠ [] ∨ ∃ p ∈ c.request.bind request, p.1 = i := by
    intro i hi
    by_contra hnot
    obtain ⟨hold, hnew⟩ := not_or.mp hnot
    rw [not_not] at hold
    apply hi
    have hnone : forServer i (c.request.bind request) = none := by
      cases hreq : c.request.bind request with
      | none => rfl
      | some p =>
        obtain ⟨j, r⟩ := p
        exact if_neg fun heq => hnew ⟨(j, r), hreq, heq⟩
    rw [BramServer.cycle, hold, hnone]
    cases (forServer i (s.respond c.response)).isSome <;> rfl
  have hempty : ∀ p ∈ c.request.bind request, ∀ i, (s.servers i).pending ≠ [] → p.1 = i := by
    intro p hp i hi
    by_contra hne
    exact hi (List.eq_nil_of_length_eq_zero (hown p hp i (Ne.symm hne)))
  intro i j hi hj
  rcases hfrom i hi with hi | ⟨p, hp, rfl⟩
  · rcases hfrom j hj with hj | ⟨p, hp, rfl⟩
    · exact hone i j hi hj
    · exact (hempty p hp i hi).symm
  · rcases hfrom j hj with hj | ⟨p', hp', rfl⟩
    · exact hempty p hp j hj
    · rw [Option.mem_unique hp hp']

/-- **The order is kept if each request finds only requests to its own server under way**, as with one server. -/
theorem ordered_of_own {mem : Fin numServers → BitVec asz → α}
    (h : ((bramServerMux numServers asz α latency capacity).guard Own).Reaches (reset mem) tr s) :
    returned tr <+: (asked tr).zipIdx := by
  have htracks : s.OneServer ∧ ∃ out, Tracks tr s out := by
    refine h.invariant (I := fun tr s => s.OneServer ∧ ∃ out, Tracks tr s out) ⟨?_, [], tracks_reset mem⟩ ?_
    · exact fun i j hi => absurd rfl hi
    · rintro tr s c s' es ⟨hone, out, hs⟩ hstep
      obtain ⟨hown, hstep⟩ := RuleSystem.guard_step.mp hstep
      exact ⟨hone.step hown hstep, hs.step (hs.takesOldest_of_oneServer hone) hstep⟩
  obtain ⟨-, out, htracks⟩ := htracks
  exact (List.prefix_append _ _).trans htracks.ordered

/-- Two servers with one word each, and responses in the next cycle. -/
def twoServers : RuleSystem (BramServerMux 2 0 ℕ) (Cycle 2 0 ℕ) (Event ℕ) :=
  bramServerMux 2 0 ℕ (fun _ => 0) (fun _ => 3)

/-- The words are 10 and 11. -/
def words : BramServerMux 2 0 ℕ := reset fun i _ => 10 + i

/-- Reads of the first server and of the second, and a consumer that takes the responses as they come. -/
def takenAtOnce :=
  (twoServers.guard TakesOldest).run words
    [⟨some (.read 0), false⟩, ⟨some (.read 1), false⟩, ⟨none, true⟩, ⟨none, true⟩]

/-- Reads of the first server, the second and the first, and a consumer that stalls before it takes the first
response. -/
def takenLate :=
  twoServers.run words
    [⟨some (.read 0), false⟩, ⟨some (.read 1), false⟩, ⟨some (.read 0), false⟩, ⟨none, true⟩, ⟨none, true⟩]

end BramServerMux

end Xbsv
