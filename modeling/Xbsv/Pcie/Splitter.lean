import Mathlib.Data.Fin.Basic
import Mathlib.Data.List.Induction
import Xbsv.Pcie.Tlp
import Xbsv.Rules.Fifo
import Xbsv.Rules.System

set_option relaxedAutoImplicit false
set_option autoImplicit false

/-!
# `PcieSplitter.bsv`

The bus of the host is shared. What comes from it is handed to one of several ports by `mkTLPDispatcher`, which
looks at the first beat of a packet, and `mkTLPArbiter` sends what the ports have to say, a packet at a time.

The vectors of queues are unguarded on the side of the rules: `enq` into a full queue and `deq` of an
empty one are not stopped by anything. These queues are lists here, and a list that has become too long is a
queue that has been overrun; a `deq` of an empty one gives whatever the memory of the queue holds and is visible.

## Main definitions

* `Xbsv.IsStream` — a stream of packets, as far as it has come.
* `Xbsv.tlpDispatcher` — the dispatcher, as a system of rules.
* `Xbsv.tlpArbiter` — the arbiter, as a system of rules.

## Main results

* `Xbsv.TLPDispatcher.dispatch_cases` — what the rule of the dispatcher can do.
* `Xbsv.TLPArbiter.arbitrate_cases` — what the rule of the arbiter can do.
-/

namespace Xbsv

open Rules

/-! ## Streams of packets -/

/-- A stream of packets, the last of which may be under way. -/
def IsStream (l : List TLPData) : Prop := (∀ p ∈ (packets l).1, IsPacket p) ∧ IsPartial (packets l).2

/-- `sof` on the first beats only, with one more beat. -/
lemma sofFirst_concat {p : List TLPData} {t : TLPData} (h : SofFirst (p ++ [t])) :
    SofFirst p ∧ t.sof = p.isEmpty := by
  cases p with
  | nil => exact ⟨trivial, h.1⟩
  | cons t' p => exact ⟨⟨h.1, fun u hu => h.2 u (by simp [hu])⟩, h.2 t (by simp)⟩

/-- A stream without its last beat is a stream, and `sof` tells if that beat begins a packet. -/
lemma IsStream.of_concat {l : List TLPData} {t : TLPData} (h : IsStream (l ++ [t])) :
    IsStream l ∧ t.sof = (packets l).2.isEmpty := by
  obtain ⟨hps, hpartial⟩ := h
  rw [packets_concat] at hps hpartial
  unfold addBeat at hps hpartial
  by_cases heof : t.eof = true
  · rw [if_pos heof] at hps
    obtain ⟨hfirst, ts, t', hts, -, heofs⟩ := hps ((packets l).2 ++ [t]) (by simp)
    obtain ⟨rfl, rfl⟩ := List.append_inj' hts rfl |>.imp_right List.singleton_inj.mp
    obtain ⟨hfirst, hsof⟩ := sofFirst_concat hfirst
    exact ⟨⟨fun p hp => hps p (by simp [hp]), hfirst, heofs⟩, hsof⟩
  · rw [if_neg heof] at hps hpartial
    obtain ⟨hfirst, hsof⟩ := sofFirst_concat hpartial.1
    exact ⟨⟨hps, hfirst, fun u hu => hpartial.2 u (by simp [hu])⟩, hsof⟩

/-- The last beat of a stream ends its packet or not. -/
lemma IsStream.last {l : List TLPData} {t : TLPData} (h : IsStream (l ++ [t])) :
    (t.eof = true → IsPacket ((packets l).2 ++ [t])) ∧ (t.eof = false → IsPartial ((packets l).2 ++ [t])) := by
  obtain ⟨hps, hpartial⟩ := h
  rw [packets_concat] at hps hpartial
  unfold addBeat at hps hpartial
  constructor
  · intro heof
    rw [if_pos heof] at hps
    exact hps _ (by simp)
  · intro heof
    rw [if_neg (by simp [heof])] at hpartial
    exact hpartial

/-- The packets of a longer stream. -/
lemma packets_prefix (l r : List TLPData) : (packets l).1 <+: (packets (l ++ r)).1 := by
  induction r using List.reverseRecOn with
  | nil => simp
  | append_singleton r t ih =>
    rw [← List.append_assoc, packets_concat]
    unfold addBeat
    split
    · exact ih.trans (List.prefix_append _ _)
    · exact ih

/-- A part of a stream from its beginning on is a stream. -/
lemma IsStream.of_append {l r : List TLPData} (h : IsStream (l ++ r)) : IsStream l := by
  induction r using List.reverseRecOn with
  | nil => simpa using h
  | append_singleton r t ih =>
    rw [← List.append_assoc] at h
    exact ih h.of_concat.1

/-- Beats that do not end a packet. -/
lemma packets_append {l ts : List TLPData} (h : ∀ t ∈ ts, t.eof = false) :
    packets (l ++ ts) = ((packets l).1, (packets l).2 ++ ts) := by
  induction ts using List.reverseRecOn with
  | nil => simp
  | append_singleton ts t ih =>
    have ht : t.eof = false := h t (by simp)
    rw [← List.append_assoc, packets_concat, ih fun t' ht' => h t' (by simp [ht'])]
    simp [addBeat, ht]

/-- The packets of a stream that is made of packets. -/
lemma packets_flatten {ps : List (List TLPData)} (h : ∀ p ∈ ps, IsPacket p) :
    packets ps.flatten = (ps, []) := by
  induction ps using List.reverseRecOn with
  | nil => rfl
  | append_singleton ps p ih =>
    obtain ⟨-, ts, t, rfl, ht, hts⟩ := h p (by simp)
    have hrest := ih fun p' hp' => h p' (by simp [hp'])
    rw [List.flatten_append, List.flatten_singleton, ← List.append_assoc, packets_concat,
      packets_append hts, hrest]
    simp [addBeat, ht]

/-- Packets make a stream. -/
lemma isStream_flatten {ps : List (List TLPData)} (h : ∀ p ∈ ps, IsPacket p) : IsStream ps.flatten := by
  unfold IsStream
  rw [packets_flatten h]
  exact ⟨h, trivial, fun t ht => by cases ht⟩

/-! ## The ports -/

/-- `PortMax`. -/
abbrev portMax : ℕ := 4

abbrev portConfig : Fin portMax := 0
abbrev portPortal : Fin portMax := 1
abbrev portInterrupt : Fin portMax := 2
abbrev portAxi : Fin portMax := 3

/-- The places of the queues of the ports, `mkGFIFOF`. -/
def portPlaces : ℕ := 2

/-! ## The dispatcher -/

/-- A short read, or a short write that is not a completion. -/
def isPlainRequest (hdr3dw : TLPMemoryIO3DWHeader) : Bool :=
  hdr3dw.format = .memRead3DWNoData ∨
    (hdr3dw.format = .memWrite3DWData ∧ hdr3dw.pkttype ≠ pkttypeCompletion)

def configMatch (tlp : TLPData) (hdr3dw : TLPMemoryIO3DWHeader) : Bool :=
  tlp.hit = 0x01 ∧ isPlainRequest hdr3dw = true

def axiMatch (tlp : TLPData) (hdr3dw : TLPMemoryIO3DWHeader) : Bool :=
  tlp.hit = 0x04 ∧ isPlainRequest hdr3dw = true

def axiCompletionMatch (_tlp : TLPData) (hdr3dw : TLPMemoryIO3DWHeader) : Bool :=
  hdr3dw.format = .memWrite3DWData ∧ hdr3dw.pkttype = pkttypeCompletion

/-- `matchFunctions`; none is assigned to `portInterrupt`, which does not match then. -/
def matchFunctions (port : Fin portMax) : TLPData → TLPMemoryIO3DWHeader → Bool :=
  if port = portConfig then configMatch
  else if port = portPortal then axiMatch
  else if port = portAxi then axiCompletionMatch
  else fun _ _ => false

/-- The header in a first beat matches a port. -/
def matchesPort (tlp : TLPData) (port : Fin portMax) : Bool :=
  matchFunctions port tlp (.unpack tlp.data)

/-- The port the loop over the ports comes to, the first one that matches. -/
def matchedPort (tlp : TLPData) : Option (Fin portMax) :=
  Fin.find? (matchesPort tlp)

/-- The state of `mkTLPDispatcher`. -/
structure TLPDispatcher where
  tlpInFifo : Fifo 2 TLPData
  tlpOutFifo : Fin portMax → List TLPData
  routeToPort : Option (Fin portMax)

namespace TLPDispatcher

/-- After reset. -/
def reset : TLPDispatcher := ⟨.empty, fun _ => [], none⟩

/-- `notFull` of a queue. -/
def notFull (s : TLPDispatcher) (port : Fin portMax) : Bool := (s.tlpOutFifo port).length < portPlaces

/-- `enq` of a queue, which is not guarded. -/
def enqOut (s : TLPDispatcher) (port : Fin portMax) (tlp : TLPData) : TLPDispatcher :=
  { s with tlpOutFifo := Function.update s.tlpOutFifo port (s.tlpOutFifo port ++ [tlp]) }

/-- Rule `dispatch_incoming_TLP`. -/
def dispatchIncomingTLP (s : TLPDispatcher) : Option TLPDispatcher := do
  let (tlp, q) ← s.tlpInFifo.deq
  if tlp.sof then
    match matchedPort tlp with
    | some port =>
      if s.notFull port then
        some { s.enqOut port tlp with
          tlpInFifo := q, routeToPort := if tlp.eof then s.routeToPort else some port }
      else some s
    | none => some { s with tlpInFifo := q }
  else
    match s.routeToPort with
    | some port =>
      if s.notFull port then
        some { s.enqOut port tlp with
          tlpInFifo := q, routeToPort := if tlp.eof then none else s.routeToPort }
      else some s
    | none => some { s with tlpInFifo := q }

/-- The port a beat is for. -/
def target (s : TLPDispatcher) (tlp : TLPData) : Option (Fin portMax) :=
  if tlp.sof then matchedPort tlp else s.routeToPort

/-- The register after a beat that is for a port. -/
def nextRoute (s : TLPDispatcher) (tlp : TLPData) (port : Fin portMax) : Option (Fin portMax) :=
  if tlp.sof then if tlp.eof then s.routeToPort else some port
  else if tlp.eof then none else s.routeToPort

/-- The rule takes a beat and hands it on or discards it, or leaves everything as it is because the queue of the
port is full. -/
lemma dispatch_cases {s s' : TLPDispatcher} (h : s.dispatchIncomingTLP = some s') :
    ∃ tlp q, s.tlpInFifo.items = tlp :: q.items ∧
      ((s.target tlp = none ∧ s' = { s with tlpInFifo := q }) ∨
        ∃ port, s.target tlp = some port ∧
          ((s.notFull port = false ∧ s' = s) ∨
            (s.notFull port = true ∧
              s' = { s.enqOut port tlp with tlpInFifo := q, routeToPort := s.nextRoute tlp port }))) := by
  unfold dispatchIncomingTLP at h
  obtain ⟨⟨tlp, q⟩, hdeq, h⟩ := Option.bind_eq_some_iff.mp h
  refine ⟨tlp, q, Fifo.deq_eq_some.mp hdeq, ?_⟩
  unfold target nextRoute
  by_cases hsof : tlp.sof = true
  · simp only [hsof, if_true] at h ⊢
    cases hport : matchedPort tlp with
    | none =>
      simp only [hport, Option.some.injEq] at h
      exact .inl ⟨rfl, h.symm⟩
    | some port =>
      simp only [hport] at h
      refine .inr ⟨port, rfl, ?_⟩
      by_cases hfull : s.notFull port = true
      · rw [if_pos hfull, Option.some.injEq] at h
        exact .inr ⟨hfull, h.symm⟩
      · rw [if_neg hfull, Option.some.injEq] at h
        exact .inl ⟨by simpa using hfull, h.symm⟩
  · simp only [hsof] at h ⊢
    cases hport : s.routeToPort with
    | none =>
      simp only [hport] at h
      exact .inl ⟨by simp, by simpa using h.symm⟩
    | some port =>
      simp only [hport] at h
      refine .inr ⟨port, by simp, ?_⟩
      by_cases hfull : s.notFull port = true
      · simp only [hfull, if_true] at h
        exact .inr ⟨hfull, by simpa using h.symm⟩
      · simp only [hfull] at h
        exact .inl ⟨by simpa using hfull, by simpa using h.symm⟩

/-- The rule can fire when there is a beat. -/
lemma exists_dispatch {s : TLPDispatcher} {tlp : TLPData} {rest : List TLPData}
    (h : s.tlpInFifo.items = tlp :: rest) : ∃ s', s.dispatchIncomingTLP = some s' := by
  obtain ⟨q, hdeq, -⟩ := Fifo.exists_deq h
  unfold dispatchIncomingTLP
  rw [hdeq]
  simp only [bind, Option.bind_some]
  split
  · split
    · split <;> exact ⟨_, rfl⟩
    · exact ⟨_, rfl⟩
  · split
    · split <;> exact ⟨_, rfl⟩
    · exact ⟨_, rfl⟩

/-- `get` of a port, which is guarded. -/
def getOut (s : TLPDispatcher) (port : Fin portMax) : Option (TLPData × TLPDispatcher) :=
  match s.tlpOutFifo port with
  | [] => none
  | tlp :: rest => some (tlp, { s with tlpOutFifo := Function.update s.tlpOutFifo port rest })

lemma getOut_eq_some {s s' : TLPDispatcher} {port : Fin portMax} {tlp : TLPData} :
    s.getOut port = some (tlp, s') ↔ ∃ rest, s.tlpOutFifo port = tlp :: rest ∧
      s' = { s with tlpOutFifo := Function.update s.tlpOutFifo port rest } := by
  unfold getOut
  cases hq : s.tlpOutFifo port with
  | nil => simp
  | cons x rest =>
    simp only [Option.some.injEq, Prod.mk.injEq, List.cons.injEq]
    constructor
    · rintro ⟨rfl, rfl⟩
      exact ⟨rest, ⟨rfl, rfl⟩, rfl⟩
    · rintro ⟨_, ⟨rfl, rfl⟩, rfl⟩
      exact ⟨rfl, rfl⟩

/-- The methods and the rule. -/
inductive Action where
  | put (tlp : TLPData)
  | dispatchIncomingTLP
  | get (port : Fin portMax)

/-- The beats that go in and out. -/
inductive Event where
  | put (tlp : TLPData)
  | get (port : Fin portMax) (tlp : TLPData)

end TLPDispatcher

open TLPDispatcher in
/-- `mkTLPDispatcher`. -/
def tlpDispatcher : RuleSystem TLPDispatcher TLPDispatcher.Action TLPDispatcher.Event where
  step s
    | .put tlp => do
      let q ← s.tlpInFifo.enq tlp
      pure ({ s with tlpInFifo := q }, [.put tlp])
    | .dispatchIncomingTLP => do
      let s' ← s.dispatchIncomingTLP
      pure (s', [])
    | .get port => do
      let (tlp, s') ← s.getOut port
      pure (s', [.get port tlp])

/-! ## The arbiter -/

/-- The state of `mkTLPArbiter`. -/
structure TLPArbiter where
  tlpOutFifo : Fifo 2 TLPData
  tlpInFifo : Fin portMax → List TLPData
  routeFrom : Option (Fin portMax)

namespace TLPArbiter

/-- After reset. -/
def reset : TLPArbiter := ⟨.empty, fun _ => [], none⟩

/-- `notEmpty` of a queue. -/
def notEmpty (s : TLPArbiter) (port : Fin portMax) : Bool := (s.tlpInFifo port).length ≠ 0

/-- The methods and the rule. `stale` is what the memory of an empty queue holds. -/
inductive Action where
  | put (port : Fin portMax) (tlp : TLPData)
  | arbitrateOutgoingTLP (stale : TLPData)
  | get

/-- The beats that go in and out, and those that are taken from the queues of the ports, with `empty` if the
queue was empty. -/
inductive Event where
  | put (port : Fin portMax) (tlp : TLPData)
  | deq (port : Fin portMax) (empty : Bool) (tlp : TLPData)
  | get (tlp : TLPData)

/-- `get` of a queue, which is not guarded. -/
def getIn (s : TLPArbiter) (port : Fin portMax) (stale : TLPData) : TLPArbiter × Event :=
  ({ s with tlpInFifo := Function.update s.tlpInFifo port (s.tlpInFifo port).tail },
    .deq port (s.tlpInFifo port).isEmpty ((s.tlpInFifo port).headD stale))

/-- The beat `get` gives. -/
def firstIn (s : TLPArbiter) (port : Fin portMax) (stale : TLPData) : TLPData :=
  (s.tlpInFifo port).headD stale

/-- The port the loop over the ports comes to, the first one whose queue is not empty. -/
def readyPort (s : TLPArbiter) : Option (Fin portMax) := Fin.find? s.notEmpty

/-- Rule `arbitrate_outgoing_TLP`. -/
def arbitrateOutgoingTLP (s : TLPArbiter) (stale : TLPData) : Option (TLPArbiter × List Event) :=
  match s.routeFrom with
  | some port =>
    if s.notEmpty port then do
      let tlp := s.firstIn port stale
      let q ← s.tlpOutFifo.enq tlp
      let (s', e) := s.getIn port stale
      pure ({ s' with tlpOutFifo := q, routeFrom := if tlp.eof then none else s.routeFrom }, [e])
    else some (s, [])
  | none =>
    match s.readyPort with
    | some port =>
      let tlp := s.firstIn port stale
      let (s', e) := s.getIn port stale
      if tlp.sof then do
        let q ← s.tlpOutFifo.enq tlp
        pure ({ s' with tlpOutFifo := q, routeFrom := if tlp.eof then none else some port }, [e])
      else some (s', [e])
    | none => some (s, [])

/-- A beat is taken from the queue of a port. -/
def takeIn (s : TLPArbiter) (port : Fin portMax) (rest : List TLPData) : TLPArbiter :=
  { s with tlpInFifo := Function.update s.tlpInFifo port rest }

/-- `get` of a queue that is not empty. -/
lemma getIn_of_cons {s : TLPArbiter} {port : Fin portMax} {t : TLPData} {rest : List TLPData}
    (h : s.tlpInFifo port = t :: rest) (stale : TLPData) :
    s.getIn port stale = (s.takeIn port rest, .deq port false t) ∧ s.firstIn port stale = t := by
  unfold getIn firstIn takeIn
  rw [h]
  exact ⟨rfl, rfl⟩

/-- The rule hands on a beat of the port it listens to, of the first port with a beat if there is none; it drops a
beat that does not begin a packet if it listens to none, and does nothing if there is no beat. -/
lemma arbitrate_cases {s s' : TLPArbiter} {stale : TLPData} {es : List Event}
    (h : s.arbitrateOutgoingTLP stale = some (s', es)) :
    (s' = s ∧ es = []) ∨
      ∃ port t rest, s.tlpInFifo port = t :: rest ∧ es = [.deq port false t] ∧
        (((s.routeFrom = some port ∨ (s.routeFrom = none ∧ t.sof = true)) ∧
          ∃ q, s.tlpOutFifo.enq t = some q ∧ s' = { s.takeIn port rest with
            tlpOutFifo := q, routeFrom := if t.eof then none else some port }) ∨
        (s.routeFrom = none ∧ t.sof = false ∧ s' = s.takeIn port rest)) := by
  unfold arbitrateOutgoingTLP at h
  cases hroute : s.routeFrom with
  | some port =>
    simp only [hroute] at h
    cases hq : s.tlpInFifo port with
    | nil =>
      have hempty : s.notEmpty port = false := by simp [notEmpty, hq]
      simp only [hempty] at h
      cases h
      exact .inl ⟨rfl, rfl⟩
    | cons t rest =>
      have hempty : s.notEmpty port = true := by simp [notEmpty, hq]
      obtain ⟨hget, hfirst⟩ := getIn_of_cons hq stale
      simp only [hempty, if_true, hget, hfirst] at h
      obtain ⟨q, hq', h⟩ := Option.bind_eq_some_iff.mp h
      cases h
      exact .inr ⟨port, t, rest, hq, rfl, .inl ⟨.inl rfl, q, hq', rfl⟩⟩
  | none =>
    simp only [hroute] at h
    cases hready : s.readyPort with
    | none =>
      simp only [hready] at h
      cases h
      exact .inl ⟨rfl, rfl⟩
    | some port =>
      have hempty : s.notEmpty port = true := (Fin.find?_eq_some_iff.mp hready).1
      have hne : s.tlpInFifo port ≠ [] := fun hnil => by simp [notEmpty, hnil] at hempty
      obtain ⟨t, rest, hq⟩ := List.exists_cons_of_ne_nil hne
      obtain ⟨hget, hfirst⟩ := getIn_of_cons hq stale
      simp only [hready, hget, hfirst] at h
      refine .inr ⟨port, t, rest, hq, ?_⟩
      by_cases hsof : t.sof = true
      · simp only [hsof, if_true] at h
        obtain ⟨q, hq', h⟩ := Option.bind_eq_some_iff.mp h
        cases h
        exact ⟨rfl, .inl ⟨.inr ⟨rfl, hsof⟩, q, hq', rfl⟩⟩
      · simp only [hsof] at h
        cases h
        exact ⟨rfl, .inr ⟨rfl, by simpa using hsof, rfl⟩⟩

/-- With room at the output, the rule takes a beat if the port it listens to has one, or if it listens to none and
some port has one. -/
lemma exists_arbitrate {s : TLPArbiter} (hout : s.tlpOutFifo.items = []) {port : Fin portMax}
    (hport : s.routeFrom = some port ∨ s.routeFrom = none) (hne : s.tlpInFifo port ≠ []) (stale : TLPData) :
    ∃ s' port' t, s.arbitrateOutgoingTLP stale = some (s', [.deq port' false t]) := by
  have henq (t : TLPData) : ∃ q, s.tlpOutFifo.enq t = some q := by
    obtain ⟨q, hq, -⟩ := Fifo.exists_enq (q := s.tlpOutFifo) (by rw [hout]; decide) t
    exact ⟨q, hq⟩
  unfold arbitrateOutgoingTLP
  rcases hport with hroute | hroute
  · have hempty : s.notEmpty port = true := by simpa [notEmpty] using hne
    obtain ⟨t, rest, hq⟩ := List.exists_cons_of_ne_nil hne
    obtain ⟨hget, hfirst⟩ := getIn_of_cons hq stale
    obtain ⟨q, hq'⟩ := henq t
    simp only [hroute, hempty, if_true, hget, hfirst, hq']
    exact ⟨_, port, t, rfl⟩
  · obtain ⟨port', hready⟩ : ∃ port', s.readyPort = some port' := by
      refine Option.isSome_iff_exists.mp (Fin.isSome_find?_iff.mpr ⟨port, ?_⟩)
      simpa [notEmpty] using hne
    have hempty : s.notEmpty port' = true := (Fin.find?_eq_some_iff.mp hready).1
    have hne' : s.tlpInFifo port' ≠ [] := fun hnil => by simp [notEmpty, hnil] at hempty
    obtain ⟨t, rest, hq⟩ := List.exists_cons_of_ne_nil hne'
    obtain ⟨hget, hfirst⟩ := getIn_of_cons hq stale
    obtain ⟨q, hq'⟩ := henq t
    simp only [hroute, hready, hget, hfirst, hq']
    split <;> exact ⟨_, port', t, rfl⟩

/-- `put` of a port, which is guarded. -/
def putIn (s : TLPArbiter) (port : Fin portMax) (tlp : TLPData) : Option TLPArbiter :=
  if (s.tlpInFifo port).length < portPlaces then
    some { s with tlpInFifo := Function.update s.tlpInFifo port (s.tlpInFifo port ++ [tlp]) }
  else none

end TLPArbiter

open TLPArbiter in
/-- `mkTLPArbiter`. -/
def tlpArbiter : RuleSystem TLPArbiter TLPArbiter.Action TLPArbiter.Event where
  step s
    | .put port tlp => do
      let s' ← s.putIn port tlp
      pure (s', [.put port tlp])
    | .arbitrateOutgoingTLP stale => s.arbitrateOutgoingTLP stale
    | .get => do
      let (tlp, q) ← s.tlpOutFifo.deq
      pure ({ s with tlpOutFifo := q }, [.get tlp])

end Xbsv
