import Xbsv.Pcie.Splitter
import Xbsv.Rules.Drain

set_option relaxedAutoImplicit false
set_option autoImplicit false

/-!
# Packets from the bus

Every packet from the bus goes to the first port its header matches, all of its beats one after the other, and
a packet that matches no port goes nowhere. The register `routeToPort` holds the port of the packet under way,
which the later beats do not tell.

## Main definitions

* `Xbsv.goesTo` — the port a packet is for.
* `Xbsv.portStream` — what a port gets of a stream.
* `Xbsv.Dispatched` — the invariant: what has been taken from the bus is at the ports.

## Main results

* `Xbsv.dispatch_packets` — every port gets its packets, and none of the queues is overrun.
-/

namespace Xbsv

open Rules TLPDispatcher

/-- The packet is for the port: the header matches it, and no port before it. -/
def goesTo (port : Fin portMax) : List TLPData → Bool
  | [] => false
  | t :: _ => matchesPort t port && decide (∀ q < port, matchesPort t q = false)

/-- What a port gets of a stream: its packets, and what there is of the last one if it is for the port. -/
def portStream (port : Fin portMax) (l : List TLPData) : List TLPData :=
  ((packets l).1.filter (goesTo port)).flatten ++ if goesTo port (packets l).2 then (packets l).2 else []

/-- The port that is found for a packet, by its first beat. -/
def headPort (p : List TLPData) : Option (Fin portMax) := p.head?.bind matchedPort

/-- The loop over the ports finds the one a packet is for. -/
lemma goesTo_iff {port : Fin portMax} {p : List TLPData} : goesTo port p = true ↔ headPort p = some port := by
  cases p with
  | nil => simp [goesTo, headPort]
  | cons t ts =>
    show (matchesPort t port && decide (∀ q < port, matchesPort t q = false)) = true ↔ matchedPort t = some port
    unfold matchedPort
    rw [Fin.find?_eq_some_iff, Bool.and_eq_true, decide_eq_true_iff]

/-- The port of a packet, with one more beat. -/
lemma headPort_concat (p : List TLPData) (t : TLPData) :
    headPort (p ++ [t]) = if p.isEmpty then matchedPort t else headPort p := by
  cases p with
  | nil => rfl
  | cons t' p => rfl

/-- What a port gets of a stream, with one more beat. -/
lemma portStream_concat (port : Fin portMax) (l : List TLPData) (t : TLPData) :
    portStream port (l ++ [t]) =
      portStream port l ++ if headPort ((packets l).2 ++ [t]) = some port then [t] else [] := by
  have hnil : goesTo port [] = false := rfl
  -- what there is of the packet under way, as part of the one with the beat
  have hpartial : (if goesTo port (packets l).2 then (packets l).2 else []) =
      if headPort ((packets l).2 ++ [t]) = some port then (packets l).2 else [] := by
    cases hp : (packets l).2 with
    | nil => simp
    | cons t' p =>
      have hhead : headPort (t' :: p ++ [t]) = headPort (t' :: p) := rfl
      rw [hhead]
      exact if_congr goesTo_iff rfl rfl
  unfold portStream
  rw [packets_concat, hpartial]
  unfold addBeat
  by_cases heof : t.eof = true
  · rw [if_pos heof]
    by_cases hport : headPort ((packets l).2 ++ [t]) = some port
    · rw [List.filter_append, List.filter_cons_of_pos (goesTo_iff.mpr hport)]
      simp [hport, hnil]
    · have hgoes : ¬ goesTo port ((packets l).2 ++ [t]) = true := fun h => hport (goesTo_iff.mp h)
      rw [List.filter_append, List.filter_cons_of_neg hgoes]
      simp [hport, hnil]
  · rw [if_neg heof, if_congr goesTo_iff rfl rfl]
    by_cases hport : headPort ((packets l).2 ++ [t]) = some port
    · simp [hport]
    · simp [hport]

/-- A port gets more of a longer stream. -/
lemma portStream_prefix (port : Fin portMax) (l r : List TLPData) :
    portStream port l <+: portStream port (l ++ r) := by
  induction r using List.reverseRecOn with
  | nil => simp
  | append_singleton r t ih =>
    rw [← List.append_assoc, portStream_concat]
    exact ih.trans (List.prefix_append _ _)

/-- What a port gets of whole packets. -/
lemma portStream_flatten {ps : List (List TLPData)} (h : ∀ p ∈ ps, IsPacket p) (port : Fin portMax) :
    portStream port ps.flatten = (ps.filter (goesTo port)).flatten := by
  unfold portStream
  rw [packets_flatten h]
  simp

/-! ## The beats that go in and out -/

namespace TLPDispatcher

/-- The beats from the bus. -/
def puts (tr : List Event) : List TLPData :=
  tr.filterMap fun
    | .put tlp => some tlp
    | _ => none

/-- The beats that have been taken from a port. -/
def gets (port : Fin portMax) (tr : List Event) : List TLPData :=
  tr.filterMap fun
    | .get port' tlp => if port' = port then some tlp else none
    | _ => none

@[simp] lemma puts_append (tr es : List Event) : puts (tr ++ es) = puts tr ++ puts es :=
  List.filterMap_append

@[simp] lemma gets_append (port : Fin portMax) (tr es : List Event) :
    gets port (tr ++ es) = gets port tr ++ gets port es := List.filterMap_append

end TLPDispatcher

/-! ## The invariant -/

/-- What has been taken from the bus, `l`, is at the ports, and the register holds the port of the packet under
way. -/
structure Dispatched (tr : List Event) (s : TLPDispatcher) (l : List TLPData) : Prop where
  taken : puts tr = l ++ s.tlpInFifo.items
  ports : ∀ port, gets port tr ++ s.tlpOutFifo port = portStream port l
  route : s.routeToPort = headPort (packets l).2
  length_le : ∀ port, (s.tlpOutFifo port).length ≤ portPlaces

namespace Dispatched

variable {tr : List Event} {s s' : TLPDispatcher} {l : List TLPData} {t : TLPData} {port : Fin portMax}

lemma reset : Dispatched [] TLPDispatcher.reset [] :=
  ⟨rfl, fun _ => rfl, rfl, fun _ => Nat.zero_le _⟩

/-- The port a beat is for is the port of its packet. -/
lemma target_eq (h : Dispatched tr s l) (hl : IsStream (l ++ [t])) :
    s.target t = headPort ((packets l).2 ++ [t]) := by
  unfold target
  rw [hl.of_concat.2, headPort_concat, h.route]

/-- The register after a beat that has been taken. -/
lemma nextRoute_eq (h : Dispatched tr s l) (hl : IsStream (l ++ [t])) (hport : s.target t = some port) :
    s.nextRoute t port = headPort (packets (l ++ [t])).2 := by
  have hsof := hl.of_concat.2
  have htarget := (h.target_eq hl).symm.trans hport
  have hroute := h.route
  unfold nextRoute
  rw [packets_concat, hsof]
  unfold addBeat
  cases hp : (packets l).2 with
  | nil =>
    rw [hp] at hroute htarget
    by_cases heof : t.eof = true
    · simp [heof, hroute, headPort]
    · simp only [heof, List.isEmpty_nil, if_true]
      exact htarget.symm
  | cons t' p =>
    rw [hp] at hroute
    by_cases heof : t.eof = true
    · simp [heof, headPort]
    · simp only [heof, List.isEmpty_cons, Bool.false_eq_true, if_false]
      exact hroute

/-- The register if a beat is discarded. -/
lemma route_of_discard (h : Dispatched tr s l) (hl : IsStream (l ++ [t])) (hport : s.target t = none) :
    s.routeToPort = headPort (packets (l ++ [t])).2 := by
  have htarget := (h.target_eq hl).symm.trans hport
  have hroute : s.routeToPort = none := by
    rw [h.route]
    rw [headPort_concat] at htarget
    cases hp : (packets l).2 with
    | nil => rfl
    | cons t' p =>
      rw [hp] at htarget
      exact htarget
  rw [hroute, packets_concat]
  unfold addBeat
  by_cases heof : t.eof = true
  · simp [heof, headPort]
  · simp only [heof, Bool.false_eq_true, if_false]
    exact htarget.symm

/-- The rule hands on a beat, discards it, or waits. -/
lemma dispatch (h : Dispatched tr s l) (hok : IsStream (TLPDispatcher.puts tr))
    (hs : s.dispatchIncomingTLP = some s') :
    ∃ l', Dispatched tr s' l' := by
  obtain ⟨t, q, hq, hcases⟩ := dispatch_cases hs
  have hputs : TLPDispatcher.puts tr = l ++ [t] ++ q.items := by
    rw [h.taken, hq]
    simp
  have hl : IsStream (l ++ [t]) := (hputs ▸ hok).of_append
  have htarget := h.target_eq hl
  rcases hcases with ⟨hport, rfl⟩ | ⟨port, hport, ⟨-, rfl⟩ | ⟨hfull, rfl⟩⟩
  · refine ⟨l ++ [t], hputs, fun port => ?_, h.route_of_discard hl hport, h.length_le⟩
    rw [portStream_concat, ← htarget, hport]
    simpa using h.ports port
  · exact ⟨l, h⟩
  · refine ⟨l ++ [t], hputs, fun port' => ?_, h.nextRoute_eq hl hport, fun port' => ?_⟩
    · show TLPDispatcher.gets port' tr ++
        Function.update s.tlpOutFifo port (s.tlpOutFifo port ++ [t]) port' = _
      rw [portStream_concat, ← htarget, hport]
      by_cases heq : port' = port
      · subst heq
        rw [Function.update_self, ← List.append_assoc, h.ports, if_pos rfl]
      · have hne : ¬ some port = some port' := fun he => heq (Option.some.inj he).symm
        rw [Function.update_of_ne heq, if_neg hne, List.append_nil, h.ports]
    · show (Function.update s.tlpOutFifo port (s.tlpOutFifo port ++ [t]) port').length ≤ _
      by_cases heq : port' = port
      · subst heq
        have hlt : (s.tlpOutFifo port').length < portPlaces := by simpa [notFull] using hfull
        rw [Function.update_self, List.length_append, List.length_singleton]
        omega
      · rw [Function.update_of_ne heq]
        exact h.length_le port'

/-- A beat is taken from a port. -/
lemma get (h : Dispatched tr s l) (hs : s.getOut port = some (t, s')) :
    Dispatched (tr ++ [TLPDispatcher.Event.get port t]) s' l := by
  obtain ⟨rest, hq, rfl⟩ := getOut_eq_some.mp hs
  refine ⟨?_, fun port' => ?_, h.route, fun port' => ?_⟩
  · rw [puts_append]
    simpa [TLPDispatcher.puts] using h.taken
  · show TLPDispatcher.gets port' (tr ++ [TLPDispatcher.Event.get port t]) ++
      Function.update s.tlpOutFifo port rest port' = _
    rw [gets_append, ← h.ports port']
    by_cases heq : port' = port
    · subst heq
      rw [Function.update_self, hq]
      simp [TLPDispatcher.gets]
    · rw [Function.update_of_ne heq]
      simp [TLPDispatcher.gets, Ne.symm heq]
  · show (Function.update s.tlpOutFifo port rest port').length ≤ _
    have hle := h.length_le port
    rw [hq, List.length_cons] at hle
    by_cases heq : port' = port
    · subst heq
      rw [Function.update_self]
      omega
    · rw [Function.update_of_ne heq]
      exact h.length_le port'

/-- A beat comes from the bus. -/
lemma put (h : Dispatched tr s l) {q : Fifo 2 TLPData} (hq : s.tlpInFifo.enq t = some q) :
    Dispatched (tr ++ [TLPDispatcher.Event.put t]) { s with tlpInFifo := q } l := by
  obtain ⟨-, hitems⟩ := Fifo.enq_eq_some.mp hq
  refine ⟨?_, fun port => ?_, h.route, h.length_le⟩
  · rw [puts_append, h.taken, hitems, List.append_assoc]
    rfl
  · rw [gets_append]
    simpa [TLPDispatcher.gets] using h.ports port

/-- Every step. -/
lemma step (h : Dispatched tr s l) {a : Action} {es : List Event}
    (hok : IsStream (TLPDispatcher.puts (tr ++ es))) (hs : tlpDispatcher.step s a = some (s', es)) :
    ∃ l', Dispatched (tr ++ es) s' l' := by
  cases a with
  | put t =>
    obtain ⟨q, hq, hs⟩ := Option.bind_eq_some_iff.mp hs
    cases hs
    exact ⟨l, h.put hq⟩
  | dispatchIncomingTLP =>
    obtain ⟨s₁, hs₁, hs⟩ := Option.bind_eq_some_iff.mp hs
    cases hs
    rw [List.append_nil] at hok ⊢
    exact h.dispatch hok hs₁
  | get port =>
    obtain ⟨⟨t, s₁⟩, hs₁, hs⟩ := Option.bind_eq_some_iff.mp hs
    cases hs
    exact ⟨l, h.get hs₁⟩

end Dispatched

/-- The invariant holds in every run in which a stream of packets comes from the bus. -/
lemma exists_dispatched {tr : List Event} {s : TLPDispatcher} (h : tlpDispatcher.Reaches .reset tr s)
    (hok : IsStream (puts tr)) : ∃ l, Dispatched tr s l := by
  refine h.invariant (I := fun tr (s : TLPDispatcher) => IsStream (puts tr) → ∃ l, Dispatched tr s l)
    (fun _ => ⟨[], .reset⟩) ?_ hok
  intro tr s a s' es ih hs hok
  rw [puts_append] at hok
  obtain ⟨l, hl⟩ := ih hok.of_append
  rw [← puts_append] at hok
  exact hl.step hok hs

/-! ## Progress -/

namespace TLPDispatcher

/-- The steps that are still needed if `n` beats come. -/
def load (n : ℕ) (tr : List Event) (s : TLPDispatcher) : ℕ :=
  3 * (n - (puts tr).length) + 2 * s.tlpInFifo.items.length + ∑ port, (s.tlpOutFifo port).length

/-- The dispatcher holds no beat. -/
def IsEmpty (s : TLPDispatcher) : Prop := s.tlpInFifo.items = [] ∧ ∀ port, s.tlpOutFifo port = []

/-- A beat can be taken from a port. -/
lemma exists_get {s : TLPDispatcher} {port : Fin portMax} (h : s.tlpOutFifo port ≠ []) (n : ℕ) (tr : List Event) :
    ∃ s' t, tlpDispatcher.step s (.get port) = some (s', [.get port t]) ∧
      load n (tr ++ [Event.get port t]) s' < load n tr s := by
  obtain ⟨t, rest, hq⟩ := List.exists_cons_of_ne_nil h
  refine ⟨{ s with tlpOutFifo := Function.update s.tlpOutFifo port rest }, t, ?_, ?_⟩
  · have hget := getOut_eq_some.mpr ⟨rest, hq, rfl⟩
    simp only [tlpDispatcher, hget, bind, pure, Option.bind_some]
  · have hsum := sum_length_update s.tlpOutFifo port rest
    have hputs : puts [.get port t] = [] := rfl
    rw [hq, List.length_cons] at hsum
    simp only [load, puts_append, hputs, List.append_nil]
    omega

/-- When nothing is left at the ports, the rule takes the next beat. -/
lemma exists_take {s : TLPDispatcher} {t : TLPData} {rest : List TLPData} (h : s.tlpInFifo.items = t :: rest)
    (hout : ∀ port, s.tlpOutFifo port = []) (n : ℕ) (tr : List Event) :
    ∃ s', tlpDispatcher.step s .dispatchIncomingTLP = some (s', []) ∧ load n tr s' < load n tr s := by
  obtain ⟨s', hs'⟩ := exists_dispatch h
  refine ⟨s', by simp only [tlpDispatcher, hs', bind, pure, Option.bind_some], ?_⟩
  obtain ⟨t', q, hq, hcases⟩ := dispatch_cases hs'
  have hlen : s.tlpInFifo.items.length = q.items.length + 1 := by rw [hq, List.length_cons]
  rcases hcases with ⟨-, rfl⟩ | ⟨port, -, ⟨hfull, -⟩ | ⟨-, rfl⟩⟩
  · simp only [load]
    omega
  · simp [notFull, hout port, portPlaces] at hfull
  · have hsum := sum_length_update s.tlpOutFifo port (s.tlpOutFifo port ++ [t'])
    rw [List.length_append, List.length_singleton] at hsum
    simp only [load, enqOut]
    omega

/-- When nothing is under way, the next beat can come. -/
lemma exists_put {s : TLPDispatcher} (h : s.IsEmpty) (t : TLPData) (tr : List Event) {n : ℕ}
    (hn : (puts tr).length < n) :
    ∃ s', tlpDispatcher.step s (.put t) = some (s', [.put t]) ∧ load n (tr ++ [Event.put t]) s' < load n tr s := by
  obtain ⟨q, hq, hitems⟩ := Fifo.exists_enq (q := s.tlpInFifo) (by rw [h.1]; decide) t
  refine ⟨{ s with tlpInFifo := q }, by simp only [tlpDispatcher, hq, bind, pure, Option.bind_some], ?_⟩
  have hputs : puts [.put t] = [t] := rfl
  simp only [load, puts_append, hputs, hitems, List.length_append, List.length_singleton]
  omega

end TLPDispatcher

/-- Whatever has happened, all packets can be brought to their ports and taken from there. -/
lemma Dispatched.exists_complete {tr : List Event} {s : TLPDispatcher} {l : List TLPData}
    (h : Dispatched tr s l) {ps : List (List TLPData)} (hps : ∀ p ∈ ps, IsPacket p)
    (hin : puts tr <+: ps.flatten) :
    ∃ tr' s', tlpDispatcher.Reaches s tr' s' ∧ (∃ l', Dispatched (tr ++ tr') s' l') ∧
      puts (tr ++ tr') = ps.flatten ∧ s'.IsEmpty := by
  have hok {l : List TLPData} (hl : l <+: ps.flatten) : IsStream l := by
    obtain ⟨r, hr⟩ := hl
    exact (hr ▸ isStream_flatten hps).of_append
  have hprogress (t : List Event) (s : TLPDispatcher)
      (hI : (∃ l, Dispatched t s l) ∧ puts t <+: ps.flatten) :
      (puts t = ps.flatten ∧ s.IsEmpty) ∨ ∃ a s' es, tlpDispatcher.step s a = some (s', es) ∧
        ((∃ l, Dispatched (t ++ es) s' l) ∧ puts (t ++ es) <+: ps.flatten) ∧
        load ps.flatten.length (t ++ es) s' < load ps.flatten.length t s := by
    obtain ⟨⟨l, hl⟩, hin⟩ := hI
    by_cases hout : ∃ port, s.tlpOutFifo port ≠ []
    · obtain ⟨port, hport⟩ := hout
      obtain ⟨s', x, hs, hlt⟩ := exists_get hport ps.flatten.length t
      have hin' : puts (t ++ [TLPDispatcher.Event.get port x]) <+: ps.flatten := by simpa [puts] using hin
      exact .inr ⟨_, s', _, hs, ⟨hl.step (hok hin') hs, hin'⟩, hlt⟩
    · have hout : ∀ port, s.tlpOutFifo port = [] := by simpa using hout
      cases hq : s.tlpInFifo.items with
      | cons x rest =>
        obtain ⟨s', hs, hlt⟩ := exists_take hq hout ps.flatten.length t
        have hin' : puts (t ++ []) <+: ps.flatten := by simpa using hin
        exact .inr ⟨_, s', _, hs, ⟨hl.step (hok hin') hs, hin'⟩, by simpa using hlt⟩
      | nil =>
        obtain ⟨r, hr⟩ := hin
        cases r with
        | nil => exact .inl ⟨by simpa using hr, hq, hout⟩
        | cons x r =>
          have hlen : (puts t).length < ps.flatten.length := by
            rw [← hr, List.length_append, List.length_cons]
            omega
          obtain ⟨s', hs, hlt⟩ := exists_put ⟨hq, hout⟩ x t hlen
          have hin' : puts (t ++ [TLPDispatcher.Event.put x]) <+: ps.flatten := by
            rw [puts_append]
            exact ⟨r, by rw [← hr, List.append_assoc]; rfl⟩
          exact .inr ⟨_, s', _, hs, ⟨hl.step (hok hin') hs, hin'⟩, hlt⟩
  obtain ⟨tr', s', hreach, ⟨hl', -⟩, hdone⟩ := RuleSystem.exists_reaches
    (I := fun t (s : TLPDispatcher) => (∃ l, Dispatched t s l) ∧ puts t <+: ps.flatten)
    (fun t (s : TLPDispatcher) => load ps.flatten.length t s) hprogress ⟨⟨l, h⟩, hin⟩
  exact ⟨tr', s', hreach, hl', hdone⟩

/-- **Every port gets its packets.** Let the beats of some packets come from the bus, as many as have come so
far, and let the ports be read at any time. Of the beats that are no longer in the first queue, every port has got
exactly those of its packets, in order, and so far none of its queues has been overrun. And all the packets can
be brought to the ports, where nothing else arrives.

**Proof sketch.** The register holds the port of the packet under way (`Dispatched`), so that a beat that is
not the first of its packet goes where the first one went. A beat waits if the queue is full, and for a packet
without a port the register says so. -/
theorem dispatch_packets {tr : List Event} {s : TLPDispatcher} (h : tlpDispatcher.Reaches .reset tr s)
    {ps : List (List TLPData)} (hps : ∀ p ∈ ps, IsPacket p) (hin : puts tr <+: ps.flatten) :
    (∃ l, puts tr = l ++ s.tlpInFifo.items ∧
      ∀ port, gets port tr ++ s.tlpOutFifo port = portStream port l) ∧
    (∀ port, gets port tr ++ s.tlpOutFifo port <+: (ps.filter (goesTo port)).flatten) ∧
    (∀ port, (s.tlpOutFifo port).length ≤ portPlaces) ∧
    ∃ tr' s', tlpDispatcher.Reaches s tr' s' ∧ puts (tr ++ tr') = ps.flatten ∧ s'.IsEmpty ∧
      ∀ port, gets port (tr ++ tr') = (ps.filter (goesTo port)).flatten := by
  have hok : IsStream (puts tr) := by
    obtain ⟨r, hr⟩ := hin
    exact (hr ▸ isStream_flatten hps).of_append
  obtain ⟨l, hl⟩ := exists_dispatched h hok
  refine ⟨⟨l, hl.taken, hl.ports⟩, fun port => ?_, hl.length_le, ?_⟩
  · obtain ⟨r, hr⟩ := hin
    rw [hl.ports, ← portStream_flatten hps, ← hr, hl.taken, List.append_assoc]
    exact portStream_prefix port l _
  · obtain ⟨tr', s', hreach, ⟨l', hl'⟩, hall, hempty⟩ := hl.exists_complete hps hin
    refine ⟨tr', s', hreach, hall, hempty, fun port => ?_⟩
    have hl'eq : l' = ps.flatten := by rw [← hall, hl'.taken, hempty.1, List.append_nil]
    rw [← portStream_flatten hps, ← hl'eq, ← hl'.ports, hempty.2, List.append_nil]

/-- A write of two beats for the portal. -/
def portalWrite : List TLPData :=
  [⟨true, false, 4, 0xffff, 0x40000002000000ff0000010011111111⟩,
    ⟨false, true, 4, 0xf000, 0x22222222000000000000000000000000⟩]

/-- A message for which there is no port. -/
def message : List TLPData :=
  [⟨true, false, 0, 0xffff, 0x74000001000000ff0000000000000000⟩,
    ⟨false, true, 0, 0xf000, 0x33333333000000000000000000000000⟩]

/-- A completion for the master. -/
def axiCompletion : List TLPData := [⟨true, true, 0, 0xffff, 0x4a000001000000040000050044444444⟩]

/-- A run in which the portal does not take the first write before the second one is there. -/
def threeDispatched :=
  tlpDispatcher.run .reset
    ([.put portalWrite[0], .put portalWrite[1], .dispatchIncomingTLP, .dispatchIncomingTLP,
      .put portalWrite[0], .put portalWrite[1], .dispatchIncomingTLP, .get 1, .dispatchIncomingTLP,
      .put message[0], .dispatchIncomingTLP, .get 1, .dispatchIncomingTLP, .dispatchIncomingTLP,
      .put message[1], .put axiCompletion[0], .dispatchIncomingTLP, .dispatchIncomingTLP, .get 3])

theorem dispatch_packets_threeDispatched :
    (gets 1 threeDispatched.2 = portalWrite ∧ threeDispatched.1.tlpOutFifo 1 = portalWrite ∧
      gets 3 threeDispatched.2 = axiCompletion) ∧
    (∃ l, puts threeDispatched.2 = l ++ threeDispatched.1.tlpInFifo.items ∧
      ∀ port, gets port threeDispatched.2 ++ threeDispatched.1.tlpOutFifo port = portStream port l) ∧
    (∀ port, gets port threeDispatched.2 ++ threeDispatched.1.tlpOutFifo port <+:
      ([portalWrite, portalWrite, message, axiCompletion].filter (goesTo port)).flatten) ∧
    (∀ port, (threeDispatched.1.tlpOutFifo port).length ≤ portPlaces) ∧
    ∃ tr' s', tlpDispatcher.Reaches threeDispatched.1 tr' s' ∧
      puts (threeDispatched.2 ++ tr') = [portalWrite, portalWrite, message, axiCompletion].flatten ∧ s'.IsEmpty ∧
      ∀ port, gets port (threeDispatched.2 ++ tr') =
        ([portalWrite, portalWrite, message, axiCompletion].filter (goesTo port)).flatten := by
  have htwo (t t' : TLPData) (ht : t.sof = true ∧ t.eof = false) (ht' : t'.sof = false ∧ t'.eof = true) :
      IsPacket [t, t'] :=
    ⟨⟨ht.1, by simpa using ht'.1⟩, [t], t', rfl, ht'.2, by simpa using ht.2⟩
  have hone : IsPacket axiCompletion :=
    ⟨⟨rfl, fun _ h => by cases h⟩, [], axiCompletion[0], rfl, rfl, fun _ h => by cases h⟩
  refine ⟨by decide +kernel, dispatch_packets (RuleSystem.reaches_run _ _) ?_ (by decide +kernel)⟩
  have hwrite : IsPacket portalWrite := htwo _ _ ⟨rfl, rfl⟩ ⟨rfl, rfl⟩
  have hmessage : IsPacket message := htwo _ _ ⟨rfl, rfl⟩ ⟨rfl, rfl⟩
  simpa using ⟨hwrite, hmessage, hone⟩

end Xbsv
