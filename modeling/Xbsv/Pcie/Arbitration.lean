import Mathlib.Algebra.Order.BigOperators.Group.Finset
import Xbsv.Pcie.Splitter
import Xbsv.Rules.Drain

set_option relaxedAutoImplicit false
set_option autoImplicit false

/-!
# Packets to the bus

The ports share the bus, and a packet must not be interrupted. Once the arbiter has sent the first beat of a
packet, the register `routeFrom` holds the port until the last beat of the packet has been sent, and no other port is
listened to, also when the beats of the packet are late.

## Main definitions

* `Xbsv.portPackets` — the packets of a port among those that have been sent.
* `Xbsv.Arbitrated` — the invariant: the bus gets whole packets and a part of the packet under way.

## Main results

* `Xbsv.arbitrate_packets` — what is sent are whole packets of the ports, each port's in order.
-/

namespace Xbsv

open Rules TLPArbiter

/-! ## The beats that go in and out -/

namespace TLPArbiter

/-- The beats a port has sent. -/
def puts (port : Fin portMax) (tr : List Event) : List TLPData :=
  tr.filterMap fun
    | .put port' tlp => if port' = port then some tlp else none
    | _ => none

/-- The beats the bus has got. -/
def gets (tr : List Event) : List TLPData :=
  tr.filterMap fun
    | .get tlp => some tlp
    | _ => none

@[simp] lemma puts_append (port : Fin portMax) (tr es : List Event) :
    puts port (tr ++ es) = puts port tr ++ puts port es := List.filterMap_append

@[simp] lemma gets_append (tr es : List Event) : gets (tr ++ es) = gets tr ++ gets es := List.filterMap_append

/-- The part of the packet under way that comes from a port. -/
def partOf (s : TLPArbiter) (port : Fin portMax) (cur : List TLPData) : List TLPData :=
  if s.routeFrom = some port then cur else []

end TLPArbiter

/-- The packets of a port. -/
def portPackets (port : Fin portMax) (sent : List (Fin portMax × List TLPData)) : List (List TLPData) :=
  (sent.filter fun q => q.1 = port).map Prod.snd

@[simp] lemma portPackets_append (port : Fin portMax) (sent sent' : List (Fin portMax × List TLPData)) :
    portPackets port (sent ++ sent') = portPackets port sent ++ portPackets port sent' := by
  unfold portPackets
  rw [List.filter_append, List.map_append]

lemma portPackets_self (port : Fin portMax) (p : List TLPData) : portPackets port [(port, p)] = [p] := by
  simp [portPackets]

lemma portPackets_of_ne {port port' : Fin portMax} (h : port' ≠ port) (p : List TLPData) :
    portPackets port [(port', p)] = [] := by
  simp [portPackets, h]

/-! ## The invariant -/

/-- The packets `sent` have been sent, and the beats `cur` of the one under way. -/
structure Arbitrated (tr : List Event) (s : TLPArbiter) (sent : List (Fin portMax × List TLPData))
    (cur : List TLPData) : Prop where
  out : gets tr ++ s.tlpOutFifo.items = (sent.map Prod.snd).flatten ++ cur
  ports : ∀ port, puts port tr = (portPackets port sent).flatten ++ s.partOf port cur ++ s.tlpInFifo port
  whole : ∀ q ∈ sent, IsPacket q.2
  part : IsPartial cur
  route : s.routeFrom = none ↔ cur = []
  guarded : ∀ port t, .deq port true t ∉ tr

namespace Arbitrated

variable {tr : List Event} {s s' : TLPArbiter} {sent : List (Fin portMax × List TLPData)}
  {cur rest : List TLPData} {t : TLPData} {port : Fin portMax}

lemma reset : Arbitrated [] TLPArbiter.reset [] [] where
  out := rfl
  ports _ := rfl
  whole _ h := by cases h
  part := ⟨trivial, fun _ h => by cases h⟩
  route := by simp [TLPArbiter.reset]
  guarded _ _ h := by cases h

/-- The packets of a port are packets. -/
lemma isPacket_of_mem (h : Arbitrated tr s sent cur) {p : List TLPData} (hp : p ∈ portPackets port sent) :
    IsPacket p := by
  obtain ⟨q, hq, rfl⟩ := List.mem_map.mp hp
  exact h.whole q (List.mem_filter.mp hq).1

/-- What has been taken from a port, cut into packets. -/
lemma packets_port (h : Arbitrated tr s sent cur) (port : Fin portMax) :
    packets ((portPackets port sent).flatten ++ s.partOf port cur) =
      (portPackets port sent, s.partOf port cur) := by
  have hpart : ∀ t ∈ s.partOf port cur, t.eof = false := by
    intro t ht
    unfold partOf at ht
    split at ht
    · exact h.part.2 t ht
    · cases ht
  rw [packets_append hpart, packets_flatten fun p hp => h.isPacket_of_mem hp]
  rfl

/-- The next beat of a port continues its stream. -/
lemma isStream_next (h : Arbitrated tr s sent cur) (hok : IsStream (TLPArbiter.puts port tr))
    (hq : s.tlpInFifo port = t :: rest) :
    IsStream ((portPackets port sent).flatten ++ s.partOf port cur ++ [t]) := by
  have hputs : TLPArbiter.puts port tr =
      (portPackets port sent).flatten ++ s.partOf port cur ++ [t] ++ rest := by
    rw [h.ports, hq]
    simp
  exact (hputs ▸ hok).of_append

/-- The packets with the one that ends now, if it does. -/
def sentWith (sent : List (Fin portMax × List TLPData)) (port : Fin portMax) (cur : List TLPData) (t : TLPData) :
    List (Fin portMax × List TLPData) :=
  if t.eof then sent ++ [(port, cur ++ [t])] else sent

/-- What is under way after a beat. -/
def curWith (cur : List TLPData) (t : TLPData) : List TLPData := if t.eof then [] else cur ++ [t]

/-- A beat is handed on. -/
lemma forward (h : Arbitrated tr s sent cur) (hok : IsStream (TLPArbiter.puts port tr))
    (hroute : s.routeFrom = some port ∨ s.routeFrom = none) (hq : s.tlpInFifo port = t :: rest)
    {q : Fifo 2 TLPData} (henq : s.tlpOutFifo.enq t = some q) :
    Arbitrated (tr ++ [TLPArbiter.Event.deq port false t]) { s.takeIn port rest with
      tlpOutFifo := q, routeFrom := if t.eof then none else some port }
      (sentWith sent port cur t) (curWith cur t) := by
  -- whatever port is listened to, what is under way is of this port
  have hpart : s.partOf port cur = cur := by
    unfold partOf
    rcases hroute with hroute | hroute
    · rw [if_pos hroute]
    · rw [h.route.mp hroute, ite_self]
  have hother {port' : Fin portMax} (hne : port' ≠ port) : s.partOf port' cur = [] := by
    unfold partOf
    rcases hroute with hroute | hroute
    · rw [hroute, if_neg fun he => hne (Option.some.inj he).symm]
    · rw [h.route.mp hroute, ite_self]
  have hlast := (h.isStream_next hok hq).last
  rw [h.packets_port port, hpart] at hlast
  obtain ⟨-, hitems⟩ := Fifo.enq_eq_some.mp henq
  have hputs (port' : Fin portMax) : TLPArbiter.puts port' (tr ++ [TLPArbiter.Event.deq port false t]) =
      TLPArbiter.puts port' tr := by simp [TLPArbiter.puts]
  have hgets : TLPArbiter.gets (tr ++ [TLPArbiter.Event.deq port false t]) = TLPArbiter.gets tr := by
    simp [TLPArbiter.gets]
  have hguarded (port' : Fin portMax) (t' : TLPData) :
      .deq port' true t' ∉ tr ++ [TLPArbiter.Event.deq port false t] := by
    simpa using h.guarded port' t'
  cases heof : t.eof with
  | true =>
    simp only [sentWith, curWith, heof, if_true]
    refine ⟨?_, fun port' => ?_, fun p hp => ?_, ⟨trivial, fun _ h => by cases h⟩, by simp, hguarded⟩
    · rw [hgets, hitems, ← List.append_assoc, h.out]
      simp
    · rw [hputs, h.ports]
      by_cases heq : port' = port
      · subst heq
        rw [portPackets_append, portPackets_self, hpart, hq]
        simp [partOf, takeIn]
      · rw [portPackets_append, portPackets_of_ne (Ne.symm heq), hother heq]
        simp [partOf, takeIn, Function.update_of_ne heq]
    · rcases List.mem_append.mp hp with hp | hp
      · exact h.whole p hp
      · rw [List.mem_singleton.mp hp]
        exact hlast.1 heof
  | false =>
    simp only [sentWith, curWith, heof, Bool.false_eq_true, if_false]
    refine ⟨?_, fun port' => ?_, h.whole, hlast.2 heof, by simp, hguarded⟩
    · rw [hgets, hitems, ← List.append_assoc, h.out, List.append_assoc]
    · rw [hputs, h.ports]
      by_cases heq : port' = port
      · subst heq
        rw [hpart, hq]
        simp [partOf, takeIn]
      · have hne : ¬ port = port' := fun he => heq he.symm
        rw [hother heq]
        simp [partOf, takeIn, Function.update_of_ne heq, hne]

/-- The rule hands on a beat or does nothing: no beat is dropped. -/
lemma arbitrate (h : Arbitrated tr s sent cur) (hok : ∀ port, IsStream (TLPArbiter.puts port tr))
    {stale : TLPData} {es : List Event} (hs : s.arbitrateOutgoingTLP stale = some (s', es)) :
    ∃ sent' cur', Arbitrated (tr ++ es) s' sent' cur' := by
  rcases arbitrate_cases hs with ⟨rfl, rfl⟩ | ⟨port, t, rest, hq, rfl, hcases⟩
  · exact ⟨sent, cur, by simpa using h⟩
  · rcases hcases with ⟨hroute, q, henq, rfl⟩ | ⟨hroute, hsof, -⟩
    · exact ⟨_, _, h.forward (hok port) (hroute.imp_right And.left) hq henq⟩
    · -- the first beat after whole packets begins a packet
      have hpart : s.partOf port cur = [] := by
        unfold partOf
        rw [h.route.mp hroute, ite_self]
      have hfirst := (h.isStream_next (hok port) hq).of_concat.2
      rw [h.packets_port port, hpart, hsof] at hfirst
      cases hfirst

/-- A port sends a beat. -/
lemma put (h : Arbitrated tr s sent cur) (hs : s.putIn port t = some s') :
    Arbitrated (tr ++ [TLPArbiter.Event.put port t]) s' sent cur := by
  unfold putIn at hs
  split at hs
  · cases hs
    refine ⟨?_, fun port' => ?_, h.whole, h.part, h.route, fun port' t' => ?_⟩
    · rw [gets_append, ← h.out]
      simp [TLPArbiter.gets]
    · show TLPArbiter.puts port' (tr ++ [TLPArbiter.Event.put port t]) =
        (portPackets port' sent).flatten ++ s.partOf port' cur ++
        Function.update s.tlpInFifo port (s.tlpInFifo port ++ [t]) port'
      rw [puts_append, h.ports]
      by_cases heq : port' = port
      · subst heq
        simp [TLPArbiter.puts]
      · simp [TLPArbiter.puts, Function.update_of_ne heq, Ne.symm heq]
    · simpa using h.guarded port' t'
  · cases hs

/-- The bus gets a beat. -/
lemma get (h : Arbitrated tr s sent cur) {q : Fifo 2 TLPData} (hq : s.tlpOutFifo.deq = some (t, q)) :
    Arbitrated (tr ++ [TLPArbiter.Event.get t]) { s with tlpOutFifo := q } sent cur := by
  have hitems := Fifo.deq_eq_some.mp hq
  refine ⟨?_, fun port => ?_, h.whole, h.part, h.route, fun port t' => ?_⟩
  · rw [← h.out, hitems]
    simp [TLPArbiter.gets]
  · have hputs : TLPArbiter.puts port (tr ++ [TLPArbiter.Event.get t]) = TLPArbiter.puts port tr := by
      simp [TLPArbiter.puts]
    rw [hputs]
    exact h.ports port
  · simpa using h.guarded port t'

/-- Every step. -/
lemma step (h : Arbitrated tr s sent cur) {a : Action} {es : List Event}
    (hok : ∀ port, IsStream (TLPArbiter.puts port (tr ++ es))) (hs : tlpArbiter.step s a = some (s', es)) :
    ∃ sent' cur', Arbitrated (tr ++ es) s' sent' cur' := by
  cases a with
  | put port t =>
    obtain ⟨s₁, hs₁, hs⟩ := Option.bind_eq_some_iff.mp hs
    cases hs
    exact ⟨sent, cur, h.put hs₁⟩
  | arbitrateOutgoingTLP stale =>
    refine h.arbitrate (fun port => ?_) hs
    have := hok port
    rw [puts_append] at this
    exact this.of_append
  | get =>
    obtain ⟨⟨t, q⟩, hq, hs⟩ := Option.bind_eq_some_iff.mp hs
    cases hs
    exact ⟨sent, cur, h.get hq⟩

end Arbitrated

/-- The invariant holds in every run in which the ports send streams of packets. -/
lemma exists_arbitrated {tr : List Event} {s : TLPArbiter} (h : tlpArbiter.Reaches .reset tr s)
    (hok : ∀ port, IsStream (puts port tr)) : ∃ sent cur, Arbitrated tr s sent cur := by
  refine h.invariant (I := fun tr (s : TLPArbiter) =>
    (∀ port, IsStream (puts port tr)) → ∃ sent cur, Arbitrated tr s sent cur)
    (fun _ => ⟨[], [], .reset⟩) ?_ hok
  intro tr s a s' es ih hs hok
  obtain ⟨sent, cur, hl⟩ := ih fun port => by
    have := hok port
    rw [puts_append] at this
    exact this.of_append
  exact hl.step hok hs

/-! ## Progress -/

namespace TLPArbiter

/-- The steps that are still needed if the ports send `n` beats. -/
def load (n : Fin portMax → ℕ) (tr : List Event) (s : TLPArbiter) : ℕ :=
  3 * ∑ port, (n port - (puts port tr).length) + 2 * ∑ port, (s.tlpInFifo port).length +
    s.tlpOutFifo.items.length

/-- The arbiter holds no beat. -/
def IsEmpty (s : TLPArbiter) : Prop := s.tlpOutFifo.items = [] ∧ ∀ port, s.tlpInFifo port = []

variable {s : TLPArbiter} (n : Fin portMax → ℕ) (tr : List Event)

/-- The bus can get a beat. -/
lemma exists_get (h : s.tlpOutFifo.items ≠ []) :
    ∃ s' t, tlpArbiter.step s .get = some (s', [.get t]) ∧ load n (tr ++ [Event.get t]) s' < load n tr s := by
  obtain ⟨t, rest, hitems⟩ := List.exists_cons_of_ne_nil h
  obtain ⟨q, hq, hq'⟩ := Fifo.exists_deq hitems
  refine ⟨{ s with tlpOutFifo := q }, t, by simp only [tlpArbiter, hq, bind, pure, Option.bind_some], ?_⟩
  have hputs (port : Fin portMax) : puts port (tr ++ [Event.get t]) = puts port tr := by simp [puts]
  simp only [load, hputs, hq', hitems, List.length_cons]
  omega

/-- When the bus has got everything, the rule takes a beat from a port it may listen to. -/
lemma exists_take (hout : s.tlpOutFifo.items = []) {port : Fin portMax}
    (hport : s.routeFrom = some port ∨ s.routeFrom = none) (hne : s.tlpInFifo port ≠ []) (stale : TLPData) :
    ∃ s' port' t, tlpArbiter.step s (.arbitrateOutgoingTLP stale) = some (s', [.deq port' false t]) ∧
      load n (tr ++ [Event.deq port' false t]) s' < load n tr s := by
  obtain ⟨s', port', t, hs⟩ := exists_arbitrate hout hport hne stale
  refine ⟨s', port', t, hs, ?_⟩
  have hputs (port : Fin portMax) : puts port (tr ++ [Event.deq port' false t]) = puts port tr := by simp [puts]
  rcases arbitrate_cases hs with ⟨-, hnil⟩ | ⟨port', t, rest, hq, -, hcases⟩
  · cases hnil
  · have hsum := sum_length_update s.tlpInFifo port' rest
    rw [hq, List.length_cons] at hsum
    rcases hcases with ⟨-, q, henq, rfl⟩ | ⟨-, -, rfl⟩
    · obtain ⟨-, hitems⟩ := Fifo.enq_eq_some.mp henq
      simp only [load, hputs, takeIn, hitems, List.length_append, List.length_singleton]
      omega
    · simp only [load, hputs, takeIn]
      omega

/-- A port that holds nothing can send a beat. -/
lemma exists_put {port : Fin portMax} (hq : s.tlpInFifo port = []) (t : TLPData)
    (hn : (puts port tr).length < n port) :
    ∃ s', tlpArbiter.step s (.put port t) = some (s', [.put port t]) ∧
      load n (tr ++ [Event.put port t]) s' < load n tr s := by
  have hroom : (s.tlpInFifo port).length < portPlaces := by
    rw [hq]
    decide
  refine ⟨{ s with tlpInFifo := Function.update s.tlpInFifo port (s.tlpInFifo port ++ [t]) }, ?_, ?_⟩
  · simp only [tlpArbiter, putIn, if_pos hroom, bind, pure, Option.bind_some]
  · have hsum := sum_length_update s.tlpInFifo port (s.tlpInFifo port ++ [t])
    have hlt : ∑ port', (n port' - (puts port' (tr ++ [Event.put port t])).length) <
        ∑ port', (n port' - (puts port' tr).length) := by
      refine Finset.sum_lt_sum (fun port' _ => ?_) ⟨port, Finset.mem_univ port, ?_⟩
      · rw [puts_append, List.length_append]
        omega
      · have hone : puts port [.put port t] = [t] := by simp [puts]
        rw [puts_append, hone, List.length_append, List.length_singleton]
        omega
    rw [List.length_append, List.length_singleton] at hsum
    simp only [load]
    omega

end TLPArbiter

/-- A port with a packet under way has not sent all of its packets. -/
lemma Arbitrated.ne_flatten {tr : List Event} {s : TLPArbiter} {sent : List (Fin portMax × List TLPData)}
    {cur : List TLPData} (h : Arbitrated tr s sent cur) {port : Fin portMax} (hroute : s.routeFrom = some port)
    (hq : s.tlpInFifo port = []) {ps : List (List TLPData)} (hps : ∀ p ∈ ps, IsPacket p) :
    puts port tr ≠ ps.flatten := by
  intro hall
  have hpackets := h.packets_port port
  have hputs := h.ports port
  rw [hq, List.append_nil] at hputs
  have hpart : s.partOf port cur = cur := if_pos hroute
  rw [← hputs, hall, packets_flatten hps, Prod.mk.injEq, hpart] at hpackets
  have hnone := h.route.mpr hpackets.2.symm
  rw [hroute] at hnone
  cases hnone

/-- Whatever has happened, all packets can be sent. -/
lemma Arbitrated.exists_complete {tr : List Event} {s : TLPArbiter} {sent : List (Fin portMax × List TLPData)}
    {cur : List TLPData} (h : Arbitrated tr s sent cur) {ps : Fin portMax → List (List TLPData)}
    (hps : ∀ port, ∀ p ∈ ps port, IsPacket p) (hin : ∀ port, puts port tr <+: (ps port).flatten) :
    ∃ tr' s', tlpArbiter.Reaches s tr' s' ∧ (∃ sent' cur', Arbitrated (tr ++ tr') s' sent' cur') ∧
      (∀ port, puts port (tr ++ tr') = (ps port).flatten) ∧ s'.IsEmpty := by
  have hok {l : List TLPData} {port : Fin portMax} (hl : l <+: (ps port).flatten) : IsStream l := by
    obtain ⟨r, hr⟩ := hl
    exact (hr ▸ isStream_flatten (hps port)).of_append
  have hprogress (t : List Event) (s : TLPArbiter)
      (hI : (∃ sent cur, Arbitrated t s sent cur) ∧ ∀ port, puts port t <+: (ps port).flatten) :
      ((∀ port, puts port t = (ps port).flatten) ∧ s.IsEmpty) ∨
        ∃ a s' es, tlpArbiter.step s a = some (s', es) ∧
          ((∃ sent cur, Arbitrated (t ++ es) s' sent cur) ∧ ∀ port, puts port (t ++ es) <+: (ps port).flatten) ∧
          load (fun port => (ps port).flatten.length) (t ++ es) s' <
            load (fun port => (ps port).flatten.length) t s := by
    obtain ⟨⟨sent, cur, hl⟩, hin⟩ := hI
    -- a port that holds nothing sends its next beat
    have hnext {port : Fin portMax} (hq : s.tlpInFifo port = []) (hne : puts port t ≠ (ps port).flatten) :
        ∃ a s' es, tlpArbiter.step s a = some (s', es) ∧
          ((∃ sent cur, Arbitrated (t ++ es) s' sent cur) ∧ ∀ port, puts port (t ++ es) <+: (ps port).flatten) ∧
          load (fun port => (ps port).flatten.length) (t ++ es) s' <
            load (fun port => (ps port).flatten.length) t s := by
      obtain ⟨r, hr⟩ := hin port
      cases r with
      | nil => exact absurd (by simpa using hr) hne
      | cons x r =>
        have hlen : (puts port t).length < (ps port).flatten.length := by
          rw [← hr, List.length_append, List.length_cons]
          omega
        obtain ⟨s', hs, hlt⟩ := exists_put (fun port => (ps port).flatten.length) t hq x hlen
        have hin' (port' : Fin portMax) : puts port' (t ++ [TLPArbiter.Event.put port x]) <+: (ps port').flatten := by
          by_cases heq : port' = port
          · subst heq
            have hone : puts port' [.put port' x] = [x] := by simp [puts]
            rw [puts_append, hone]
            exact ⟨r, by rw [← hr, List.append_assoc]; rfl⟩
          · have hnil : puts port' [.put port x] = [] := by simp [puts, Ne.symm heq]
            rw [puts_append, hnil, List.append_nil]
            exact hin port'
        exact ⟨_, s', _, hs, ⟨hl.step (fun port => hok (hin' port)) hs, hin'⟩, hlt⟩
    by_cases hout : s.tlpOutFifo.items = []
    · by_cases hready : ∃ port, (s.routeFrom = some port ∨ s.routeFrom = none) ∧ s.tlpInFifo port ≠ []
      · obtain ⟨port, hport, hne⟩ := hready
        obtain ⟨s', port', x, hs, hlt⟩ := exists_take (fun port => (ps port).flatten.length) t hout hport
          hne ⟨false, false, 0, 0, 0⟩
        have hin' (port : Fin portMax) :
            puts port (t ++ [TLPArbiter.Event.deq port' false x]) <+: (ps port).flatten := by
          simpa [puts] using hin port
        exact .inr ⟨_, s', _, hs, ⟨hl.step (fun port => hok (hin' port)) hs, hin'⟩, hlt⟩
      · have hwait : ∀ port, s.routeFrom = some port ∨ s.routeFrom = none → s.tlpInFifo port = [] := by
          intro port hport
          by_contra hne
          exact hready ⟨port, hport, hne⟩
        cases hroute : s.routeFrom with
        | some port =>
          have hq := hwait port (.inl hroute)
          exact .inr (hnext hq (hl.ne_flatten hroute hq (hps port)))
        | none =>
          have hempty (port : Fin portMax) : s.tlpInFifo port = [] := hwait port (.inr hroute)
          by_cases hall : ∀ port, puts port t = (ps port).flatten
          · exact .inl ⟨hall, hout, hempty⟩
          · obtain ⟨port, hport⟩ := not_forall.mp hall
            exact .inr (hnext (hempty port) hport)
    · obtain ⟨s', x, hs, hlt⟩ := exists_get (fun port => (ps port).flatten.length) t hout
      have hin' (port : Fin portMax) : puts port (t ++ [TLPArbiter.Event.get x]) <+: (ps port).flatten := by
        simpa [puts] using hin port
      exact .inr ⟨_, s', _, hs, ⟨hl.step (fun port => hok (hin' port)) hs, hin'⟩, hlt⟩
  obtain ⟨tr', s', hreach, ⟨hl', -⟩, hdone⟩ := RuleSystem.exists_reaches
    (I := fun t (s : TLPArbiter) =>
      (∃ sent cur, Arbitrated t s sent cur) ∧ ∀ port, puts port t <+: (ps port).flatten)
    (fun t (s : TLPArbiter) => load (fun port => (ps port).flatten.length) t s) hprogress ⟨⟨sent, cur, h⟩, hin⟩
  exact ⟨tr', s', hreach, hl', hdone⟩

/-- The packets of a port that have been sent are its first ones. -/
lemma Arbitrated.portPackets_prefix {tr : List Event} {s : TLPArbiter} {sent : List (Fin portMax × List TLPData)}
    {cur : List TLPData} (h : Arbitrated tr s sent cur) {port : Fin portMax} {ps : List (List TLPData)}
    (hps : ∀ p ∈ ps, IsPacket p) (hin : puts port tr <+: ps.flatten) : portPackets port sent <+: ps := by
  obtain ⟨r, hr⟩ := hin
  have hpre := packets_prefix ((portPackets port sent).flatten ++ s.partOf port cur) (s.tlpInFifo port ++ r)
  rw [h.packets_port, ← List.append_assoc, ← h.ports, hr, packets_flatten hps] at hpre
  exact hpre

/-- **The bus gets whole packets.** Let every port send the beats of some packets, as many as it has sent so far,
in any order among the ports, and let the bus take the beats at any time. What has been sent are whole packets, each
from one port, and a part of one more packet from the port that is listened to; of every port these are its first
packets, in order. With the beats that are still in its queue they are all the beats the port has sent, and no
queue has been dequeued when empty. And all the packets can be sent.

**Proof sketch.** As long as a packet is under way only its port is listened to (`Arbitrated`). Therefore what is taken
from a port between packets begins a packet, and no beat is dropped. -/
theorem arbitrate_packets {tr : List Event} {s : TLPArbiter} (h : tlpArbiter.Reaches .reset tr s)
    {ps : Fin portMax → List (List TLPData)} (hps : ∀ port, ∀ p ∈ ps port, IsPacket p)
    (hin : ∀ port, puts port tr <+: (ps port).flatten) :
    (∃ sent cur, gets tr ++ s.tlpOutFifo.items = (sent.map Prod.snd).flatten ++ cur ∧
      (∀ port, puts port tr =
        (portPackets port sent).flatten ++ (if s.routeFrom = some port then cur else []) ++ s.tlpInFifo port) ∧
      (∀ port, portPackets port sent <+: ps port) ∧ (∀ q ∈ sent, IsPacket q.2) ∧ IsPartial cur ∧
      (s.routeFrom = none ↔ cur = [])) ∧
    (∀ port t, .deq port true t ∉ tr) ∧
    ∃ tr' s', tlpArbiter.Reaches s tr' s' ∧ s'.IsEmpty ∧
      ∃ sent', gets (tr ++ tr') = (sent'.map Prod.snd).flatten ∧ ∀ port, portPackets port sent' = ps port := by
  have hok (port : Fin portMax) : IsStream (puts port tr) := by
    obtain ⟨r, hr⟩ := hin port
    exact (hr ▸ isStream_flatten (hps port)).of_append
  obtain ⟨sent, cur, hl⟩ := exists_arbitrated h hok
  refine ⟨⟨sent, cur, hl.out, hl.ports, fun port => hl.portPackets_prefix (hps port) (hin port), hl.whole, hl.part,
    hl.route⟩, hl.guarded, ?_⟩
  obtain ⟨tr', s', hreach, ⟨sent', cur', hl'⟩, hall, hempty⟩ := hl.exists_complete hps hin
  have hnone : s'.routeFrom = none := by
    cases hroute : s'.routeFrom with
    | none => rfl
    | some port => exact absurd (hall port) (hl'.ne_flatten hroute (hempty.2 port) (hps port))
  refine ⟨tr', s', hreach, hempty, sent', ?_, fun port => ?_⟩
  · have hout := hl'.out
    rw [hempty.1, hl'.route.mp hnone] at hout
    simpa using hout
  · have hpackets := hl'.packets_port port
    have hputs := hl'.ports port
    rw [hempty.2, List.append_nil] at hputs
    rw [← hputs, hall, packets_flatten (hps port), Prod.mk.injEq] at hpackets
    exact hpackets.1.symm

/-- A completion of two beats from the portal. -/
def portalAnswer : List TLPData :=
  [⟨true, false, 0, 0xffff, 0x4a000002000000080000010011111111⟩,
    ⟨false, true, 0, 0xf000, 0x22222222000000000000000000000000⟩]

/-- A completion from the configuration registers. -/
def configAnswer : List TLPData := [⟨true, true, 0, 0xffff, 0x4a000001000000040000020033333333⟩]

/-- The packets of the ports. -/
def twoAnswers (port : Fin portMax) : List (List TLPData) :=
  if port = portPortal then [portalAnswer] else if port = portConfig then [configAnswer] else []

/-- The second beat from the portal is late, and the other port has to wait. -/
def lateBeat :=
  tlpArbiter.run .reset
    [.put 1 portalAnswer[0], .arbitrateOutgoingTLP portalAnswer[0], .put 0 configAnswer[0],
      .arbitrateOutgoingTLP portalAnswer[0], .put 1 portalAnswer[1], .arbitrateOutgoingTLP portalAnswer[0], .get,
      .arbitrateOutgoingTLP portalAnswer[0], .get, .get]

theorem arbitrate_packets_lateBeat :
    gets lateBeat.2 = portalAnswer ++ configAnswer ∧
    (∃ sent cur, gets lateBeat.2 ++ lateBeat.1.tlpOutFifo.items = (sent.map Prod.snd).flatten ++ cur ∧
      (∀ port, puts port lateBeat.2 = (portPackets port sent).flatten ++
        (if lateBeat.1.routeFrom = some port then cur else []) ++ lateBeat.1.tlpInFifo port) ∧
      (∀ port, portPackets port sent <+: twoAnswers port) ∧ (∀ q ∈ sent, IsPacket q.2) ∧ IsPartial cur ∧
      (lateBeat.1.routeFrom = none ↔ cur = [])) ∧
    (∀ port t, .deq port true t ∉ lateBeat.2) ∧
    ∃ tr' s', tlpArbiter.Reaches lateBeat.1 tr' s' ∧ s'.IsEmpty ∧
      ∃ sent', gets (lateBeat.2 ++ tr') = (sent'.map Prod.snd).flatten ∧
        ∀ port, portPackets port sent' = twoAnswers port := by
  have hportal : IsPacket portalAnswer :=
    ⟨⟨rfl, by simp⟩, [portalAnswer[0]], portalAnswer[1], rfl, rfl, by simp [portalAnswer]⟩
  have hconfig : IsPacket configAnswer :=
    ⟨⟨rfl, fun _ h => by cases h⟩, [], configAnswer[0], rfl, rfl, fun _ h => by cases h⟩
  refine ⟨by decide +kernel, arbitrate_packets (RuleSystem.reaches_run _ _) (fun port p hp => ?_)
    (by decide +kernel)⟩
  unfold twoAnswers at hp
  split at hp
  · rwa [List.mem_singleton.mp hp]
  · split at hp
    · rwa [List.mem_singleton.mp hp]
    · cases hp

end Xbsv
