import Mathlib.Data.Fintype.Option
import Mathlib.Data.Fintype.Prod
import Mathlib.Data.Fintype.Sigma
import Mathlib.Data.Fintype.Sum
import Mathlib.Tactic.DeriveFintype
import Xbsv.Noc.SerialFIFO
import Xbsv.Rules.Flow
import Xbsv.Rules.Routes

set_option relaxedAutoImplicit false
set_option autoImplicit false

/-!
# Networks of switches

`mkNocNode` of the two networks on chip, and the links between the nodes. A node has a port for each direction and one
for its host. What comes in at a port is put into the buffer of the crossbar for the port where it goes out, or is thrown
away; an arbiter takes the messages for each port from the buffers, in any order. Between the nodes there are serial links.

The networks differ in their shape and in the choice of the ports; both are parameters here, with what makes the routes
end where they should.

## Main definitions

* `Xbsv.NocConfig` — nodes, directions, wires, and the choice of ports.
* `Xbsv.noc` — the network, as a system of rules.
* `Xbsv.Routing` — the routes of a network go down a numbering of its places, and lead to where messages are addressed.
* `Xbsv.LinkOrder` — the same from a numbering of the links.
* `Xbsv.Noc.Shows` — the messages under way, with the hosts they are from.

## Main results

* `Xbsv.LinkOrder.legal_next`, `Xbsv.LinkOrder.legal_last` — where the routes go, and where they end.
* `Xbsv.Noc.Shows.take`, `Xbsv.Noc.Shows.put` — messages are taken and added at the ends.
-/

namespace Xbsv

open Rules

/-! ## The source -/

/-- `DataMessage`. -/
@[ext]
structure DataMessage (A : Type) where
  address : A
  payload : BitVec 32
  deriving DecidableEq

/-- The buffers of the nodes `V` with directions `L`. A port is a direction, or `none` for the host. -/
inductive NocBuffer (V L : Type)
  | fromHost (v : V)
  | xp (v : V) (p q : Option L)
  | toHost (v : V)
  deriving DecidableEq, Fintype

/-- Where messages are: in a buffer, or in the link that leaves a node in some direction. -/
abbrev NocPlace (V L : Type) : Type := NocBuffer V L ⊕ V × L

/-- `switchout`. -/
def switchout {V L : Type} (v : V) : Option L → NocPlace V L
  | none => .inl (.toHost v)
  | some l => .inr (v, l)

/-- The shape of a network. -/
structure NocConfig (V L A : Type) where
  serial : SerialConfig
  /-- Messages as words. -/
  pack : DataMessage A → BitVec serial.width
  unpack : BitVec serial.width → DataMessage A
  unpack_pack : ∀ m, unpack (pack m) = m
  /-- The port at the other end of a link, if it is not a loose end. -/
  wire : V → L → Option (V × L)
  wire_symm : ∀ {v l v' l'}, wire v l = some (v', l') → wire v' l' = some (v, l)
  /-- The port for a message that came in at a port; `none` if it is thrown away. -/
  turn : V → Option L → A → Option (Option L)
  /-- At loose ends single bits are tossed, and not whole messages. -/
  tossesBits : Bool

namespace NocConfig

variable {V L A : Type} (c : NocConfig V L A)

/-- `switchin`. -/
def switchin (v : V) : Option L → Option (NocPlace V L)
  | none => some (.inl (.fromHost v))
  | some l => (c.wire v l).map .inr

/-- A link to nowhere. -/
def loose : NocPlace V L → Bool
  | .inl _ => false
  | .inr e => (c.wire e.1 e.2).isNone

end NocConfig

namespace SerialFIFO

variable {c : SerialConfig} {s s' : SerialFIFO c}

/-- The rule `toss` of `mkPipeOutDiscard`, at a sender. -/
def toss (s : SerialFIFO c) : Option (SerialFIFO c) := s.tx.deq.map fun r => { s with tx := r.2 }

lemma toss_eq_some (hs : s.toss = some s') : ∃ b, s.tx.items = b :: s'.tx.items ∧ s'.rx = s.rx := by
  simp only [toss, Option.map_eq_some_iff, Prod.exists] at hs
  obtain ⟨b, tx, hdeq, rfl⟩ := hs
  exact ⟨b, Fifo.deq_eq_some.mp hdeq, rfl⟩

lemma exists_toss (h : s.tx.items ≠ []) : ∃ s', s.toss = some s' := by
  obtain ⟨b, bs, hb⟩ := List.exists_cons_of_ne_nil h
  obtain ⟨tx, htx, -⟩ := Fifo.exists_deq hb
  exact ⟨{ s with tx }, by rw [toss, htx, Option.map_some]⟩

end SerialFIFO

/-- The state of `mkNocRequest`. -/
structure Noc {V L A : Type} (c : NocConfig V L A) where
  buffer : NocBuffer V L → Fifo 4 (DataMessage A)
  link : V × L → SerialFIFO c.serial

namespace Noc

variable {V L A : Type} {c : NocConfig V L A} [DecidableEq V] [DecidableEq L]

def init : Noc c := ⟨fun _ => .empty, fun _ => .empty⟩

/-- Take the first message. -/
def take (s : Noc c) : NocPlace V L → Option (DataMessage A × Noc c)
  | .inl b => (s.buffer b).deq.map fun r => (r.1, { s with buffer := Function.update s.buffer b r.2 })
  | .inr e => (s.link e).deq.map fun r => (c.unpack r.1, { s with link := Function.update s.link e r.2 })

/-- Add a message. -/
def put (s : Noc c) (m : DataMessage A) : NocPlace V L → Option (Noc c)
  | .inl b => ((s.buffer b).enq m).map fun q => { s with buffer := Function.update s.buffer b q }
  | .inr e => ((s.link e).enq (c.pack m)).map fun f => { s with link := Function.update s.link e f }

/-- `send`; `mkDistributor` of a port; `mkNocArbitrate` of the port `q`, where `p` has the grant; a bit of a link is moved, or
tossed; a message at a loose end is discarded; `ack`. -/
inductive Action (V L A : Type)
  | send (v : V) (m : DataMessage A)
  | distribute (v : V) (p : Option L)
  | arbitrate (v : V) (q p : Option L)
  | movebit (e : V × L)
  | discard (e : V × L)
  | ack (v : V)

inductive Event (V A : Type)
  | sent (v : V) (m : DataMessage A)
  | acked (v : V) (m : DataMessage A)

def step (s : Noc c) : Action V L A → Option (Noc c × List (Event V A))
  | .send v m => (s.put m (.inl (.fromHost v))).map fun s' => (s', [.sent v m])
  | .distribute v p => do
    let n ← c.switchin v p
    let (m, s₁) ← s.take n
    match c.turn v p m.address with
    | none => return (s₁, [])
    | some q => (s₁.put m (.inl (.xp v p q))).map fun s' => (s', [])
  | .arbitrate v q p => do
    let (m, s₁) ← s.take (.inl (.xp v p q))
    (s₁.put m (switchout v q)).map fun s' => (s', [])
  | .movebit e =>
    if c.tossesBits && c.loose (.inr e) then
      (s.link e).toss.map fun f => ({ s with link := Function.update s.link e f }, [])
    else (s.link e).movebits.map fun f => ({ s with link := Function.update s.link e f }, [])
  | .discard e =>
    if !c.tossesBits && c.loose (.inr e) then (s.take (.inr e)).map fun r => (r.2, [])
    else none
  | .ack v => (s.take (.inl (.toHost v))).map fun r => (r.2, [.acked v r.1])

/-- Nothing new comes in. -/
def Action.quiet : Action V L A → Bool
  | .send _ _ => false
  | _ => true

end Noc

/-- A network, whose rules fire in any order. -/
def noc {V L A : Type} (c : NocConfig V L A) [DecidableEq V] [DecidableEq L] :
    RuleSystem (Noc c) (Noc.Action V L A) (Noc.Event V A) where
  step s a := s.step a

/-! ## Routes -/

namespace NocConfig

variable {V L A : Type} (c : NocConfig V L A)

/-- Where a message to `a` goes from a place, if it goes on. -/
def next (a : A) : NocPlace V L → Option (NocPlace V L)
  | .inl (.fromHost v) => (c.turn v none a).map fun q => .inl (.xp v none q)
  | .inl (.xp v _ q) => if c.loose (switchout v q) then none else some (switchout v q)
  | .inl (.toHost _) => none
  | .inr e => (c.wire e.1 e.2).bind fun f => (c.turn f.1 (some f.2) a).map fun q => .inl (.xp f.1 (some f.2) q)

variable {c} {v : V} {p : Option L} {n : NocPlace V L}

/-- From where a port takes its messages they go through the crossbar. -/
lemma next_of_switchin (h : c.switchin v p = some n) (a : A) :
    c.next a n = (c.turn v p a).map fun q => .inl (.xp v p q) := by
  cases p with
  | none =>
    cases h
    rfl
  | some l =>
    obtain ⟨e, he, rfl⟩ := Option.map_eq_some_iff.mp h
    rw [next, c.wire_symm he]
    rfl

/-- Ports take nothing from loose ends. -/
lemma not_loose_of_switchin (h : c.switchin v p = some n) : c.loose n = false := by
  cases p with
  | none =>
    cases h
    rfl
  | some l =>
    obtain ⟨e, he, rfl⟩ := Option.map_eq_some_iff.mp h
    rw [loose, c.wire_symm he]
    rfl

/-- Every link that is not a loose end leads to some port. -/
lemma exists_switchin {e : V × L} (h : c.loose (.inr e) = false) :
    ∃ v l, c.switchin v (some l) = some (.inr e) := by
  rw [loose, Option.isNone_eq_false_iff, Option.isSome_iff_exists] at h
  obtain ⟨f, hf⟩ := h
  exact ⟨f.1, f.2, by rw [switchin, c.wire_symm hf]; rfl⟩

end NocConfig

/-- What makes the routes of a network end where they should. `Legal a n` means that messages to `a` may be at the place
`n`. -/
structure Routing {V L A : Type} (c : NocConfig V L A) where
  /-- The address of a node. -/
  home : V → A
  home_injective : Function.Injective home
  Legal : A → NocPlace V L → Prop
  level : NocPlace V L → ℕ
  legal_fromHost : ∀ v a, Legal a (.inl (.fromHost v))
  legal_next : ∀ {a n m}, Legal a n → c.next a n = some m → Legal a m ∧ level m < level n
  legal_toHost : ∀ {a v}, Legal a (.inl (.toHost v)) → a = home v
  /-- Messages to a node do not get lost. -/
  legal_last : ∀ {v n}, Legal (home v) n → c.next (home v) n = none → ∃ u, n = .inl (.toHost u)

namespace Routing

variable {V L A : Type} {c : NocConfig V L A} (R : Routing c)

open Classical in
/-- The routes of the messages from each host to each address. -/
noncomputable def routes : Routes (NocPlace V L) (V × A) where
  source k := .inl (.fromHost k.1)
  next k n := if R.Legal k.2 n then c.next k.2 n else none
  level := R.level
  level_lt {k n m} h := by
    split at h
    · exact (R.legal_next ‹_› h).2
    · cases h

variable {R} {k : V × A} {n : NocPlace V L}

/-- Messages are only where they may be. -/
lemma legal_of_leads (h : R.routes.Leads k (R.routes.source k) n) : R.Legal k.2 n := by
  induction h with
  | refl => exact R.legal_fromHost _ _
  | tail _ hstep ih =>
    simp only [routes, if_pos ih] at hstep
    exact (R.legal_next ih hstep).1

lemma routes_next (h : R.Legal k.2 n) : R.routes.next k n = c.next k.2 n := if_pos h

end Routing

/-! ## Routes through numbered links -/

/-- What messages do at the nodes: they go to the host where their address is, or to a link that is on their way. On the way
the numbers of the links get lower. -/
structure LinkOrder {V L A : Type} (c : NocConfig V L A) where
  /-- The address of a node. -/
  home : V → A
  home_injective : Function.Injective home
  /-- The way of the message goes on through this link. -/
  Ahead : A → V → L → Prop
  number : V → L → ℕ
  /-- There are less links. -/
  count : ℕ
  number_lt : ∀ v l, number v l < count
  turn_host : ∀ v a, (a = home v ∧ c.turn v none a = some none) ∨ ∃ l, Ahead a v l ∧ c.turn v none a = some (some l)
  turn_wire : ∀ {v l v' l' a}, c.wire v l = some (v', l') → Ahead a v l →
    (a = home v' ∧ c.turn v' (some l') a = some none) ∨
      ∃ k, Ahead a v' k ∧ number v' k < number v l ∧ c.turn v' (some l') a = some (some k)
  /-- No node is beyond a loose end. -/
  not_loose : ∀ {u v l}, Ahead (home u) v l → c.loose (.inr (v, l)) = false

namespace LinkOrder

variable {V L A : Type} {c : NocConfig V L A} (O : LinkOrder c)

/-- Where messages to `a` may be. -/
def Legal (a : A) : NocPlace V L → Prop
  | .inl (.fromHost _) => True
  | .inl (.xp v _ none) => a = O.home v
  | .inl (.xp v _ (some l)) => O.Ahead a v l
  | .inl (.toHost v) => a = O.home v
  | .inr (v, l) => O.Ahead a v l

/-- The places in the order of the links. -/
def level : NocPlace V L → ℕ
  | .inl (.fromHost _) => 2 * O.count + 2
  | .inl (.xp _ _ none) => 1
  | .inl (.xp v _ (some l)) => 2 * O.number v l + 3
  | .inl (.toHost _) => 0
  | .inr (v, l) => 2 * O.number v l + 2

variable {O} {a : A} {n m : NocPlace V L}

/-- Messages go where they may be, and down. -/
lemma legal_next (hlegal : O.Legal a n) (hnext : c.next a n = some m) : O.Legal a m ∧ O.level m < O.level n := by
  match n with
  | .inl (.fromHost v) =>
    obtain ⟨q, hq, rfl⟩ := Option.map_eq_some_iff.mp hnext
    rcases O.turn_host v a with ⟨ha, hturn⟩ | ⟨l, ha, hturn⟩
    · cases hturn.symm.trans hq
      exact ⟨ha, by simp only [level]; omega⟩
    · cases hturn.symm.trans hq
      have hlt := O.number_lt v l
      exact ⟨ha, by simp only [level]; omega⟩
  | .inl (.xp v p q) =>
    rw [NocConfig.next] at hnext
    split at hnext
    · cases hnext
    · cases hnext
      cases q with
      | none => exact ⟨hlegal, by simp only [switchout, level]; omega⟩
      | some l => exact ⟨hlegal, by simp only [switchout, level]; omega⟩
  | .inl (.toHost v) => cases hnext
  | .inr (v, l) =>
    obtain ⟨⟨v', l'⟩, hwire, hnext⟩ := Option.bind_eq_some_iff.mp hnext
    obtain ⟨q, hq, rfl⟩ := Option.map_eq_some_iff.mp hnext
    rcases O.turn_wire hwire hlegal with ⟨ha, hturn⟩ | ⟨k, ha, hlt, hturn⟩
    · cases hturn.symm.trans hq
      exact ⟨ha, by simp only [level]; omega⟩
    · cases hturn.symm.trans hq
      refine ⟨ha, ?_⟩
      show 2 * O.number v' k + 3 < 2 * O.number v l + 2
      have hlt' : O.number v' k < O.number v l := hlt
      omega

/-- Messages to a node end at a host. -/
lemma legal_last {u : V} (hlegal : O.Legal (O.home u) n) (hnext : c.next (O.home u) n = none) :
    ∃ v, n = .inl (.toHost v) := by
  match n with
  | .inl (.fromHost v) =>
    have hturn := Option.map_eq_none_iff.mp hnext
    rcases O.turn_host v (O.home u) with ⟨-, h⟩ | ⟨l, -, h⟩
    · cases h.symm.trans hturn
    · cases h.symm.trans hturn
  | .inl (.xp v p none) => cases hnext
  | .inl (.xp v p (some l)) =>
    have hloose : c.loose (switchout v (some l)) = false := O.not_loose hlegal
    rw [NocConfig.next, hloose] at hnext
    cases hnext
  | .inl (.toHost v) => exact ⟨v, rfl⟩
  | .inr (v, l) =>
    have hloose : c.loose (.inr (v, l)) = false := O.not_loose hlegal
    rw [NocConfig.loose, Option.isNone_eq_false_iff, Option.isSome_iff_exists] at hloose
    obtain ⟨⟨v', l'⟩, hwire⟩ := hloose
    rw [NocConfig.next, hwire] at hnext
    have hturn := Option.map_eq_none_iff.mp hnext
    rcases O.turn_wire hwire hlegal with ⟨-, h⟩ | ⟨k, -, -, h⟩
    · cases h.symm.trans hturn
    · cases h.symm.trans hturn

/-- The routes go down the order. -/
def routing (O : LinkOrder c) : Routing c where
  home := O.home
  home_injective := O.home_injective
  Legal := O.Legal
  level := O.level
  legal_fromHost _ _ := trivial
  legal_next := legal_next
  legal_toHost h := h
  legal_last := legal_last

end LinkOrder

namespace Noc

variable {V L A : Type} {c : NocConfig V L A}

/-! ## The trace -/

section Traces

/-- The messages that host `u` sent. -/
def sent [DecidableEq V] (tr : List (Event V A)) (u : V) : List (DataMessage A) :=
  tr.filterMap fun
    | .sent v m => if v = u then some m else none
    | .acked _ _ => none

/-- The messages that host `u` sent to the address `a`. -/
def sentTo [DecidableEq V] [DecidableEq A] (tr : List (Event V A)) (u : V) (a : A) : List (DataMessage A) :=
  (sent tr u).filter fun m => m.address = a

/-- The messages that were acknowledged at node `v`. -/
def acked [DecidableEq V] (tr : List (Event V A)) (v : V) : List (DataMessage A) :=
  tr.filterMap fun
    | .sent _ _ => none
    | .acked u m => if u = v then some m else none

variable [DecidableEq V] (tr : List (Event V A)) (v : V) (m : DataMessage A)

lemma sent_sent : sent (tr ++ [Event.sent v m]) = Function.update (sent tr) v (sent tr v ++ [m]) :=
  filterMap_concat_eq_update _ tr fun _ => rfl

lemma sent_acked : sent (tr ++ [Event.acked v m]) = sent tr := by
  funext u
  rw [sent, List.filterMap_append]
  exact List.append_nil _

lemma acked_sent : acked (tr ++ [Event.sent v m]) = acked tr := by
  funext u
  rw [acked, List.filterMap_append]
  exact List.append_nil _

lemma acked_acked : acked (tr ++ [Event.acked v m]) = Function.update (acked tr) v (acked tr v ++ [m]) :=
  filterMap_concat_eq_update _ tr fun _ => rfl

end Traces

/-! ## Messages with the hosts they are from -/

section Shows

variable [DecidableEq V] [DecidableEq L]

/-- The messages of `t`, without the hosts they are from, are those of the network. Loose ends are not looked at. -/
structure Shows (s : Noc c) (t : NocPlace V L → List (V × DataMessage A)) : Prop where
  buffer_eq : ∀ b, (s.buffer b).items = (t (.inl b)).map Prod.snd
  link_holds : ∀ e, c.loose (.inr e) = false → (s.link e).Holds ((t (.inr e)).map fun x => c.pack x.2)
  loose_eq : ∀ e, c.loose (.inr e) = true → t (.inr e) = []

variable {s s' : Noc c} {t : NocPlace V L → List (V × DataMessage A)} {n : NocPlace V L} {m : DataMessage A} {e : V × L}

omit [DecidableEq V] [DecidableEq L] in
lemma shows_init : Shows (init : Noc c) fun _ => [] := ⟨fun _ => rfl, fun _ _ => rfl, fun _ _ => rfl⟩

/-- The message that is taken is the first one. -/
lemma Shows.take (h : Shows s t) (hn : c.loose n = false) (hs : s.take n = some (m, s')) :
    ∃ u l, t n = (u, m) :: l ∧ Shows s' (Routes.pop t n l) := by
  cases n with
  | inl b =>
    simp only [Noc.take, Option.map_eq_some_iff, Prod.exists, Prod.mk.injEq] at hs
    obtain ⟨m', q, hdeq, rfl, rfl⟩ := hs
    have hitems := Fifo.deq_eq_some.mp hdeq
    rw [h.buffer_eq, List.map_eq_cons_iff] at hitems
    obtain ⟨⟨u, m'⟩, l, hl, rfl, hrest⟩ := hitems
    refine ⟨u, l, hl, fun b' => ?_, fun e he => ?_, fun e he => ?_⟩
    · by_cases hb : b' = b
      · subst hb
        simp [Routes.pop, hrest]
      · simp [Routes.pop, hb, h.buffer_eq]
    · simpa [Routes.pop] using h.link_holds e he
    · simpa [Routes.pop] using h.loose_eq e he
  | inr e =>
    simp only [Noc.take, Option.map_eq_some_iff, Prod.exists, Prod.mk.injEq] at hs
    obtain ⟨x, f, hdeq, rfl, rfl⟩ := hs
    obtain ⟨l', hl', hholds⟩ := (h.link_holds e hn).deq hdeq
    rw [List.map_eq_cons_iff] at hl'
    obtain ⟨⟨u, m'⟩, l, hl, rfl, rfl⟩ := hl'
    rw [c.unpack_pack]
    refine ⟨u, l, hl, fun b => ?_, fun e' he' => ?_, fun e' he' => ?_⟩
    · simpa [Routes.pop] using h.buffer_eq b
    · by_cases he : e' = e
      · subst he
        simpa [Routes.pop] using hholds
      · simpa [Routes.pop, he] using h.link_holds e' he'
    · have hne : e' ≠ e := by
        rintro rfl
        rw [hn] at he'
        cases he'
      simpa [Routes.pop, hne] using h.loose_eq e' he'

/-- A message is added. -/
lemma Shows.put (h : Shows s t) (hn : c.loose n = false) (hs : s.put m n = some s') (u : V) :
    Shows s' (Routes.push t n (u, m)) := by
  cases n with
  | inl b =>
    simp only [Noc.put, Option.map_eq_some_iff] at hs
    obtain ⟨q, henq, rfl⟩ := hs
    obtain ⟨-, hitems⟩ := Fifo.enq_eq_some.mp henq
    refine ⟨fun b' => ?_, fun e he => ?_, fun e he => ?_⟩
    · by_cases hb : b' = b
      · subst hb
        simp [Routes.push, hitems, h.buffer_eq]
      · simp [Routes.push, hb, h.buffer_eq]
    · simpa [Routes.push] using h.link_holds e he
    · simpa [Routes.push] using h.loose_eq e he
  | inr e =>
    simp only [Noc.put, Option.map_eq_some_iff] at hs
    obtain ⟨f, henq, rfl⟩ := hs
    have hholds := (h.link_holds e hn).enq henq
    refine ⟨fun b => ?_, fun e' he' => ?_, fun e' he' => ?_⟩
    · simpa [Routes.push] using h.buffer_eq b
    · by_cases he : e' = e
      · subst he
        simpa [Routes.push] using hholds
      · simpa [Routes.push, he] using h.link_holds e' he'
    · have hne : e' ≠ e := by
        rintro rfl
        rw [hn] at he'
        cases he'
      simpa [Routes.push, hne] using h.loose_eq e' he'

/-- Whatever happens at a loose end. -/
lemma Shows.update_loose (h : Shows s t) (he : c.loose (.inr e) = true) (f : SerialFIFO c.serial) :
    Shows { s with link := Function.update s.link e f } t := by
  refine ⟨h.buffer_eq, fun e' he' => ?_, h.loose_eq⟩
  have hne : e' ≠ e := by
    rintro rfl
    rw [he] at he'
    cases he'
  simpa [hne] using h.link_holds e' he'

/-- A bit of a link is moved. -/
lemma Shows.movebits (h : Shows s t) {f : SerialFIFO c.serial} (hs : (s.link e).movebits = some f) :
    Shows { s with link := Function.update s.link e f } t := by
  refine ⟨h.buffer_eq, fun e' he' => ?_, h.loose_eq⟩
  by_cases heq : e' = e
  · subst heq
    simpa using (h.link_holds e' he').movebits hs
  · simpa [heq] using h.link_holds e' he'

end Shows

end Noc

end Xbsv
