import Xbsv.Noc.Delivery

set_option relaxedAutoImplicit false
set_option autoImplicit false

/-!
# `examples/noc`

Four nodes in a row, with links from each to its neighbours. A message from a host goes to the west if its address is
lower than the number of the node, and to the east if it is higher; on its way it keeps its direction. At the ends of the
row messages are discarded.

## Main definitions

* `Xbsv.Line.config` — the row.
* `Xbsv.Line.linkOrder` — the way of the messages.

## Main results

* `Xbsv.Line.line_delivers` — messages arrive in order where they are addressed, and all of them do.
-/

namespace Xbsv

open Rules

namespace Line

/-! ## The source -/

inductive Direction
  | west
  | east
  deriving DecidableEq

instance : Fintype Direction := ⟨{.west, .east}, fun l => by cases l <;> decide⟩

/-- `id`. -/
def id (v : Fin 4) : BitVec 4 := BitVec.ofNat 4 v

/-- A message as a word. -/
def pack (m : DataMessage (BitVec 4)) : BitVec 36 := m.address ++ m.payload

def unpack (b : BitVec 36) : DataMessage (BitVec 4) := ⟨b.extractLsb' 32 4, b.extractLsb' 0 32⟩

/-- The links `we` and `ew` between the nodes. -/
def wire (v : Fin 4) : Direction → Option (Fin 4 × Direction)
  | .west => if h : 0 < v.val then some (⟨v - 1, by omega⟩, .east) else none
  | .east => if h : v.val + 1 < 4 then some (⟨v + 1, h⟩, .west) else none

/-- The rules `fromhost`, `fromeast` and `fromwest`. -/
def turn (v : Fin 4) : Option Direction → BitVec 4 → Option (Option Direction)
  | none, a =>
    if a < id v then some (some .west)
    else if a = id v then some none
    else some (some .east)
  | some .east, a => if a = id v then some none else some (some .west)
  | some .west, a => if a = id v then some none else some (some .east)

lemma unpack_pack (m : DataMessage (BitVec 4)) : unpack (pack m) = m := by
  ext i hi
  · simp only [unpack, pack, BitVec.getElem_extractLsb', BitVec.getLsbD_append]
    rw [if_neg (by omega), Nat.add_sub_cancel_left, ← BitVec.getLsbD_eq_getElem hi]
  · simp only [unpack, pack, BitVec.getElem_extractLsb', BitVec.getLsbD_append, Nat.zero_add]
    rw [if_pos hi, ← BitVec.getLsbD_eq_getElem hi]

lemma wire_symm {v v' : Fin 4} {l l' : Direction} (h : wire v l = some (v', l')) : wire v' l' = some (v, l) := by
  revert v l v' l'
  decide

/-- `mkNocRequest`. -/
def config : NocConfig (Fin 4) Direction (BitVec 4) where
  serial := ⟨36, 72, 72, by decide, by decide, by decide⟩
  pack := pack
  unpack := unpack
  unpack_pack := unpack_pack
  wire := wire
  wire_symm := wire_symm
  turn := turn
  tossesBits := false

/-! ## Routes -/

lemma toNat_id (v : Fin 4) : (id v).toNat = v := by
  rw [id, BitVec.toNat_ofNat, Nat.mod_eq_of_lt (by omega)]

lemma eq_id {a : BitVec 4} {v : Fin 4} : a = id v ↔ a.toNat = v := by
  rw [← BitVec.toNat_inj, toNat_id]

lemma id_injective : Function.Injective id := by
  intro u v h
  rw [eq_id, toNat_id] at h
  exact Fin.ext h

/-- The address is further on in this direction. -/
def Ahead (a : BitVec 4) (v : Fin 4) : Direction → Prop
  | .west => a.toNat < v
  | .east => v < a.toNat

/-- The links that are left in a direction. -/
def hops (v : Fin 4) : Direction → ℕ
  | .west => v
  | .east => 3 - v

lemma hops_lt (v : Fin 4) (l : Direction) : hops v l < 4 := by
  cases l
  · exact v.isLt
  · rw [hops]
    omega

/-- The neighbour is one hop nearer to the end, and messages go on there as they came. -/
lemma hops_wire {v v' : Fin 4} {l l' : Direction} (h : wire v l = some (v', l')) : hops v l = hops v' l + 1 := by
  cases l
  all_goals
    simp only [wire, Option.dite_none_right_eq_some, Option.some.injEq, Prod.mk.injEq] at h
    obtain ⟨hlt, rfl, rfl⟩ := h
    simp only [hops]
    omega

/-- A message that arrives at a node goes to the host, or on in the direction in which it came. -/
lemma turn_wire {v v' : Fin 4} {l l' : Direction} {a : BitVec 4} (h : wire v l = some (v', l')) (ha : Ahead a v l) :
    (a = id v' ∧ turn v' (some l') a = some none) ∨
      ∃ k, Ahead a v' k ∧ hops v' k < hops v l ∧ turn v' (some l') a = some (some k) := by
  have hhops := hops_wire h
  cases l
  all_goals
    simp only [wire, Option.dite_none_right_eq_some, Option.some.injEq, Prod.mk.injEq] at h
    obtain ⟨hlt, rfl, rfl⟩ := h
    simp only [Ahead] at ha
    refine (Decidable.em _).imp (fun heq => ⟨heq, if_pos heq⟩) fun hne => ⟨_, ?_, by rw [hhops]; omega, if_neg hne⟩
    rw [eq_id] at hne
    simp only [Ahead] at hne ⊢
    omega

/-- A message from a host goes to the host, or in the direction of its address. -/
lemma turn_host (v : Fin 4) (a : BitVec 4) :
    (a = id v ∧ turn v none a = some none) ∨ ∃ l, Ahead a v l ∧ turn v none a = some (some l) := by
  have hid := toNat_id v
  rw [turn]
  by_cases hlt : a < id v
  · have hlt' := hlt
    rw [BitVec.lt_def, hid] at hlt'
    exact .inr ⟨.west, hlt', if_pos hlt⟩
  · rw [if_neg hlt]
    by_cases heq : a = id v
    · exact .inl ⟨heq, if_pos heq⟩
    · refine .inr ⟨.east, ?_, if_neg heq⟩
      rw [eq_id] at heq
      rw [BitVec.lt_def, hid] at hlt
      simp only [Ahead]
      omega

/-- Messages to a node do not come to the loose ends. -/
lemma not_loose {u v : Fin 4} {l : Direction} (h : Ahead (id u) v l) : config.loose (.inr (v, l)) = false := by
  have hid := toNat_id u
  cases l
  all_goals
    simp only [Ahead, hid] at h
    have hlt : v.val < 4 := v.isLt
    simp only [NocConfig.loose, config, wire]
    rw [dif_pos (by omega)]
    rfl

/-- The routes of the row. -/
def linkOrder : LinkOrder config where
  home := id
  home_injective := id_injective
  Ahead := Ahead
  number := hops
  count := 4
  number_lt := hops_lt
  turn_host := turn_host
  turn_wire := turn_wire
  not_loose := not_loose

/-- **Messages arrive** in the row: those that are acknowledged at a node are addressed to it, each host's in the order in
which it sent them, and none of them twice; when nothing more is sent, every run ends with all of them acknowledged. -/
theorem line_delivers {tr : List (Noc.Event (Fin 4) (BitVec 4))} {s : Noc config} (h : (noc config).Reaches Noc.init tr s) :
    (∀ v, ∀ m ∈ Noc.acked tr v, m.address = id v) ∧
      (∀ v, ∃ ins, (∀ u, ins u <+: Noc.sentTo tr u (id v)) ∧ Merge ins (Noc.acked tr v)) ∧
      ((noc config).guard fun _ a => a.quiet = true).Ends
        (fun tr' _ => ∀ v, Merge (fun u => Noc.sentTo tr u (id v)) (Noc.acked tr' v)) tr s :=
  Noc.run_spec linkOrder.routing h

/-- Host 0 sends a message to node 1. -/
def oneHop :=
  (noc config).run Noc.init <|
    [.send 0 ⟨1, 7⟩, .distribute 0 none, .arbitrate 0 (some .east) none] ++
      List.replicate 36 (.movebit (0, .east)) ++ [.distribute 1 (some .west), .arbitrate 1 none (some .west), .ack 1]

theorem line_delivers_oneHop : Noc.acked oneHop.2 1 = [⟨1, 7⟩] ∧
    ∃ ins, (∀ u, ins u <+: Noc.sentTo oneHop.2 u 1#4) ∧ Merge ins (Noc.acked oneHop.2 1) :=
  ⟨by decide +kernel, (line_delivers (RuleSystem.reaches_run _ _)).2.1 1⟩

end Line

end Xbsv
