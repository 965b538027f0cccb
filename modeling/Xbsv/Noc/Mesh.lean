import Xbsv.Noc.Delivery

set_option relaxedAutoImplicit false
set_option autoImplicit false

/-!
# `examples/noc2d`

Sixteen nodes in a square, with links up and down in both dimensions. A message goes to the column of its address first,
and then to the row. What would go back through the port where it came in is thrown away, and at the loose ends of the
square the bits of the links are tossed.

A message that turns from the first dimension to the second never turns back, which is why nothing gets stuck.

## Main definitions

* `Xbsv.Mesh.config` — the square.
* `Xbsv.Mesh.linkOrder` — the way of the messages.

## Main results

* `Xbsv.Mesh.mesh_delivers` — messages arrive in order where they are addressed, and all of them do.
-/

namespace Xbsv

open Rules

namespace Mesh

/-! ## The source -/

/-- The links of a node in the dimension `i`: number `2 * i` and `2 * i + 1`. -/
inductive Link
  | up (i : Fin 2)
  | down (i : Fin 2)
  deriving DecidableEq, Fintype

/-- The numbers of a node in both dimensions. -/
abbrev NodeId : Type := Fin 4 × Fin 4

/-- `address`, the elements of the vector. -/
abbrev Address : Type := BitVec 4 × BitVec 4

/-- `id`. -/
def id (v : NodeId) : Address := (BitVec.ofNat 4 v.1, BitVec.ofNat 4 v.2)

/-- A message as a word. -/
def pack (m : DataMessage Address) : BitVec 40 := m.address.2 ++ m.address.1 ++ m.payload

def unpack (b : BitVec 40) : DataMessage Address := ⟨(b.extractLsb' 32 4, b.extractLsb' 36 4), b.extractLsb' 0 32⟩

/-- `mkXLinks` and `mkYLinks`: a link up comes in at the port down of the next node, and back. -/
def wire (v : NodeId) : Link → Option (NodeId × Link)
  | .up 0 => if h : v.1.val + 1 < 4 then some ((⟨v.1 + 1, h⟩, v.2), .down 0) else none
  | .down 0 => if h : 0 < v.1.val then some ((⟨v.1 - 1, by omega⟩, v.2), .up 0) else none
  | .up 1 => if h : v.2.val + 1 < 4 then some ((v.1, ⟨v.2 + 1, h⟩), .down 1) else none
  | .down 1 => if h : 0 < v.2.val then some ((v.1, ⟨v.2 - 1, by omega⟩), .up 1) else none

/-- `mkDistributor`. -/
def distributor (v : NodeId) (a : Address) : Option Link :=
  if a.1 < (id v).1 then some (.down 0)
  else if (id v).1 < a.1 then some (.up 0)
  else
    if a.2 < (id v).2 then some (.down 1)
    else if (id v).2 < a.2 then some (.up 1)
    else none

/-- The buffers from a link to itself are `mkDiscard`. -/
def turn (v : NodeId) (p : Option Link) (a : Address) : Option (Option Link) :=
  if distributor v a = p ∧ p ≠ none then none else some (distributor v a)

lemma unpack_pack (m : DataMessage Address) : unpack (pack m) = m := by
  obtain ⟨⟨x, y⟩, payload⟩ := m
  simp only [unpack, pack, DataMessage.mk.injEq, Prod.mk.injEq]
  refine ⟨⟨?_, ?_⟩, ?_⟩
  all_goals
    ext i hi
    simp only [BitVec.getElem_extractLsb', BitVec.getLsbD_append]
  · rw [if_neg (by omega), if_pos (by omega), Nat.add_sub_cancel_left, ← BitVec.getLsbD_eq_getElem hi]
  · rw [if_neg (by omega), if_neg (by omega), ← BitVec.getLsbD_eq_getElem hi]
    congr 1
    omega
  · rw [Nat.zero_add, if_pos hi, ← BitVec.getLsbD_eq_getElem hi]

lemma wire_symm {v v' : NodeId} {l l' : Link} (h : wire v l = some (v', l')) : wire v' l' = some (v, l) := by
  match l with
  | .up 0 | .down 0 | .up 1 | .down 1 =>
    simp only [wire, Option.dite_none_right_eq_some, Option.some.injEq, Prod.mk.injEq] at h
    obtain ⟨hlt, rfl, rfl⟩ := h
    simp only [wire]
    rw [dif_pos (by omega)]
    simp only [Option.some.injEq, and_true, true_and, Prod.ext_iff, Fin.ext_iff]
    omega

/-- `mkNocRequest`. -/
def config : NocConfig NodeId Link Address where
  serial := ⟨40, 80, 80, by decide, by decide, by decide⟩
  pack := pack
  unpack := unpack
  unpack_pack := unpack_pack
  wire := wire
  wire_symm := wire_symm
  turn := turn
  tossesBits := true

/-! ## Routes -/

lemma toNat_id (v : NodeId) : (id v).1.toNat = v.1 ∧ (id v).2.toNat = v.2 := by
  constructor
  all_goals
    rw [id, BitVec.toNat_ofNat, Nat.mod_eq_of_lt (by omega)]

lemma eq_id {a : Address} {v : NodeId} : a = id v ↔ a.1.toNat = v.1 ∧ a.2.toNat = v.2 := by
  rw [Prod.ext_iff, ← BitVec.toNat_inj, ← BitVec.toNat_inj, (toNat_id v).1, (toNat_id v).2]

lemma id_injective : Function.Injective id := by
  intro u v h
  rw [eq_id, (toNat_id u).1, (toNat_id u).2] at h
  exact Prod.ext (Fin.ext h.1) (Fin.ext h.2)

/-- The way of the message goes on through this link. -/
def Ahead (a : Address) (v : NodeId) : Link → Prop
  | .up 0 => v.1 < a.1.toNat
  | .down 0 => a.1.toNat < v.1
  | .up 1 => a.1.toNat = v.1 ∧ v.2 < a.2.toNat
  | .down 1 => a.1.toNat = v.1 ∧ a.2.toNat < v.2

/-- The links that are left in a direction; those of the first dimension come before the others. -/
def hops (v : NodeId) : Link → ℕ
  | .up 0 => 7 - v.1
  | .down 0 => 4 + v.1
  | .up 1 => 3 - v.2
  | .down 1 => v.2

lemma hops_lt (v : NodeId) (l : Link) : hops v l < 8 := by
  match l with
  | .up 0 | .down 0 | .up 1 | .down 1 =>
    simp only [hops]
    omega

/-- What the distributor does, with numbers. -/
lemma distributor_eq (v : NodeId) (a : Address) : distributor v a =
    if a.1.toNat < v.1 then some (.down 0) else if v.1 < a.1.toNat then some (.up 0)
    else if a.2.toNat < v.2 then some (.down 1) else if v.2 < a.2.toNat then some (.up 1) else none := by
  simp only [distributor, BitVec.lt_def, (toNat_id v).1, (toNat_id v).2]

/-- The distributor sends a message to the host, or further on its way. -/
lemma distributor_cases (v : NodeId) (a : Address) :
    (a = id v ∧ distributor v a = none) ∨ ∃ l, Ahead a v l ∧ distributor v a = some l := by
  rw [distributor_eq, eq_id]
  split
  · exact .inr ⟨.down 0, ‹_›, rfl⟩
  · split
    · exact .inr ⟨.up 0, ‹_›, rfl⟩
    · split
      · exact .inr ⟨.down 1, ⟨by omega, ‹_›⟩, rfl⟩
      · split
        · exact .inr ⟨.up 1, ⟨by omega, ‹_›⟩, rfl⟩
        · exact .inl ⟨⟨by omega, by omega⟩, rfl⟩

/-- From the node where a link leads the way of the message goes on through a link with less hops, and not back. -/
lemma hops_wire {v v' : NodeId} {l l' k : Link} {a : Address} (h : wire v l = some (v', l')) (ha : Ahead a v l)
    (hk : Ahead a v' k) : hops v' k < hops v l ∧ k ≠ l' := by
  match l with
  | .up 0 | .down 0 | .up 1 | .down 1 =>
    simp only [wire, Option.dite_none_right_eq_some, Option.some.injEq, Prod.mk.injEq] at h
    obtain ⟨hlt, rfl, rfl⟩ := h
    match k with
    | .up 0 | .down 0 | .up 1 | .down 1 =>
      simp only [Ahead] at ha hk
      simp only [hops, ne_eq, reduceCtorEq, not_false_eq_true, Link.up.injEq, Link.down.injEq, Fin.isValue, and_true]
      omega

/-- What arrives over a link goes to the host, or on its way. -/
lemma turn_wire {v v' : NodeId} {l l' : Link} {a : Address} (h : wire v l = some (v', l')) (ha : Ahead a v l) :
    (a = id v' ∧ turn v' (some l') a = some none) ∨
      ∃ k, Ahead a v' k ∧ hops v' k < hops v l ∧ turn v' (some l') a = some (some k) := by
  rcases distributor_cases v' a with ⟨heq, hd⟩ | ⟨k, hk, hd⟩
  · refine .inl ⟨heq, ?_⟩
    rw [turn, hd, if_neg (fun hback => by cases hback.1)]
  · obtain ⟨hlt, hne⟩ := hops_wire h ha hk
    refine .inr ⟨k, hk, hlt, ?_⟩
    rw [turn, hd, if_neg (fun hback => hne (Option.some.inj hback.1))]

/-- What comes from a host goes to the host, or on its way. -/
lemma turn_host (v : NodeId) (a : Address) :
    (a = id v ∧ turn v none a = some none) ∨ ∃ l, Ahead a v l ∧ turn v none a = some (some l) := by
  have hturn : turn v none a = some (distributor v a) := if_neg fun hback => hback.2 rfl
  rw [hturn]
  exact (distributor_cases v a).imp (fun h => ⟨h.1, congrArg some h.2⟩) fun ⟨l, hl, hd⟩ => ⟨l, hl, congrArg some hd⟩

/-- Messages to a node do not come to the loose ends. -/
lemma not_loose {u v : NodeId} {l : Link} (h : Ahead (id u) v l) : config.loose (.inr (v, l)) = false := by
  obtain ⟨hx, hy⟩ := toNat_id u
  match l with
  | .up 0 | .down 0 | .up 1 | .down 1 =>
    simp only [Ahead, hx, hy] at h
    simp only [NocConfig.loose, config, wire]
    rw [dif_pos (by omega)]
    rfl

/-- The routes of the square. -/
def linkOrder : LinkOrder config where
  home := id
  home_injective := id_injective
  Ahead := Ahead
  number := hops
  count := 8
  number_lt := hops_lt
  turn_host := turn_host
  turn_wire := turn_wire
  not_loose := not_loose

/-- **Messages arrive** in the square: those that are acknowledged at a node are addressed to it, each host's in the order
in which it sent them, and none of them twice; when nothing more is sent, every run ends with all of them acknowledged. -/
theorem mesh_delivers {tr : List (Noc.Event NodeId Address)} {s : Noc config} (h : (noc config).Reaches Noc.init tr s) :
    (∀ v, ∀ m ∈ Noc.acked tr v, m.address = id v) ∧
      (∀ v, ∃ ins, (∀ u, ins u <+: Noc.sentTo tr u (id v)) ∧ Merge ins (Noc.acked tr v)) ∧
      ((noc config).guard fun _ a => a.quiet = true).Ends
        (fun tr' _ => ∀ v, Merge (fun u => Noc.sentTo tr u (id v)) (Noc.acked tr' v)) tr s :=
  Noc.run_spec linkOrder.routing h

/-- The host of node (0, 0) sends a message to node (1, 1). -/
def twoHops :=
  (noc config).run Noc.init <|
    [.send (0, 0) ⟨(1, 1), 7⟩, .distribute (0, 0) none, .arbitrate (0, 0) (some (.up 0)) none] ++
      List.replicate 40 (.movebit ((0, 0), .up 0)) ++
      [.distribute (1, 0) (some (.down 0)), .arbitrate (1, 0) (some (.up 1)) (some (.down 0))] ++
      List.replicate 40 (.movebit ((1, 0), .up 1)) ++
      [.distribute (1, 1) (some (.down 1)), .arbitrate (1, 1) none (some (.down 1)), .ack (1, 1)]

theorem mesh_delivers_twoHops : Noc.acked twoHops.2 (1, 1) = [⟨(1, 1), 7⟩] ∧
    ∃ ins, (∀ u, ins u <+: Noc.sentTo twoHops.2 u (1#4, 1#4)) ∧ Merge ins (Noc.acked twoHops.2 (1, 1)) :=
  ⟨by decide +kernel, (mesh_delivers (RuleSystem.reaches_run _ _)).2.1 (1, 1)⟩

end Mesh

end Xbsv
