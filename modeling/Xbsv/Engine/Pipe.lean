import Xbsv.Rules.Drain
import Xbsv.Dma.MemTypes

set_option relaxedAutoImplicit false
set_option autoImplicit false

/-!
# Funnels

`mkFunnelPipesPipelined` and `mkUnFunnelPipesPipelined` of `Pipe.bsv`: trees of queues between one
narrow end and `k` wide ends, `bpc` bits of the index of the wide end to a stage. A node of a tree is a
level, counted from the end where elements leave, and an index in that level.

In a funnel the inputs are the nodes of level `stages`; an element goes from node `i` of a level to node
`i / 2 ^ bpc` of the next. Which input it came from is not recorded, so a stream of a funnel is any
part of its traffic that enters at one input.

In an unfunnel an element carries the index of its output in a tag, whose highest bits choose the next
node and are then shifted out. The single input is the node of level `stages + 1`, and the outputs of
the tree are the nodes of level 1; level 0 are the queues that a `mkConnection` joins to the outputs.

The instance for `k = 1` returns its input, which here is a tree without stages.

## Main definitions

* `Xbsv.funnelRoute`, `Xbsv.unfunnelRoute` — where an element goes next.
* `Xbsv.funnelPaths`, `Xbsv.unfunnelPaths` — the streams.

## Main results

* `Xbsv.funnel_follows`, `Xbsv.unfunnel_follows` — elements stay on the paths of their streams; for an
  unfunnel, the stream is the number of the output.
-/

namespace Xbsv

open Rules

/-- A node of a tree: its level and its index there. -/
abbrev Node := ℕ × ℕ

/-- `stages`: the number of stages, `TDiv#(TLog#(k), bpc)`, rounded up. -/
def stages (k bpc : ℕ) : ℕ := if k ≤ 1 then 0 else (tlog k + bpc - 1) / bpc

/-- The stages take up all bits of an index. -/
lemma tlog_le_stages {k bpc : ℕ} (hb : k ≤ 1 ∨ 0 < bpc) : tlog k ≤ stages k bpc * bpc := by
  unfold stages
  split
  · rename_i hk
    simp [tlog, hk]
  · rename_i hk
    have hb : 0 < bpc := by omega
    have h := Nat.div_add_mod (tlog k + bpc - 1) bpc
    have hm := Nat.mod_lt (tlog k + bpc - 1) hb
    rw [Nat.mul_comm] at h
    omega

/-- `bpc` as the engines choose it: two bits to a stage, if the index has as many. -/
def bitsPerCycle (k : ℕ) : ℕ := min 2 (tlog k)

/-- A stage uses up no more bits than the index has. -/
lemma bitsPerCycle_le (k : ℕ) : bitsPerCycle k ≤ tlog k := Nat.min_le_right _ _

/-- With more than one wide end a stage uses up some bit. -/
lemma bitsPerCycle_pos (k : ℕ) : k ≤ 1 ∨ 0 < bitsPerCycle k := by
  unfold bitsPerCycle tlog
  split
  · left
    assumption
  · right
    omega

/-- The last stage is needed. -/
lemma stages_lt_tlog {k bpc : ℕ} (hs : 0 < stages k bpc) :
    0 < bpc ∧ (stages k bpc - 1) * bpc < tlog k := by
  unfold stages at hs ⊢
  split at hs
  · omega
  · rename_i hk
    rw [if_neg hk]
    have hb : 0 < bpc := by
      by_contra h0
      obtain rfl : bpc = 0 := by omega
      simp at hs
    refine ⟨hb, ?_⟩
    have h := Nat.div_mul_le_self (tlog k + bpc - 1) bpc
    have hpos : bpc ≤ (tlog k + bpc - 1) / bpc * bpc := Nat.le_mul_of_pos_left _ hs
    rw [Nat.sub_mul, Nat.one_mul]
    omega

/-! ## Funnels -/

section Funnel

variable {α β K : Type} (k bpc : ℕ)

/-- The queues of a funnel: inputs of capacity `inCap`, and a `mkFIFOF` at every other node. -/
def funnelCap (inCap : ℕ) (n : Node) : ℕ := if n.1 = stages k bpc then inCap else 2

/-- The connections of `mkFunnelPipesPipelined`. -/
def funnelRoute (n : Node) (x : α) : Option (Node × α) :=
  if 0 < n.1 ∧ n.1 ≤ stages k bpc ∧ n.2 < 2 ^ (n.1 * bpc) ∧ n.2 < k then
    some ((n.1 - 1, n.2 / 2 ^ bpc), x)
  else none

/-- Streams of a funnel: the elements with the same `key`, which enter at input `home key`. -/
def funnelPaths (key : α → K) (pay : α → β) (home : K → ℕ) : Net.Paths Node α β K where
  key _ := key
  pay := pay
  level := Prod.fst
  pos c j := (j, home c / 2 ^ ((stages k bpc - j) * bpc))

variable {k bpc}

/-- Elements follow the path from the input of their stream. -/
lemma funnel_follows (key : α → K) (pay : α → β) (home : K → ℕ) :
    (funnelPaths k bpc key pay home).Follows (funnelRoute k bpc) where
  level_pos _ _ := rfl
  route_eq := by
    rintro ⟨j, i⟩ x m y hroute hpos
    simp only [funnelRoute, Option.ite_none_right_eq_some, Option.some.injEq, Prod.mk.injEq] at hroute
    obtain ⟨⟨hj, hle, -, -⟩, rfl, rfl⟩ := hroute
    simp only [funnelPaths, Prod.mk.injEq, true_and] at hpos ⊢
    refine ⟨by omega, ?_⟩
    rw [← hpos, Nat.div_div_eq_div_mul, ← Nat.pow_add]
    congr 2
    obtain ⟨d, hd⟩ : ∃ d, stages k bpc = j + d := ⟨_, (Nat.add_sub_of_le hle).symm⟩
    rw [hd, show j + d - (j - 1) = d + 1 by omega, show j + d - j = d by omega, Nat.add_mul,
      Nat.one_mul]

/-- Streams enter at their inputs. -/
lemma funnelPaths_top (key : α → K) (pay : α → β) (home : K → ℕ) (c : K) :
    (funnelPaths k bpc key pay home).pos c (stages k bpc) = (stages k bpc, home c) := by
  simp [funnelPaths]

/-- All streams leave at one node. -/
lemma funnelPaths_bottom (hb : k ≤ 1 ∨ 0 < bpc) (key : α → K) (pay : α → β) {home : K → ℕ} {c : K}
    (hc : home c < k) : (funnelPaths k bpc key pay home).pos c 0 = (0, 0) := by
  have h₁ := le_two_pow_tlog k
  have h₂ : 2 ^ tlog k ≤ 2 ^ (stages k bpc * bpc) :=
    Nat.pow_le_pow_right (by omega) (tlog_le_stages hb)
  simp only [funnelPaths, Nat.sub_zero, Prod.mk.injEq, true_and]
  exact Nat.div_eq_of_lt (by omega)

/-- An element that is not at the bottom can be routed on. -/
lemma exists_funnelRoute (hb : k ≤ 1 ∨ 0 < bpc) {key : α → K} {pay : α → β} {home : K → ℕ} {x : α}
    {n : Node} (hn : (funnelPaths k bpc key pay home).pos (key x) n.1 = n) (hx : home (key x) < k)
    (h0 : 0 < n.1) (hle : n.1 ≤ stages k bpc) :
    n.2 < k ∧ funnelRoute k bpc n x = some ((n.1 - 1, n.2 / 2 ^ bpc), x) := by
  have hn2 : home (key x) / 2 ^ ((stages k bpc - n.1) * bpc) = n.2 := congrArg Prod.snd hn
  have hk : n.2 < k := by
    rw [← hn2]
    exact (Nat.div_le_self _ _).trans_lt hx
  refine ⟨hk, if_pos ⟨h0, hle, ?_, hk⟩⟩
  have h₁ := le_two_pow_tlog k
  have h₂ : 2 ^ tlog k ≤ 2 ^ (stages k bpc * bpc) :=
    Nat.pow_le_pow_right (by omega) (tlog_le_stages hb)
  rw [← hn2, Nat.div_lt_iff_lt_mul (Nat.two_pow_pos _), ← Nat.pow_add, ← Nat.add_mul,
    Nat.add_sub_of_le hle]
  omega

/-- The nodes of a funnel that are in use. -/
def funnelNodes (k bpc : ℕ) : Finset Node := Finset.range (stages k bpc + 1) ×ˢ Finset.range k

section Draining

variable {inCap : ℕ} {key : α → K} {pay : α → β} {home : K → ℕ} {s : Net (funnelCap k bpc inCap) α}

/-- The elements of a funnel are at the nodes in use, and at the bottom at one node. -/
lemma node_of_mem_items (hb : k ≤ 1 ∨ 0 < bpc) (hc : s.Confined (funnelPaths k bpc key pay home))
    (hl : s.Everywhere fun n _ => n.1 ≤ stages k bpc) (hk : s.Everywhere fun _ x => home (key x) < k)
    {n : Node} {x : α} (hx : x ∈ s.items n) : n ∈ funnelNodes k bpc ∧ (n.1 = 0 → n = (0, 0)) := by
  have hpos : (funnelPaths k bpc key pay home).pos (key x) n.1 = n := hc n x hx
  have hle := hl n x hx
  have hlt : n.2 < k := by
    have hdiv : home (key x) / 2 ^ ((stages k bpc - n.1) * bpc) = n.2 := congrArg Prod.snd hpos
    rw [← hdiv]
    exact (Nat.div_le_self _ _).trans_lt (hk n x hx)
  refine ⟨?_, fun h0 => ?_⟩
  · rw [funnelNodes, Finset.mem_product, Finset.mem_range, Finset.mem_range]
    exact ⟨by omega, hlt⟩
  · rw [h0, funnelPaths_bottom hb key pay (hk n x hx)] at hpos
    exact hpos.symm

/-- **A funnel can be drained.** As long as it holds elements and none of them is at the bottom, one
can move: below the lowest element there is room. -/
lemma exists_funnelMove (hb : k ≤ 1 ∨ 0 < bpc) (hc : s.Confined (funnelPaths k bpc key pay home))
    (hl : s.Everywhere fun n _ => n.1 ≤ stages k bpc) (hk : s.Everywhere fun _ x => home (key x) < k)
    (hbottom : s.items (0, 0) = []) (hne : ∃ n, s.items n ≠ []) (c : ℕ) :
    ∃ n s', s.move (funnelRoute k bpc) n = some s' ∧
      s.weight (funnelNodes k bpc) (fun n => n.1 + c) =
        s'.weight (funnelNodes k bpc) (fun n => n.1 + c) + 1 := by
  have hnode := fun {n x} (hx : x ∈ s.items n) => node_of_mem_items hb hc hl hk hx
  have hlevel : ∀ n, s.items n ≠ [] → 0 < n.1 := by
    intro n hn
    obtain ⟨x, hx⟩ := List.exists_mem_of_ne_nil _ hn
    by_contra h0
    rw [(hnode hx).2 (by omega)] at hn
    exact hn hbottom
  have hcap (n : Node) (hn : n.1 ≠ stages k bpc) : 0 < funnelCap k bpc inCap n := by
    rw [funnelCap, if_neg hn]
    decide
  refine Net.exists_move_down Prod.fst (fun n hn => ?_) (fun n x hx h0 => ?_) ?_ c
  · obtain ⟨x, hx⟩ := List.exists_mem_of_ne_nil _ hn
    exact (hnode hx).1
  · obtain ⟨hn2, hr⟩ := exists_funnelRoute hb (hc n x hx) (hk n x hx) h0 (hl n x hx)
    have hle := hl n x hx
    have hroom := hcap (n.1 - 1, n.2 / 2 ^ bpc) (by simp only; omega)
    refine ⟨_, _, hr, ?_, by simp only; omega, hroom, fun hm0 => ?_⟩
    · rw [funnelNodes, Finset.mem_product, Finset.mem_range, Finset.mem_range]
      exact ⟨by simp only; omega, (Nat.div_le_self _ _).trans_lt hn2⟩
    · by_contra hfull
      have hm : s.items (n.1 - 1, n.2 / 2 ^ bpc) ≠ [] := by
        intro hempty
        rw [hempty, List.length_nil] at hfull
        exact hfull hroom
      have := hlevel _ hm
      omega
  · obtain ⟨n, hn⟩ := hne
    exact ⟨n, hlevel n hn, hn⟩

end Draining

end Funnel

/-! ## Unfunnels -/

section Unfunnel

variable {β : Type} (k bpc : ℕ)

/-- The queues of an unfunnel: `outCap` elements at the outputs, and a `mkFIFOF` at every other node. -/
def unfunnelCap (outCap : ℕ) (n : Node) : ℕ := if n.1 = 0 then outCap else 2

/-- The rules `xfer` of `mkUnFunnelPipesPipelined`, and the connections of its outputs. -/
def unfunnelRoute (n : Node) (x : BitVec (tlog k) × β) : Option (Node × (BitVec (tlog k) × β)) :=
  if n.1 = 1 then
    if n.2 < k then some ((0, n.2), (0, x.2)) else none
  else if 2 ≤ n.1 ∧ n.1 ≤ stages k bpc + 1 then
    let j := stages k bpc + 1 - n.1
    let bits := if j = stages k bpc - 1 then tlog k - j * bpc else bpc
    let l := (x.1 >>> (tlog k - bpc)).toNat / 2 ^ (bpc - bits)
    let idx := 2 ^ bits * n.2 + l
    if n.2 < 2 ^ (j * bpc) ∧ (x.1 >>> (tlog k - bpc)).toNat = l * 2 ^ (bpc - bits) ∧ idx < k then
      some ((n.1 - 1, idx), (x.1 <<< bpc, x.2))
    else none
  else none

/-- The bits of an index that are left in the tag of an element at a level other than 0. -/
def tagShift (level : ℕ) : ℕ := (stages k bpc + 1 - level) * bpc

/-- The output that an element at a node is on its way to. -/
def outputOf (n : Node) (tag : BitVec (tlog k)) : ℕ :=
  if n.1 = 0 then n.2
  else n.2 * 2 ^ (tlog k - tagShift k bpc n.1) + tag.toNat / 2 ^ tagShift k bpc n.1

/-- Streams of an unfunnel: the elements on their way to one output. -/
def unfunnelPaths : Net.Paths Node (BitVec (tlog k) × β) β ℕ where
  key n x := outputOf k bpc n x.1
  pay := Prod.snd
  level := Prod.fst
  pos c j := if j = 0 then (0, c) else (j, c / 2 ^ (tlog k - tagShift k bpc j))

variable {k bpc}

/-- The tag holds only bits of the index that the node does not tell yet. -/
lemma outputOf_div {n : Node} (hn : n.1 ≠ 0) (tag : BitVec (tlog k)) :
    outputOf k bpc n tag / 2 ^ (tlog k - tagShift k bpc n.1) = n.2 := by
  have hlt : tag.toNat / 2 ^ tagShift k bpc n.1 < 2 ^ (tlog k - tagShift k bpc n.1) := by
    rw [Nat.div_lt_iff_lt_mul (Nat.two_pow_pos _), ← Nat.pow_add]
    refine Nat.lt_of_lt_of_le tag.isLt (Nat.pow_le_pow_right (by omega) ?_)
    omega
  rw [outputOf, if_neg hn, Nat.add_comm, Nat.add_mul_div_right _ _ (Nat.two_pow_pos _),
    Nat.div_eq_of_lt hlt, Nat.zero_add]

/-- The index of a node is the beginning of that of the output. -/
lemma index_le_outputOf {j i : ℕ} (hj : j ≠ 0) (tag : BitVec (tlog k)) :
    i ≤ outputOf k bpc (j, i) tag := by
  have hdiv : outputOf k bpc (j, i) tag / 2 ^ (tlog k - tagShift k bpc j) = i :=
    outputOf_div hj tag
  have hle := Nat.div_le_self (outputOf k bpc (j, i) tag) (2 ^ (tlog k - tagShift k bpc j))
  rwa [hdiv] at hle

/-- An element at a node is on the path to its output. -/
lemma unfunnelPaths_pos (n : Node) (x : BitVec (tlog k) × β) :
    (unfunnelPaths (β := β) k bpc).pos ((unfunnelPaths k bpc).key n x)
      ((unfunnelPaths (β := β) k bpc).level n) = n := by
  simp only [unfunnelPaths]
  split
  · rename_i hn
    rw [outputOf, if_pos hn, ← hn]
  · rename_i hn
    rw [outputOf_div hn]

/-- A stage that is not the last uses up `c` bits of the tag: `a` bits were used up before, and `b` are
left afterwards. -/
lemma tag_step {t a b c : ℕ} : (t / (2 ^ a * 2 ^ b)) * 2 ^ b +
    (t * 2 ^ c % (2 ^ a * 2 ^ b * 2 ^ c)) / (2 ^ a * 2 ^ c) = t / 2 ^ a := by
  rw [Nat.mul_mod_mul_right, Nat.mul_div_mul_right _ _ (Nat.two_pow_pos c), Nat.mod_mul_right_div_self,
    ← Nat.div_div_eq_div_mul, Nat.mul_comm]
  exact Nat.div_add_mod _ _

/-- A stage before the last. -/
lemma outputOf_stage {j i : ℕ} {t : BitVec (tlog k)} (hj : j + 1 < stages k bpc) :
    outputOf k bpc (stages k bpc - j, 2 ^ bpc * i + (t >>> (tlog k - bpc)).toNat) (t <<< bpc) =
      outputOf k bpc (stages k bpc + 1 - j, i) t := by
  have hs : 0 < stages k bpc := by omega
  obtain ⟨hb, hlast⟩ := stages_lt_tlog hs
  have hle : (j + 1) * bpc ≤ (stages k bpc - 1) * bpc := Nat.mul_le_mul_right _ (by omega)
  obtain ⟨b, hk⟩ : ∃ b, tlog k = j * bpc + b + bpc := by
    rw [Nat.add_mul, Nat.one_mul] at hle
    exact ⟨tlog k - bpc - j * bpc, by omega⟩
  have h₁ : tagShift k bpc (stages k bpc - j) = j * bpc + bpc := by
    rw [tagShift, show stages k bpc + 1 - (stages k bpc - j) = j + 1 by omega, Nat.add_mul, Nat.one_mul]
  have h₂ : tagShift k bpc (stages k bpc + 1 - j) = j * bpc := by
    rw [tagShift, show stages k bpc + 1 - (stages k bpc + 1 - j) = j by omega]
  have e₁ : tlog k - (j * bpc + bpc) = b := by omega
  have e₂ : tlog k - j * bpc = b + bpc := by omega
  have e₃ : tlog k - bpc = j * bpc + b := by omega
  have hstep := tag_step (t := t.toNat) (a := j * bpc) (b := b) (c := bpc)
  rw [← Nat.pow_add, ← Nat.pow_add, ← Nat.pow_add, ← hk] at hstep
  rw [outputOf, outputOf, if_neg (by simp; omega), if_neg (by simp; omega)]
  simp only [h₁, h₂, e₁, e₂, e₃, BitVec.toNat_ushiftRight, Nat.shiftRight_eq_div_pow,
    BitVec.toNat_shiftLeft, Nat.shiftLeft_eq]
  rw [← hstep, Nat.add_mul, Nat.add_assoc]
  congr 1
  rw [Nat.pow_add, Nat.mul_comm (2 ^ bpc) i, Nat.mul_assoc, Nat.mul_comm (2 ^ bpc)]

/-- The last stage, which uses up what is left of the tag. -/
lemma outputOf_lastStage {i l : ℕ} {t : BitVec (tlog k)} (hb : bpc ≤ tlog k)
    (hs : 0 < stages k bpc)
    (hl : (t >>> (tlog k - bpc)).toNat =
      l * 2 ^ (bpc - (tlog k - (stages k bpc - 1) * bpc))) :
    outputOf k bpc (1, 2 ^ (tlog k - (stages k bpc - 1) * bpc) * i + l) (t <<< bpc) =
      outputOf k bpc (2, i) t := by
  obtain ⟨hb0, hlast⟩ := stages_lt_tlog hs
  have hall : tlog k ≤ stages k bpc * bpc := tlog_le_stages (.inr hb0)
  obtain ⟨m, hm⟩ : ∃ m, stages k bpc = m + 1 := ⟨stages k bpc - 1, by omega⟩
  rw [hm, Nat.add_sub_cancel] at hl hlast ⊢
  rw [hm, Nat.add_mul, Nat.one_mul] at hall
  have h₁ : tagShift k bpc 1 = m * bpc + bpc := by
    rw [tagShift, hm, show m + 1 + 1 - 1 = m + 1 by omega, Nat.add_mul, Nat.one_mul]
  have h₂ : tagShift k bpc 2 = m * bpc := by
    rw [tagShift, hm, show m + 1 + 1 - 2 = m by omega]
  -- nothing is left of the tag after the last shift
  have hzero : (t <<< bpc).toNat / 2 ^ (m * bpc + bpc) = 0 :=
    Nat.div_eq_of_lt (Nat.lt_of_lt_of_le (t <<< bpc).isLt (Nat.pow_le_pow_right (by omega) hall))
  have htop : l = t.toNat / 2 ^ (m * bpc) := by
    rw [BitVec.toNat_ushiftRight, Nat.shiftRight_eq_div_pow] at hl
    have hdiv := congrArg (· / 2 ^ (bpc - (tlog k - m * bpc))) hl
    simp only [Nat.mul_div_cancel _ (Nat.two_pow_pos _), Nat.div_div_eq_div_mul, ← Nat.pow_add] at hdiv
    rw [← hdiv]
    congr 2
    omega
  rw [outputOf, outputOf, if_neg (by simp), if_neg (by simp)]
  simp only [h₁, h₂, hzero, ← htop, show tlog k - (m * bpc + bpc) = 0 by omega, Nat.pow_zero,
    Nat.mul_one, Nat.add_zero]
  rw [Nat.mul_comm]

/-- Elements follow the path to their output. -/
lemma unfunnel_follows (hk : k ≤ 1 ∨ 0 < bpc) (hb : bpc ≤ tlog k) :
    (unfunnelPaths (β := β) k bpc).Follows (unfunnelRoute k bpc) where
  level_pos c j := by
    simp only [unfunnelPaths]
    split
    · rename_i h
      exact h.symm
    · rfl
  route_eq := by
    rintro ⟨j, i⟩ ⟨t, v⟩ m y hroute -
    -- an element at the next node is on its path; so it is enough that its output is the same
    suffices hkey : j = m.1 + 1 ∧ outputOf k bpc m y.1 = outputOf k bpc (j, i) t ∧ y.2 = v by
      refine ⟨hkey.1, hkey.2.1, hkey.2.2, ?_⟩
      have hpos : (unfunnelPaths k bpc).pos ((unfunnelPaths k bpc).key m y)
          ((unfunnelPaths (β := β) k bpc).level m) = m := unfunnelPaths_pos m y
      simp only [unfunnelPaths] at hpos ⊢
      rw [hkey.2.1] at hpos
      exact hpos
    simp only [unfunnelRoute] at hroute
    split at hroute
    · rename_i hj
      subst hj
      simp only [Option.ite_none_right_eq_some, Option.some.injEq, Prod.mk.injEq] at hroute
      obtain ⟨-, rfl, rfl⟩ := hroute
      refine ⟨rfl, ?_, rfl⟩
      have hshift : tlog k ≤ tagShift k bpc 1 := by
        rw [tagShift, Nat.add_sub_cancel]
        exact tlog_le_stages hk
      have hzero : t.toNat / 2 ^ tagShift k bpc 1 = 0 :=
        Nat.div_eq_of_lt (Nat.lt_of_lt_of_le t.isLt (Nat.pow_le_pow_right (by omega) hshift))
      simp [outputOf, hzero, Nat.sub_eq_zero_of_le hshift]
    · split at hroute
      · rename_i hj
        simp only [Option.ite_none_right_eq_some, Option.some.injEq, Prod.mk.injEq] at hroute
        obtain ⟨⟨-, htop, -⟩, rfl, rfl⟩ := hroute
        refine ⟨by simp; omega, ?_, rfl⟩
        obtain ⟨hj2, hle⟩ := hj
        by_cases hlast : stages k bpc + 1 - j = stages k bpc - 1
        · obtain rfl : j = 2 := by omega
          simp only [hlast, if_true] at htop ⊢
          exact outputOf_lastStage hb (by omega) htop
        · simp only [hlast, if_false, Nat.sub_self, Nat.pow_zero, Nat.div_one]
          have hstage : outputOf k bpc (stages k bpc - (stages k bpc + 1 - j),
                2 ^ bpc * i + (t >>> (tlog k - bpc)).toNat) (t <<< bpc) =
              outputOf k bpc (stages k bpc + 1 - (stages k bpc + 1 - j), i) t :=
            outputOf_stage (by omega)
          rw [show stages k bpc - (stages k bpc + 1 - j) = j - 1 by omega,
            show stages k bpc + 1 - (stages k bpc + 1 - j) = j by omega] at hstage
          exact hstage
      · cases hroute

/-- An element at a node is on its way to an output, and the bits of its tag that have been used up are
gone. -/
structure Directed (k bpc : ℕ) (n : Node) (x : BitVec (tlog k) × β) : Prop where
  level_le : n.1 ≤ stages k bpc + 1
  output_lt : outputOf k bpc n x.1 < k
  dvd : 2 ≤ n.1 → 2 ^ tagShift k bpc n.1 ∣ x.1.toNat

/-- The input for an output. -/
lemma directed_top {i : ℕ} (hi : i < k) (v : β) :
    Directed k bpc (stages k bpc + 1, 0) (BitVec.ofNat (tlog k) i, v) := by
  have hle := le_two_pow_tlog k
  have hval : (BitVec.ofNat (tlog k) i).toNat = i := by
    rw [BitVec.toNat_ofNat, Nat.mod_eq_of_lt (by omega)]
  refine ⟨Nat.le_refl _, ?_, fun _ => ?_⟩
  · simpa [outputOf, tagShift, hval] using hi
  · simp [tagShift]

/-- The nodes in use are numbered below `k`. -/
lemma Directed.node_lt {n : Node} {x : BitVec (tlog k) × β} (h : Directed k bpc n x) :
    n.2 < k := by
  have hlt := h.output_lt
  by_cases hn : n.1 = 0
  · rwa [outputOf, if_pos hn] at hlt
  · exact (index_le_outputOf hn x.1).trans_lt hlt

/-- Elements that move stay of this kind. -/
lemma Directed.route (hk : k ≤ 1 ∨ 0 < bpc) (hb : bpc ≤ tlog k) {n m : Node}
    {x y : BitVec (tlog k) × β} (h : Directed k bpc n x)
    (hr : unfunnelRoute k bpc n x = some (m, y)) : n.1 = m.1 + 1 ∧ Directed k bpc m y := by
  obtain ⟨hlevel, hkey, -, -⟩ := (unfunnel_follows hk hb).route_eq hr (unfunnelPaths_pos n x)
  have hlevel' : n.1 = m.1 + 1 := hlevel
  have hle := h.level_le
  have hout : outputOf k bpc m y.1 = outputOf k bpc n x.1 := hkey
  refine ⟨hlevel, by omega, by rw [hout]; exact h.output_lt, fun hm => ?_⟩
  -- a stage before the last shifts the tag by `bpc`
  have hy : y.1 = x.1 <<< bpc := by
    simp only [unfunnelRoute] at hr
    rw [if_neg (by omega)] at hr
    split at hr
    · simp only [Option.ite_none_right_eq_some, Option.some.injEq, Prod.mk.injEq] at hr
      rw [← hr.2.2]
    · cases hr
  obtain ⟨t, ht⟩ := h.dvd (by omega)
  have hs : 0 < stages k bpc := by omega
  obtain ⟨hb0, hlast⟩ := stages_lt_tlog hs
  have hshift : tagShift k bpc m.1 = tagShift k bpc n.1 + bpc := by
    rw [tagShift, tagShift, show stages k bpc + 1 - m.1 = stages k bpc + 1 - n.1 + 1 by omega,
      Nat.add_mul, Nat.one_mul]
  have hlt : tagShift k bpc m.1 ≤ tlog k := by
    have : tagShift k bpc m.1 ≤ (stages k bpc - 1) * bpc := Nat.mul_le_mul_right _ (by omega)
    omega
  rw [hy, BitVec.toNat_shiftLeft, Nat.shiftLeft_eq, ht, hshift, Nat.pow_add, Nat.mul_right_comm]
  rw [hshift] at hlt
  refine (Nat.dvd_mod_iff ?_).mpr (Nat.dvd_mul_right _ _)
  rw [← Nat.pow_add]
  exact Nat.pow_dvd_pow 2 hlt

/-- Elements that have not arrived can be routed on. -/
lemma Directed.exists_route (hk : k ≤ 1 ∨ 0 < bpc) (hb : bpc ≤ tlog k) {n : Node}
    {x : BitVec (tlog k) × β} (h : Directed k bpc n x) (h0 : 0 < n.1) :
    ∃ m y, unfunnelRoute k bpc n x = some (m, y) := by
  obtain ⟨j, i⟩ := n
  have hi : i < k := h.node_lt
  have hle := h.level_le
  simp only at h0 hle
  simp only [unfunnelRoute]
  by_cases hj1 : j = 1
  · exact ⟨(0, i), (0, x.2), by rw [if_pos hj1, if_pos hi]⟩
  · rw [if_neg hj1, if_pos ⟨by omega, hle⟩]
    have hs : 0 < stages k bpc := by omega
    obtain ⟨hb0, hlast⟩ := stages_lt_tlog hs
    have hshift : tagShift k bpc j < tlog k := by
      have : tagShift k bpc j ≤ (stages k bpc - 1) * bpc := Nat.mul_le_mul_right _ (by omega)
      omega
    have hi2 : i < 2 ^ ((stages k bpc + 1 - j) * bpc) := by
      have hdiv : outputOf k bpc (j, i) x.1 / 2 ^ (tlog k - tagShift k bpc j) = i :=
        outputOf_div (by simpa using h0.ne') x.1
      rw [← hdiv, Nat.div_lt_iff_lt_mul (Nat.two_pow_pos _), ← Nat.pow_add]
      have h₁ := le_two_pow_tlog k
      have h₂ := h.output_lt
      rw [show (stages k bpc + 1 - j) * bpc + (tlog k - tagShift k bpc j) = tlog k from
        Nat.add_sub_of_le hshift.le]
      omega
    by_cases hj2 : j = 2
    · subst hj2
      have hj : stages k bpc + 1 - 2 = stages k bpc - 1 := by omega
      rw [hj] at hi2
      simp only [hj, if_true]
      -- the bits of the tag below those that are left are zero
      have htop : (x.1 >>> (tlog k - bpc)).toNat = (x.1 >>> (tlog k - bpc)).toNat /
          2 ^ (bpc - (tlog k - (stages k bpc - 1) * bpc)) *
            2 ^ (bpc - (tlog k - (stages k bpc - 1) * bpc)) := by
        refine (Nat.div_mul_cancel ?_).symm
        obtain ⟨t, ht⟩ := h.dvd (Nat.le_refl 2)
        have hall := tlog_le_stages hk
        have hsplit : stages k bpc * bpc = (stages k bpc - 1) * bpc + bpc := by
          rw [Nat.sub_mul, Nat.one_mul, Nat.sub_add_cancel (Nat.le_mul_of_pos_left _ hs)]
        have hpow : tagShift k bpc 2 =
            (tlog k - bpc) + (bpc - (tlog k - (stages k bpc - 1) * bpc)) := by
          rw [tagShift, hj]
          omega
        rw [BitVec.toNat_ushiftRight, Nat.shiftRight_eq_div_pow, ht, hpow, Nat.pow_add, Nat.mul_assoc,
          Nat.mul_div_cancel_left _ (Nat.two_pow_pos _)]
        exact Nat.dvd_mul_right _ _
      have hout := outputOf_lastStage (i := i) hb hs htop
      have hlt := h.output_lt
      rw [← hout] at hlt
      rw [if_pos ⟨hi2, htop, (index_le_outputOf (by simp) _).trans_lt hlt⟩]
      exact ⟨_, _, rfl⟩
    · have hj : stages k bpc + 1 - j ≠ stages k bpc - 1 := by omega
      simp only [hj, if_false, Nat.sub_self, Nat.pow_zero, Nat.div_one, Nat.mul_one]
      have hout : outputOf k bpc (stages k bpc - (stages k bpc + 1 - j),
            2 ^ bpc * i + (x.1 >>> (tlog k - bpc)).toNat) (x.1 <<< bpc) =
          outputOf k bpc (stages k bpc + 1 - (stages k bpc + 1 - j), i) x.1 :=
        outputOf_stage (by omega)
      rw [show stages k bpc + 1 - (stages k bpc + 1 - j) = j by omega] at hout
      have hlt := h.output_lt
      rw [← hout] at hlt
      rw [if_pos ⟨hi2, trivial, (index_le_outputOf (by omega) _).trans_lt hlt⟩]
      exact ⟨_, _, rfl⟩

end Unfunnel

end Xbsv
