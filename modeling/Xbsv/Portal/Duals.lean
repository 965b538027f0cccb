import Xbsv.Portal.Adapter
import Xbsv.Rules.System

set_option relaxedAutoImplicit false
set_option autoImplicit false

/-!
# The adapters are duals

A `mkToBit` whose words go to a `mkFromBit`: values come in at one end, words are passed on one at a time,
and values are fetched at the other end. At every moment the values fetched are the first of those that
came in, and each has taken as many words as it is long.

## Main definitions

* `Xbsv.link` — the two adapters, as a system.
* `Xbsv.Link.Linked` — the state agrees with what has come in and gone out.
* `Xbsv.Link.Dual` — what holds at every moment.

## Main results

* `Xbsv.link_dual` — every run, for values for which the distance of the last word fits 32 bits.
-/

namespace Xbsv

open Rules Bits

/-- A `mkToBit` and a `mkFromBit`. -/
structure Link (n asz : ℕ) where
  toBit : ToBit n asz
  fromBit : FromBit n asz

namespace Link

/-- The methods that are called. -/
inductive Action (asz : ℕ) where
  /-- `enq` of `mkToBit`. -/
  | enq (val : BitVec asz)
  /-- `first` and `deq` of `mkToBit`, `enq` of `mkFromBit`. -/
  | transfer
  /-- `first` and `deq` of `mkFromBit`. -/
  | deq

/-- What can be seen of a run. -/
inductive Event (asz : ℕ) where
  | enqueued (val : BitVec asz)
  | transferred
  | dequeued (val : BitVec asz)
  deriving DecidableEq

variable {n asz : ℕ}

/-- The state after reset. -/
def reset (n asz : ℕ) : Link n asz := ⟨.reset n asz, .reset n asz⟩

/-- The value of an event that is an `enq`. -/
def Event.enqueued? : Event asz → Option (BitVec asz)
  | .enqueued val => some val
  | _ => none

/-- The value of an event that is a `deq`. -/
def Event.dequeued? : Event asz → Option (BitVec asz)
  | .dequeued val => some val
  | _ => none

section Traces

variable (tr es : List (Event asz))

/-- The values that came in. -/
def enqueued : List (BitVec asz) := tr.filterMap Event.enqueued?

/-- The values that were fetched. -/
def dequeued : List (BitVec asz) := tr.filterMap Event.dequeued?

/-- The number of words passed on. -/
def transfers : ℕ := tr.count .transferred

@[simp] lemma enqueued_append : enqueued (tr ++ es) = enqueued tr ++ enqueued es := List.filterMap_append

@[simp] lemma dequeued_append : dequeued (tr ++ es) = dequeued tr ++ dequeued es := List.filterMap_append

@[simp] lemma transfers_append : transfers (tr ++ es) = transfers tr + transfers es := List.count_append

@[simp] lemma enqueued_single (e : Event asz) : enqueued [e] = e.enqueued?.toList := by
  cases e <;> rfl

@[simp] lemma dequeued_single (e : Event asz) : dequeued [e] = e.dequeued?.toList := by
  cases e <;> rfl

end Traces

/-- A word is passed on. -/
def transfer (s : Link n asz) : Option (Link n asz) := do
  let x ← s.toBit.first
  let toBit ← s.toBit.deq
  let fromBit ← s.fromBit.enq x
  return ⟨toBit, fromBit⟩

end Link

open Link

/-- The two adapters as a system of rules. -/
def link (n asz : ℕ) : RuleSystem (Link n asz) (Link.Action asz) (Link.Event asz) where
  step s
    | .enq val => do
      let toBit ← s.toBit.enq val
      return ({ s with toBit }, [.enqueued val])
    | .transfer => do
      let s ← s.transfer
      return (s, [.transferred])
    | .deq => do
      let (val, fromBit) ← s.fromBit.deq
      return ({ s with fromBit }, [.dequeued val])

namespace Link

variable {n asz : ℕ}

/-- The state agrees with the past: `vals` are the values that have not been sent completely, and `j`
words of the first of them have. -/
structure Linked (tr : List (Event asz)) (s : Link n asz) (vals : List (BitVec asz)) (j : ℕ) : Prop where
  sends : s.toBit.Sends j
  toBit : s.toBit.fifo.items = vals.map (BitVec.setWidth (aszn n asz))
  collects : s.fromBit.Collects
    (((vals.map fun v => words n (nwords n asz) v.toNat).headD []).take j)
  flow : enqueued tr = dequeued tr ++ (s.fromBit.fifo.items ++ vals)
  passed : transfers tr =
    ((dequeued tr).length + s.fromBit.fifo.items.length) * nwords n asz + j

/-- What holds at every moment of a run. -/
structure Dual (tr : List (Event asz)) (s : Link n asz) : Prop where
  /-- The values fetched are the first that came in. -/
  prefix_enqueued : dequeued tr <+: enqueued tr
  /-- A value has been sent when all its words have been passed on. -/
  sent : (enqueued tr).length = transfers tr / nwords n asz + s.toBit.fifo.items.length
  /-- A value has been received when all its words have been passed on. -/
  received : (dequeued tr).length + s.fromBit.fifo.items.length = transfers tr / nwords n asz

variable {tr : List (Event asz)} {s s' : Link n asz} {vals : List (BitVec asz)} {j : ℕ}

/-- What an engine that agrees with its past has done. -/
lemma Linked.dual (h : Linked tr s vals j) : Dual tr s := by
  have hdiv : transfers tr / nwords n asz = (dequeued tr).length + s.fromBit.fifo.items.length := by
    have hlt := h.sends.lt
    rw [h.passed, Nat.mul_comm, Nat.mul_add_div (by omega), Nat.div_eq_of_lt hlt, Nat.add_zero]
  refine ⟨?_, ?_, hdiv.symm⟩
  · rw [h.flow]
    exact List.prefix_append _ _
  · rw [hdiv, h.flow, h.toBit]
    simp only [List.length_append, List.length_map]
    omega

/-- A word of a value that is passed on is the next one. -/
lemma Linked.transfer (h : Linked tr s vals j) (hn : 0 < n) (hw : (nwords n asz - 1) * n < 2 ^ 32)
    (hs : s.transfer = some s') : ∃ vals' j', Linked (tr ++ [Event.transferred]) s' vals' j' := by
  have hm : nwords n asz ≤ 2 ^ 32 := by
    have hle : nwords n asz - 1 ≤ (nwords n asz - 1) * n := Nat.le_mul_of_pos_right _ hn
    omega
  simp only [Link.transfer, bind, pure, Option.bind_eq_some_iff, Option.some.injEq] at hs
  obtain ⟨w, hfirst, toBit, hdeq, fromBit, henq, rfl⟩ := hs
  obtain ⟨x, hx, hsent⟩ := h.sends.deq hm hdeq
  -- the value on its way
  obtain ⟨val, rfl⟩ : ∃ val, vals = [val] := by
    have hlen := congrArg List.length (h.toBit.symm.trans hx)
    rw [List.length_map, List.length_singleton] at hlen
    exact List.length_eq_one_iff.mp hlen
  have hval : x = val.setWidth (aszn n asz) := by
    have heq := h.toBit.symm.trans hx
    exact (List.cons.inj heq).1.symm
  have hxNat : x.toNat = val.toNat := by
    rw [hval, BitVec.toNat_setWidth]
    exact Nat.mod_eq_of_lt (Nat.lt_of_lt_of_le val.isLt (Nat.pow_le_pow_right (by omega) (le_aszn hn)))
  have hword : w = BitVec.ofNat n (val.toNat / 2 ^ (n * (nwords n asz - 1 - j))) := by
    have hnext := h.sends.first hw hx
    rw [hfirst, hxNat] at hnext
    exact Option.some.inj hnext
  have hcol := h.collects
  simp only [List.map_cons, List.map_nil, List.headD_cons] at hcol
  have hj := h.sends.lt
  have hlen : ((words n (nwords n asz) val.toNat).take j).length = j := by
    rw [List.length_take, length_words]
    omega
  have htake : (words n (nwords n asz) val.toNat).take j ++ [w] =
      (words n (nwords n asz) val.toNat).take (j + 1) := by
    rw [hword, List.take_succ_eq_append_getElem (by rw [length_words]; exact hj), getElem_words]
  rcases hcol.enq hm henq with ⟨hlast, hnil, hfifo, hcol'⟩ | ⟨hmore, hfifo, hcol'⟩
  · -- the last word: the value is complete
    rw [hlen] at hlast
    have hvalue : BitVec.ofNat asz (ofWords ((words n (nwords n asz) val.toNat).take j ++ [w])) = val := by
      rw [htake, hlast, List.take_of_length_le (by rw [length_words]), ofWords_words]
      refine BitVec.eq_of_toNat_eq ?_
      have hlt := Nat.lt_of_lt_of_le val.isLt (Nat.pow_le_pow_right (by omega : 0 < 2) (le_aszn hn))
      rw [BitVec.toNat_ofNat, Nat.mod_eq_of_lt hlt, Nat.mod_eq_of_lt val.isLt]
    rw [hvalue] at hfifo
    obtain ⟨-, hempty, hsends⟩ | ⟨hmore, -⟩ := hsent
    · refine ⟨[], 0, ⟨hsends, hempty, hcol', ?_, ?_⟩⟩
      · simp [h.flow, hnil, hfifo, Event.enqueued?, Event.dequeued?]
      · have htr := h.passed
        rw [hnil, List.length_nil, Nat.add_zero] at htr
        simp only [transfers_append, dequeued_append, List.length_append, hfifo, List.length_singleton,
          htr]
        have h1 : Link.transfers [(Event.transferred : Event asz)] = 1 := rfl
        have h0 : dequeued [(Event.transferred : Event asz)] = [] := rfl
        simp only [h1, h0, List.length_nil, Nat.add_zero, Nat.add_mul, Nat.one_mul]
        omega
    · omega
  · rw [hlen] at hmore
    obtain ⟨hlast, -⟩ | ⟨-, hsame, hsends⟩ := hsent
    · omega
    · refine ⟨[val], j + 1, ⟨hsends, ?_, ?_, ?_, ?_⟩⟩
      · show toBit.fifo.items = _
        rw [hsame]
        exact h.toBit
      · simp only [List.map_cons, List.map_nil, List.headD_cons]
        rwa [htake] at hcol'
      · simp [h.flow, hfifo, Event.enqueued?, Event.dequeued?]
      · have htr := h.passed
        have h1 : Link.transfers [(Event.transferred : Event asz)] = 1 := rfl
        have h0 : dequeued [(Event.transferred : Event asz)] = [] := rfl
        simp only [transfers_append, dequeued_append, hfifo, h1, h0, List.append_nil, htr]
        omega

/-- A step. -/
lemma Linked.step (h : Linked tr s vals j) (hn : 0 < n) (hw : (nwords n asz - 1) * n < 2 ^ 32)
    {a : Action asz} {es : List (Event asz)} (hs : (link n asz).step s a = some (s', es)) :
    ∃ vals' j', Linked (tr ++ es) s' vals' j' := by
  cases a with
  | enq val =>
    simp only [link, bind, pure, Option.bind_eq_some_iff, Option.some.injEq, Prod.mk.injEq] at hs
    obtain ⟨toBit, henq, rfl, rfl⟩ := hs
    obtain ⟨hnil, hfifo, hsends⟩ := h.sends.enq henq
    have hj : j = 0 := h.sends.idle hnil
    have hvals : vals = [] := by
      have heq := h.toBit
      rw [hnil] at heq
      exact List.map_eq_nil_iff.mp heq.symm
    subst hj hvals
    refine ⟨[val], 0, ⟨hsends, hfifo, h.collects, ?_, ?_⟩⟩
    · simp [h.flow, Event.enqueued?, Event.dequeued?]
    · have h1 : Link.transfers [Event.enqueued val] = 0 := rfl
      have h0 : dequeued [Event.enqueued val] = [] := rfl
      simp only [transfers_append, dequeued_append, h1, h0, List.append_nil, h.passed]
  | transfer =>
    simp only [link, bind, pure, Option.bind_eq_some_iff, Option.some.injEq, Prod.mk.injEq] at hs
    obtain ⟨s₁, htransfer, rfl, rfl⟩ := hs
    exact h.transfer hn hw htransfer
  | deq =>
    simp only [link, bind, pure, Option.bind_eq_some_iff, Prod.exists, Option.some.injEq,
      Prod.mk.injEq] at hs
    obtain ⟨val, fromBit, hdeq, rfl, rfl⟩ := hs
    obtain ⟨hone, hnil, hcol⟩ := h.collects.deq hdeq
    refine ⟨vals, j, ⟨h.sends, h.toBit, hcol, ?_, ?_⟩⟩
    · simp [h.flow, hone, hnil, Event.enqueued?, Event.dequeued?]
    · have h1 : Link.transfers [Event.dequeued val] = 0 := rfl
      have h0 : dequeued [Event.dequeued val] = [val] := rfl
      have hpassed := h.passed
      rw [hone, List.length_singleton] at hpassed
      simp only [transfers_append, dequeued_append, h1, h0, hnil, List.length_append,
        List.length_singleton, List.length_nil, Nat.add_zero, hpassed]

end Link

open Link

variable {n asz : ℕ}

/-- **The adapters are duals.** In every run the values fetched are the first of those that came in, and
each has taken `⌈asz / n⌉` words, as long as the distance by which the last word is shifted fits 32 bits.

**Proof sketch.** Both ends count the same words of the same value. The shift register of `mkFromBit` ends
in the words of the value that have come (`Collects`); what was in it before is shifted out with the last
word, because a padded value has as many bits as the register. -/
theorem link_dual (hn : 1 ≤ n) (ha : 1 ≤ asz) (hw : (nwords n asz - 1) * n < 2 ^ 32)
    {tr : List (Link.Event asz)} {s : Link n asz} (h : (link n asz).Reaches (Link.reset n asz) tr s) :
    Dual tr s := by
  have hlinked : ∃ vals j, Linked tr s vals j := by
    refine h.invariant (I := fun tr s => ∃ vals j, Linked tr s vals j) ?_ ?_
    · exact ⟨[], 0, ⟨ToBit.sends_reset hn ha, rfl, FromBit.collects_reset hn ha, rfl,
        (by rw [Nat.add_zero]; exact (Nat.zero_mul _).symm)⟩⟩
    · rintro tr s a s' es ⟨vals, j, ih⟩ hs
      exact ih.step hn hw hs
  obtain ⟨vals, j, hlinked⟩ := hlinked
  exact hlinked.dual

/-- A value of 72 bits and another one, in words of 32. -/
def twoValues :=
  (link 32 72).run (Link.reset 32 72)
    [.enq 0x090807060504030201, .transfer, .transfer, .transfer, .enq 0x060504030201000000, .deq,
      .transfer, .transfer]

/-- The first has been fetched, and two of three words of the second have been passed on. -/
theorem link_dual_twoValues :
    dequeued twoValues.2 = [0x090807060504030201] ∧ transfers twoValues.2 = 5 ∧
      Dual twoValues.2 twoValues.1 :=
  ⟨by decide +kernel, by decide +kernel,
    link_dual (by decide) (by decide) (by decide) (RuleSystem.reaches_run _ _)⟩

/-! ## Wide values

The distance of the last word is computed in 32 bits. Where it does not fit, another word is sent in its
place. -/

namespace Link

variable {s : Link n asz} {j : ℕ}

/-- `j` words of the value 1 have been passed on, and all of them were 0. -/
structure SendsOne (s : Link n asz) (j : ℕ) : Prop where
  sends : s.toBit.Sends j
  one : ∃ x, s.toBit.fifo.items = [x] ∧ x.toNat = 1
  collects : s.fromBit.Collects (List.replicate j 0)
  nil : s.fromBit.fifo.items = []

/-- The number whose words are all 0. -/
lemma ofWords_replicate (j : ℕ) : ofWords (List.replicate j (0 : BitVec n)) = 0 := by
  induction j with
  | zero => rfl
  | succ j ih =>
    rw [List.replicate_succ, ofWords_cons, ih]
    simp

/-- As long as the value is not shifted to the end, the word given out of the value 1 is 0. -/
lemma first_eq_zero {t : ToBit n asz} {x : BitVec (aszn n asz)} (hx : t.fifo.items = [x])
    (hone : x.toNat = 1) (hd : (t.count * BitVec.ofNat 32 n).toNat + n < aszn n asz) :
    t.first = some 0 := by
  have hfirst : t.fifo.first = some x := Fifo.first_eq_some.mpr ⟨[], hx⟩
  unfold ToBit.first
  rw [hfirst]
  simp only [bind, pure, Option.bind_some, Option.some.injEq]
  refine BitVec.eq_of_toNat_eq ?_
  have hlt : 2 ^ (t.count * BitVec.ofNat 32 n).toNat < 2 ^ (aszn n asz - n) :=
    Nat.pow_lt_pow_right (by omega) (by omega)
  have hle : 2 ^ (aszn n asz - n) ≤ 2 ^ aszn n asz := Nat.pow_le_pow_right (by omega) (by omega)
  rw [rtruncate, BitVec.extractLsb'_toNat, BitVec.shiftLeft_eq', BitVec.toNat_shiftLeft, hone,
    Nat.shiftLeft_eq, Nat.one_mul, Nat.mod_eq_of_lt (Nat.lt_of_lt_of_le hlt hle),
    Nat.shiftRight_eq_div_pow, Nat.div_eq_of_lt hlt, Nat.zero_mod]
  rfl

/-- With words of `2 ^ 31` bits, the distance of the third word is 0. -/
lemma SendsOne.transfer (h : SendsOne s j) (hn : n = 2 ^ 31) (h3 : nwords n asz = 3) :
    ∃ s', s.transfer = some s' ∧ (j + 1 < 3 → SendsOne s' (j + 1)) ∧
      (j + 1 = 3 → s'.fromBit.fifo.items = [0]) := by
  have hj := h.sends.lt
  rw [h3] at hj
  obtain ⟨x, hx, hone⟩ := h.one
  have hsize : aszn n asz = n * 3 := by rw [aszn, h3]
  have hdist : (s.toBit.count * BitVec.ofNat 32 n).toNat ≤ 2 ^ 31 := by
    rw [BitVec.toNat_mul, h.sends.count, BitVec.toNat_ofNat, hn]
    obtain rfl | rfl | rfl : j = 0 ∨ j = 1 ∨ j = 2 := by omega
    all_goals norm_num
  have hfirst := first_eq_zero hx hone (by omega)
  obtain ⟨toBit, hdeq⟩ := ToBit.exists_deq hx
  have hm : nwords n asz ≤ 2 ^ 32 := by omega
  obtain ⟨fromBit, henq⟩ := h.collects.exists_enq hm (.inl h.nil) 0
  refine ⟨⟨toBit, fromBit⟩, by simp only [Link.transfer, hfirst, hdeq, henq, bind, pure, Option.bind_some],
    ?_, ?_⟩
  · intro hlt
    obtain ⟨x', hx', hsent⟩ := h.sends.deq hm hdeq
    obtain ⟨hlast, -⟩ | ⟨-, hsame, hsends⟩ := hsent
    · omega
    · rcases h.collects.enq hm henq with ⟨hlast, -⟩ | ⟨-, hfifo, hcol⟩
      · rw [List.length_replicate] at hlast
        omega
      · refine ⟨hsends, ⟨x, ?_, hone⟩, ?_, ?_⟩
        · show toBit.fifo.items = [x]
          rw [hsame, hx]
        · rwa [List.replicate_succ']
        · show fromBit.fifo.items = []
          rw [hfifo, h.nil]
  · intro hlast
    rcases h.collects.enq hm henq with ⟨-, -, hfifo, -⟩ | ⟨hlt, -⟩
    · have hz : ofWords (List.replicate j (0 : BitVec n) ++ [0]) = 0 := by
        rw [← List.replicate_succ', ofWords_replicate]
      rw [hz] at hfifo
      exact hfifo
    · rw [List.length_replicate] at hlt
      omega

/-- The value 1 goes in and the value 0 comes out. -/
lemma exists_not_dual (hn : n = 2 ^ 31) (ha : asz = 2 ^ 32 + 1) :
    ∃ tr s, (link n asz).Reaches (Link.reset n asz) tr s ∧
      enqueued tr = [1] ∧ dequeued tr = [0] ∧ ¬ Dual tr s := by
  have h3 : nwords n asz = 3 := by
    rw [nwords, hn, ha]
    norm_num
  have hle : asz ≤ aszn n asz := le_aszn (by omega)
  have hsends : ToBit.Sends (ToBit.reset n asz) 0 := ToBit.sends_reset (by omega) (by omega)
  obtain ⟨fifo, henq, hfifo⟩ := Fifo.exists_enq (q := (ToBit.reset n asz).fifo) Nat.zero_lt_one
    ((1 : BitVec asz).setWidth (aszn n asz))
  have hval : (1 : BitVec asz).toNat = 1 := by
    rw [BitVec.ofNat_eq_ofNat, BitVec.toNat_ofNat]
    exact Nat.mod_eq_of_lt (Nat.one_lt_two_pow (by omega))
  have hone : ((1 : BitVec asz).setWidth (aszn n asz)).toNat = 1 := by
    rw [BitVec.toNat_setWidth, hval]
    exact Nat.mod_eq_of_lt (Nat.one_lt_two_pow (by omega))
  have h0 : SendsOne ⟨{ ToBit.reset n asz with fifo }, FromBit.reset n asz⟩ 0 :=
    ⟨⟨rfl, hsends.lt, fun _ => rfl⟩, ⟨_, hfifo, hone⟩,
      FromBit.collects_reset (by omega) (by omega), rfl⟩
  obtain ⟨s₁, hs₁, h₁, -⟩ := h0.transfer hn h3
  obtain ⟨s₂, hs₂, h₂, -⟩ := (h₁ (by omega)).transfer hn h3
  obtain ⟨s₃, hs₃, -, hout⟩ := (h₂ (by omega)).transfer hn h3
  obtain ⟨rest, hdeq, -⟩ := Fifo.exists_deq (hout rfl)
  have hrun : (link n asz).exec (Link.reset n asz) [.enq 1, .transfer, .transfer, .transfer, .deq] =
      some (⟨s₃.toBit, { s₃.fromBit with fifo := rest }⟩,
        [.enqueued 1, .transferred, .transferred, .transferred, .dequeued 0]) := by
    have hstart : (Link.reset n asz).toBit = ToBit.reset n asz := rfl
    have hstart' : (Link.reset n asz).fromBit = FromBit.reset n asz := rfl
    simp only [RuleSystem.exec, link, bind, pure, hstart, hstart', ToBit.enq, henq, Option.bind_some, hs₁,
      hs₂, hs₃, FromBit.deq, hdeq]
    rfl
  refine ⟨_, _, RuleSystem.reaches_of_exec hrun, rfl, rfl, fun h => ?_⟩
  have hprefix : [(0 : BitVec asz)] <+: [1] := h.prefix_enqueued
  have heq := (List.cons_prefix_cons.mp hprefix).1
  have hnat := congrArg BitVec.toNat heq
  rw [hval, BitVec.ofNat_eq_ofNat, BitVec.toNat_ofNat, Nat.zero_mod] at hnat
  omega

end Link

/-- Values of `2 ^ 32 + 1` bits in words of `2 ^ 31`: the value 1 goes in and the value 0 comes out. -/
theorem not_dual_wideValue :
    ∃ tr s, (link (2 ^ 31) (2 ^ 32 + 1)).Reaches (Link.reset (2 ^ 31) (2 ^ 32 + 1)) tr s ∧
      enqueued tr = [1] ∧ dequeued tr = [0] ∧ ¬ Dual tr s :=
  exists_not_dual rfl rfl

end Xbsv
