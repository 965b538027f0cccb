import Xbsv.Bits.Words
import Xbsv.Rules.Fifo

set_option relaxedAutoImplicit false
set_option autoImplicit false

/-!
# Values as streams of words

`mkToBit` gives out a value of `asz` bits in words of `n`, the most significant first, and `mkFromBit`
takes in words and puts values together. The value is padded with zeros, on the most significant side, to
a whole number of words. Both count words in a register of 32 bits; `mkToBit` also computes the distance
by which the value is shifted in 32 bits.

## Main definitions

* `Xbsv.ToBit`, `Xbsv.FromBit` — the states, with the methods of the modules.
* `Xbsv.ToBit.Sends`, `Xbsv.FromBit.Collects` — how far a value has been sent and received.

## Main results

* `Xbsv.ToBit.Sends.deq`, `Xbsv.FromBit.Collects.enq` — one word.
-/

namespace Xbsv

open Rules Bits

/-- `nwords`, `Div#(asz,n,nwords)`: the number of words of a value. -/
def nwords (n asz : ℕ) : ℕ := (asz + n - 1) / n

/-- `aszn`: the size of a padded value. -/
abbrev aszn (n asz : ℕ) : ℕ := n * nwords n asz

/-- The words hold the value. -/
lemma le_aszn {n asz : ℕ} (hn : 0 < n) : asz ≤ aszn n asz := by
  have h := Nat.div_add_mod (asz + n - 1) n
  have hlt := Nat.mod_lt (asz + n - 1) hn
  unfold aszn nwords
  omega

/-- There is at least one word. -/
lemma nwords_pos {n asz : ℕ} (hn : 0 < n) (ha : 0 < asz) : 0 < nwords n asz :=
  Nat.div_pos (by omega) hn

/-- `rtruncate`: the most significant bits. -/
def rtruncate {b : ℕ} (a : ℕ) (x : BitVec b) : BitVec a := x.extractLsb' (b - a) a

/-- The state of `mkToBit`. -/
structure ToBit (n asz : ℕ) where
  fifo : Fifo 1 (BitVec (aszn n asz))
  count : BitVec 32

/-- The state of `mkFromBit`. -/
structure FromBit (n asz : ℕ) where
  fbnbuff : BitVec (aszn n asz)
  count : BitVec 32
  fifo : Fifo 1 (BitVec asz)

variable {n asz : ℕ}

namespace ToBit

/-- The state after reset. -/
def reset (n asz : ℕ) : ToBit n asz := ⟨.empty, 0⟩

/-- `max`: the number of the last word. -/
def max (n asz : ℕ) : BitVec 32 := BitVec.ofNat 32 (nwords n asz) - 1

/-- Method `enq`. -/
def enq (s : ToBit n asz) (val : BitVec asz) : Option (ToBit n asz) := do
  let fifo ← s.fifo.enq (val.setWidth (aszn n asz))
  return { s with fifo }

/-- Method `first`. -/
def first (s : ToBit n asz) : Option (BitVec n) := do
  let x ← s.fifo.first
  return rtruncate n (x <<< (s.count * BitVec.ofNat 32 n))

/-- Method `deq`. -/
def deq (s : ToBit n asz) : Option (ToBit n asz) := do
  let (_, fifo) ← s.fifo.deq
  if s.count = max n asz then
    return { s with count := 0, fifo }
  else
    return { s with count := s.count + 1 }

/-- Method `notEmpty`. -/
def notEmpty (s : ToBit n asz) : Bool := !s.fifo.items.isEmpty

end ToBit

namespace FromBit

/-- The state after reset. -/
def reset (n asz : ℕ) : FromBit n asz := ⟨0, 0, .empty⟩

/-- `max`: the number of the last word. -/
def max (n asz : ℕ) : BitVec 32 := BitVec.ofNat 32 (nwords n asz) - 1

/-- Method `notFull`. -/
def notFull (s : FromBit n asz) : Bool := s.fifo.items.isEmpty

/-- Method `enq`. -/
def enq (s : FromBit n asz) (x : BitVec n) : Option (FromBit n asz) :=
  if s.count < max n asz ∨ s.notFull then do
    let newbuff : BitVec (aszn n asz) := (s.fbnbuff ++ x).setWidth (aszn n asz)
    if s.count = max n asz then
      let fifo ← s.fifo.enq (newbuff.setWidth asz)
      return { s with fbnbuff := newbuff, count := 0, fifo }
    else
      return { s with fbnbuff := newbuff, count := s.count + 1 }
  else none

/-- Methods `first` and `deq`. -/
def deq (s : FromBit n asz) : Option (BitVec asz × FromBit n asz) := do
  let (x, fifo) ← s.fifo.deq
  return (x, { s with fifo })

end FromBit

/-! ## Sending -/

namespace ToBit

/-- `j` words of the value in the queue have been sent, if there is one. -/
structure Sends (s : ToBit n asz) (j : ℕ) : Prop where
  count : s.count.toNat = j
  lt : j < nwords n asz
  idle : s.fifo.items = [] → j = 0

variable {s s' : ToBit n asz} {j : ℕ}

lemma sends_reset (hn : 0 < n) (ha : 0 < asz) : (reset n asz).Sends 0 where
  count := rfl
  lt := nwords_pos hn ha
  idle _ := rfl

/-- The number of the last word, as a number. -/
lemma max_toNat (hpos : 0 < nwords n asz) (hm : nwords n asz ≤ 2 ^ 32) :
    (max n asz).toNat = nwords n asz - 1 := by
  unfold max
  rw [BitVec.toNat_sub, BitVec.toNat_ofNat]
  have h1 : (1 : BitVec 32).toNat = 1 := rfl
  rw [h1]
  omega

/-- A value comes in. -/
lemma Sends.enq (h : s.Sends j) {val : BitVec asz} (hs : s.enq val = some s') :
    s.fifo.items = [] ∧ s'.fifo.items = [val.setWidth (aszn n asz)] ∧ s'.Sends j := by
  simp only [ToBit.enq, bind, pure, Option.bind_eq_some_iff, Fifo.enq_eq_some, Option.some.injEq] at hs
  obtain ⟨fifo, ⟨hlen, hfifo⟩, rfl⟩ := hs
  have hnil : s.fifo.items = [] := List.eq_nil_of_length_eq_zero (by omega)
  rw [hnil, List.nil_append] at hfifo
  refine ⟨hnil, hfifo, ⟨h.count, h.lt, fun he => ?_⟩⟩
  rw [hfifo] at he
  cases he

/-- The word that is given out is the next one of the value. -/
lemma Sends.first (h : s.Sends j) (hw : (nwords n asz - 1) * n < 2 ^ 32) {x : BitVec (aszn n asz)}
    (hx : s.fifo.items = [x]) :
    s.first = some (BitVec.ofNat n (x.toNat / 2 ^ (n * (nwords n asz - 1 - j)))) := by
  have hfirst : s.fifo.first = some x := Fifo.first_eq_some.mpr ⟨[], hx⟩
  have hj := h.lt
  -- the distance is computed without overflow
  have hle : j * n ≤ (nwords n asz - 1) * n := Nat.mul_le_mul_right n (by omega)
  have hn32 : j * n = j * (n % 2 ^ 32) := by
    rcases Nat.eq_zero_or_pos j with rfl | hpos
    · simp
    · have : n ≤ j * n := Nat.le_mul_of_pos_left n hpos
      rw [Nat.mod_eq_of_lt (by omega)]
  have hdist : (s.count * BitVec.ofNat 32 n).toNat = j * n := by
    rw [BitVec.toNat_mul, h.count, BitVec.toNat_ofNat, ← hn32, Nat.mod_eq_of_lt (by omega)]
  have hpow : aszn n asz = j * n + n * (nwords n asz - 1 - j) + n := by
    obtain ⟨d, hd⟩ := Nat.exists_eq_add_of_lt hj
    have hd' : nwords n asz - 1 - j = d := by omega
    unfold aszn
    rw [hd', hd]
    ring
  unfold ToBit.first
  rw [hfirst]
  simp only [bind, pure, Option.bind_some, Option.some.injEq]
  refine BitVec.eq_of_toNat_eq ?_
  rw [rtruncate, BitVec.extractLsb'_toNat, BitVec.shiftLeft_eq', BitVec.toNat_shiftLeft, hdist,
    Nat.shiftLeft_eq, Nat.shiftRight_eq_div_pow, BitVec.toNat_ofNat]
  have hsize : aszn n asz - n = j * n + n * (nwords n asz - 1 - j) := by omega
  rw [hsize, ← shifted_word x.toNat (j * n) (n * (nwords n asz - 1 - j)) n, ← hpow]

/-- The word at a distance that is computed as 0 is the first one. -/
lemma Sends.first_of_zero {s : ToBit 32 asz} {j : ℕ} (h : s.Sends j) (hj : j * 32 % 2 ^ 32 = 0)
    {x : BitVec (aszn 32 asz)} (hx : s.fifo.items = [x]) :
    s.first = some (BitVec.ofNat 32 (x.toNat / 2 ^ (aszn 32 asz - 32))) := by
  have hf : s.fifo.first = some x := Fifo.first_eq_some.mpr ⟨[], hx⟩
  have hdist : (s.count * BitVec.ofNat 32 32).toNat = 0 := by
    rw [BitVec.toNat_mul, h.count, BitVec.toNat_ofNat]
    exact hj
  unfold ToBit.first
  rw [hf]
  simp only [bind, pure, Option.bind_some, Option.some.injEq]
  refine BitVec.eq_of_toNat_eq ?_
  rw [rtruncate, BitVec.extractLsb'_toNat, BitVec.shiftLeft_eq', hdist, BitVec.shiftLeft_zero,
    Nat.shiftRight_eq_div_pow, BitVec.toNat_ofNat]

/-- A word has been taken. -/
lemma Sends.deq (h : s.Sends j) (hm : nwords n asz ≤ 2 ^ 32) (hs : s.deq = some s') :
    ∃ x, s.fifo.items = [x] ∧
      ((j + 1 = nwords n asz ∧ s'.fifo.items = [] ∧ s'.Sends 0) ∨
        (j + 1 < nwords n asz ∧ s'.fifo = s.fifo ∧ s'.Sends (j + 1))) := by
  have hj := h.lt
  have hmax : (max n asz).toNat = nwords n asz - 1 := max_toNat (by omega) hm
  have hlen := s.fifo.length_le
  simp only [ToBit.deq, bind, pure, Option.bind_eq_some_iff, Prod.exists, Fifo.deq_eq_some] at hs
  obtain ⟨x, fifo, hfifo, hs⟩ := hs
  have hrest : fifo.items = [] := by
    rw [hfifo, List.length_cons] at hlen
    exact List.eq_nil_of_length_eq_zero (by omega)
  rw [hrest] at hfifo
  refine ⟨x, hfifo, ?_⟩
  have hlast : s.count = max n asz ↔ j + 1 = nwords n asz := by
    rw [← BitVec.toNat_inj, h.count, hmax]
    omega
  split at hs
  · rename_i he
    cases hs
    exact .inl ⟨hlast.mp he, hrest, ⟨rfl, by omega, fun _ => rfl⟩⟩
  · rename_i he
    cases hs
    have hne : j + 1 ≠ nwords n asz := fun h1 => he (hlast.mpr h1)
    refine .inr ⟨by omega, rfl, ⟨?_, by omega, fun hnil => ?_⟩⟩
    · show (s.count + 1).toNat = j + 1
      rw [BitVec.toNat_add, h.count]
      have h1 : (1 : BitVec 32).toNat = 1 := rfl
      rw [h1]
      omega
    · rw [show s.fifo.items = [x] from hfifo] at hnil
      cases hnil

/-- A word can be taken if there is a value. -/
lemma exists_deq {x : BitVec (aszn n asz)} (hx : s.fifo.items = [x]) : ∃ s', s.deq = some s' := by
  obtain ⟨fifo, hfifo, -⟩ := Fifo.exists_deq (q := s.fifo) hx
  simp only [ToBit.deq, hfifo, bind, Option.bind_some, pure]
  split <;> exact ⟨_, rfl⟩

end ToBit

/-! ## Receiving -/

namespace FromBit

/-- The words `ws` of the next value have been received. -/
structure Collects (s : FromBit n asz) (ws : List (BitVec n)) : Prop where
  count : s.count.toNat = ws.length
  lt : ws.length < nwords n asz
  fbnbuff : s.fbnbuff.toNat % 2 ^ (n * ws.length) = ofWords ws

variable {s s' : FromBit n asz} {ws : List (BitVec n)}

lemma collects_reset (hn : 0 < n) (ha : 0 < asz) : (reset n asz).Collects [] where
  count := rfl
  lt := nwords_pos hn ha
  fbnbuff := by simp [Nat.mod_one]

/-- The number of the last word, as a number. -/
lemma max_toNat (hpos : 0 < nwords n asz) (hm : nwords n asz ≤ 2 ^ 32) :
    (max n asz).toNat = nwords n asz - 1 := ToBit.max_toNat hpos hm

/-- The buffer after one more word. -/
lemma Collects.newbuff (h : s.Collects ws) (x : BitVec n) :
    ((s.fbnbuff ++ x).setWidth (aszn n asz)).toNat % 2 ^ (n * (ws ++ [x]).length) =
      ofWords (ws ++ [x]) := by
  have hlt := h.lt
  have hle : n * (ws ++ [x]).length ≤ aszn n asz := by
    rw [List.length_append, List.length_singleton]
    exact Nat.mul_le_mul_left n hlt
  have happ : (s.fbnbuff ++ x).toNat = s.fbnbuff.toNat * 2 ^ n + x.toNat := by
    rw [BitVec.toNat_append, ← Nat.shiftLeft_add_eq_or_of_lt x.isLt, Nat.shiftLeft_eq]
  have hpow : 2 ^ (n * (ws ++ [x]).length) = 2 ^ n * 2 ^ (n * ws.length) := by
    rw [List.length_append, List.length_singleton, Nat.mul_succ, pow_add, Nat.mul_comm]
  rw [BitVec.toNat_setWidth, Nat.mod_mod_of_dvd _ (Nat.pow_dvd_pow 2 hle), happ, ofWords_concat,
    ← h.fbnbuff, hpow, Nat.mul_comm, Nat.mod_mul, Nat.mul_add_mod, Nat.mod_eq_of_lt x.isLt,
    Nat.mul_add_div (Nat.two_pow_pos n), Nat.div_eq_of_lt x.isLt, Nat.add_zero]
  ring

/-- **A word is received**: it is the last of a value, which must find room, or another one. -/
lemma Collects.enq (h : s.Collects ws) (hm : nwords n asz ≤ 2 ^ 32) {x : BitVec n}
    (hs : s.enq x = some s') :
    (ws.length + 1 = nwords n asz ∧ s.fifo.items = [] ∧
        s'.fifo.items = [BitVec.ofNat asz (ofWords (ws ++ [x]))] ∧ s'.Collects []) ∨
      (ws.length + 1 < nwords n asz ∧ s'.fifo = s.fifo ∧ s'.Collects (ws ++ [x])) := by
  have hlt := h.lt
  have hmax : (max n asz).toNat = nwords n asz - 1 := max_toNat (by omega) hm
  have hnew := h.newbuff x
  have hlast : s.count = max n asz ↔ ws.length + 1 = nwords n asz := by
    rw [← BitVec.toNat_inj, h.count, hmax]
    omega
  simp only [FromBit.enq, Option.ite_none_right_eq_some, bind, pure] at hs
  obtain ⟨-, hs⟩ := hs
  split at hs
  · rename_i he
    have hone := hlast.mp he
    simp only [Option.bind_eq_some_iff, Fifo.enq_eq_some, Option.some.injEq] at hs
    obtain ⟨fifo, ⟨hroom, hfifo⟩, rfl⟩ := hs
    have hnil : s.fifo.items = [] := List.eq_nil_of_length_eq_zero (by omega)
    rw [hnil, List.nil_append] at hfifo
    refine .inl ⟨hone, hnil, ?_, ⟨rfl, by simp only [List.length_nil]; omega, by simp [Nat.mod_one]⟩⟩
    rw [List.length_append, List.length_singleton, hone, Nat.mod_eq_of_lt (BitVec.isLt _)] at hnew
    rw [hfifo, ← hnew]
    congr 1
    refine BitVec.eq_of_toNat_eq ?_
    rw [BitVec.toNat_setWidth, BitVec.toNat_ofNat]
  · rename_i he
    cases hs
    have hne : ws.length + 1 ≠ nwords n asz := fun h1 => he (hlast.mpr h1)
    refine .inr ⟨by omega, rfl, ⟨?_, ?_, hnew⟩⟩
    · show (s.count + 1).toNat = (ws ++ [x]).length
      rw [BitVec.toNat_add, h.count, List.length_append, List.length_singleton]
      have h1 : (1 : BitVec 32).toNat = 1 := rfl
      rw [h1]
      omega
    · rw [List.length_append, List.length_singleton]
      omega

/-- A word can be received if the queue of values is empty or there are more words to come. -/
lemma Collects.exists_enq (h : s.Collects ws) (hm : nwords n asz ≤ 2 ^ 32)
    (hroom : s.fifo.items = [] ∨ ws.length + 1 < nwords n asz) (x : BitVec n) :
    ∃ s', s.enq x = some s' := by
  have hlt := h.lt
  have hmax : (max n asz).toNat = nwords n asz - 1 := max_toNat (by omega) hm
  have hguard : s.count < max n asz ∨ s.notFull = true := by
    rcases hroom with hnil | hmore
    · right
      rw [notFull, hnil]
      rfl
    · left
      rw [BitVec.lt_def, h.count, hmax]
      omega
  simp only [FromBit.enq, hguard, if_true, bind, pure]
  split
  · rename_i he
    have hnil : s.fifo.items = [] := by
      rcases hroom with hnil | hmore
      · exact hnil
      · have := congrArg BitVec.toNat he
        rw [h.count, hmax] at this
        omega
    obtain ⟨fifo, hfifo, -⟩ := Fifo.exists_enq (q := s.fifo) (by rw [hnil]; exact Nat.zero_lt_one)
      (((s.fbnbuff ++ x).setWidth (aszn n asz)).setWidth asz)
    exact ⟨_, by rw [hfifo]; rfl⟩
  · exact ⟨_, rfl⟩

/-- A value is fetched. -/
lemma Collects.deq (h : s.Collects ws) {x : BitVec asz} (hs : s.deq = some (x, s')) :
    s.fifo.items = [x] ∧ s'.fifo.items = [] ∧ s'.Collects ws := by
  have hlen := s.fifo.length_le
  simp only [FromBit.deq, bind, pure, Option.bind_eq_some_iff, Prod.exists, Fifo.deq_eq_some,
    Option.some.injEq, Prod.mk.injEq] at hs
  obtain ⟨y, fifo, hfifo, rfl, rfl⟩ := hs
  have hrest : fifo.items = [] := by
    rw [hfifo, List.length_cons] at hlen
    exact List.eq_nil_of_length_eq_zero (by omega)
  rw [hrest] at hfifo
  exact ⟨hfifo, hrest, ⟨h.count, h.lt, h.fbnbuff⟩⟩

end FromBit

end Xbsv
