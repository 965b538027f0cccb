import Mathlib.Data.List.OfFn
import Xbsv.Dma.MemTypes
import Xbsv.Rules.Lanes

set_option relaxedAutoImplicit false
set_option autoImplicit false

/-!
# A queue of vectors

`mkMIFO` takes in up to `maxIn` elements at a time and gives out `nOut` at a time. Its elements are dealt out
to `maxIn` lanes, each with a queue of its own. A vector that comes in is rotated so that its elements stand
at their lanes, and waits, with a mask of the lanes it has an element for, until these have room. Positions
are kept modulo `maxIn`.

## Main definitions

* `Xbsv.Mifo` — the state, with the methods and the rule of the module.
* `Xbsv.Mifo.Holds` — the elements in the queue.

## Main results

* `Xbsv.Mifo.Holds.enq`, `Xbsv.Mifo.Holds.tofifos`, `Xbsv.Mifo.Holds.first_deq` — as a queue, for a number of
  lanes that is a power of two.
-/

namespace Xbsv

open Rules

/-- `LUInt#(n)`: a number up to `n`. -/
abbrev LUInt (n : ℕ) : Type := BitVec (tlog (n + 1))

/-- The state of `mkMIFO`. -/
structure Mifo (maxIn : ℕ) (α : Type) where
  inFifo : Fifo 2 (Fin maxIn → α)
  posFifo : Fifo 2 (BitVec (tlog maxIn))
  inCountFifo : Fifo 2 (LUInt maxIn)
  weFifo : Fifo 2 (Fin maxIn → Bool)
  fifos : Fin maxIn → Fifo 2 α
  inPos : BitVec (tlog maxIn)
  outPos : BitVec (tlog maxIn)

variable {maxIn nOut : ℕ} {α : Type}

/-- `rotateBy`: every element moves up by `k` places, and those at the end come to the front. -/
def rotateBy [NeZero maxIn] {β : Type} (v : Fin maxIn → β) (k : BitVec (tlog maxIn)) : Fin maxIn → β :=
  fun i => v (Fin.ofNat maxIn (i + (maxIn - k.toNat % maxIn)))

namespace Mifo

variable [NeZero maxIn]

/-- The state after reset. -/
def reset (maxIn : ℕ) (α : Type) : Mifo maxIn α :=
  ⟨.empty, .empty, .empty, .empty, fun _ => .empty, 0, 0⟩

/-- `i_max_in`. -/
def iMaxIn (maxIn : ℕ) : LUInt maxIn := BitVec.ofNat _ maxIn

/-- Rule `tofifos`. -/
def tofifos (m : Mifo maxIn α) : Option (Mifo maxIn α) := do
  let (values, inFifo) ← m.inFifo.deq
  let (_, inCountFifo) ← m.inCountFifo.deq
  let (_, posFifo) ← m.posFifo.deq
  let (we, weFifo) ← m.weFifo.deq
  if h : ∀ i, we i = true → (m.fifos i).items.length < 2 then
    return { m with
      inFifo, inCountFifo, posFifo, weFifo
      fifos := fun i => if hw : we i = true then
          ⟨(m.fifos i).items ++ [values i], by rw [List.length_append]; exact h i hw⟩
        else m.fifos i }
  else return m

/-- `deqReadyInternal`. -/
def deqReadyInternal (nOut : ℕ) (m : Mifo maxIn α) : Bool :=
  let rot : LUInt maxIn := iMaxIn maxIn - m.outPos.setWidth _
  let notEmpties := rotateBy (fun i => !(m.fifos i).items.isEmpty) (rot.setWidth _)
  (List.ofFn notEmpties).take nOut |>.all id

/-- Method `enq`. -/
def enq (m : Mifo maxIn α) (count : LUInt maxIn) (data : Fin maxIn → α) : Option (Mifo maxIn α) := do
  let we : Fin maxIn → Bool := fun i => decide (BitVec.ofNat _ i.val < count)
  let inFifo ← m.inFifo.enq (rotateBy data m.inPos)
  let inCountFifo ← m.inCountFifo.enq count
  let weFifo ← m.weFifo.enq (rotateBy we m.inPos)
  let posFifo ← m.posFifo.enq m.inPos
  let inPos := ((m.inPos.setWidth _ + count) % iMaxIn maxIn).setWidth (tlog maxIn)
  return { m with inFifo, inCountFifo, weFifo, posFifo, inPos }

/-- The lane of the element `i` that goes out next. -/
def outLane (m : Mifo maxIn α) (i : ℕ) : Fin maxIn :=
  Fin.ofNat maxIn (((m.outPos.setWidth _ : LUInt maxIn) + BitVec.ofNat _ i) % iMaxIn maxIn).toNat

/-- Method `first`. -/
def first (nOut : ℕ) (m : Mifo maxIn α) : Option (List α) :=
  if m.deqReadyInternal nOut then
    (List.range nOut).mapM fun i => (m.fifos (m.outLane i)).first
  else none

/-- Method `deq`. -/
def deq (nOut : ℕ) (m : Mifo maxIn α) : Option (Mifo maxIn α) :=
  if m.deqReadyInternal nOut then
    some { m with
      fifos := fun j => if ∃ i < nOut, m.outLane i = j then (m.fifos j).tail else m.fifos j
      outPos := (((m.outPos.setWidth _ : LUInt maxIn) + BitVec.ofNat _ nOut) % iMaxIn maxIn).setWidth _ }
  else none

/-- What waits is left alone by `deq`. -/
lemma inFifo_deq {m m' : Mifo maxIn α} (h : m.deq nOut = some m') : m'.inFifo = m.inFifo := by
  unfold deq at h
  split at h
  · cases h
    rfl
  · cases h

/-- Method `enqReady`. -/
def enqReady (m : Mifo maxIn α) : Bool := decide (m.inFifo.items.length < 2)

/-- Method `deqReady`. -/
def deqReady (nOut : ℕ) (m : Mifo maxIn α) : Bool := m.deqReadyInternal nOut

/-! ## Positions -/

/-- The width of a position, for a number of lanes that is a power of two. -/
lemma two_pow_tlog_of_pow (hpow : ∃ k, maxIn = 2 ^ k) : 2 ^ tlog maxIn = maxIn := by
  obtain ⟨k, rfl⟩ := hpow
  rw [tlog_two_pow]

/-- The width of a count. -/
lemma two_pow_tlog_succ_of_pow (hpow : ∃ k, maxIn = 2 ^ k) : 2 ^ tlog (maxIn + 1) = 2 * maxIn := by
  obtain ⟨k, rfl⟩ := hpow
  have hpos : 0 < 2 ^ k := Nat.two_pow_pos k
  unfold tlog
  rw [if_neg (by omega), Nat.add_sub_cancel, Nat.log2_two_pow, pow_succ]
  omega

section Positions

variable {pos : BitVec (tlog maxIn)}

/-- Positions are less than the number of lanes. -/
lemma pos_lt (hpow : ∃ k, maxIn = 2 ^ k) (pos : BitVec (tlog maxIn)) : pos.toNat < maxIn :=
  Nat.lt_of_lt_of_le pos.isLt (two_pow_tlog_of_pow hpow).le

/-- Adding to a position does not overflow. -/
lemma toNat_add_mod (pos : BitVec (tlog maxIn)) (hpow : ∃ k, maxIn = 2 ^ k) {c : LUInt maxIn} (hc : c.toNat ≤ maxIn) :
    ((pos.setWidth _ + c) % iMaxIn maxIn).toNat = (pos.toNat + c.toNat) % maxIn := by
  have hpos := pos_lt hpow pos
  have hw := two_pow_tlog_succ_of_pow hpow
  rw [BitVec.toNat_umod, BitVec.toNat_add, BitVec.toNat_setWidth, iMaxIn, BitVec.toNat_ofNat, hw,
    Nat.mod_eq_of_lt (by omega : pos.toNat < 2 * maxIn), Nat.mod_eq_of_lt (by omega : maxIn < 2 * maxIn),
    Nat.mod_eq_of_lt (by omega : pos.toNat + c.toNat < 2 * maxIn)]

/-- A sum as a position. -/
lemma toNat_setWidth_mod (pos : BitVec (tlog maxIn)) (hpow : ∃ k, maxIn = 2 ^ k) {c : LUInt maxIn} (hc : c.toNat ≤ maxIn) :
    (((pos.setWidth _ + c) % iMaxIn maxIn).setWidth (tlog maxIn)).toNat = (pos.toNat + c.toNat) % maxIn := by
  rw [BitVec.toNat_setWidth, toNat_add_mod _ hpow hc, two_pow_tlog_of_pow hpow, Nat.mod_mod]

/-- A number up to `maxIn` as a count. -/
lemma toNat_ofNat_of_le (hpow : ∃ k, maxIn = 2 ^ k) {i : ℕ} (hi : i ≤ maxIn) :
    (BitVec.ofNat (tlog (maxIn + 1)) i).toNat = i := by
  have hpos : 0 < maxIn := Nat.pos_of_ne_zero (NeZero.ne maxIn)
  rw [BitVec.toNat_ofNat, two_pow_tlog_succ_of_pow hpow, Nat.mod_eq_of_lt (by omega)]

/-- The lane of an element that goes out. -/
lemma outLane_val (hpow : ∃ k, maxIn = 2 ^ k) (m : Mifo maxIn α) {i : ℕ} (hi : i ≤ maxIn) :
    (m.outLane i).val = (m.outPos.toNat + i) % maxIn := by
  have hnum := toNat_ofNat_of_le hpow hi
  unfold outLane
  rw [toNat_add_mod _ hpow (by rw [hnum]; exact hi), hnum, Fin.val_ofNat, Nat.mod_mod]

/-- A vector that is rotated has its element `i` at the lane of the number `pos + i`. -/
lemma rotateBy_apply {β : Type} (v : Fin maxIn → β) {j : Fin maxIn} (i : Fin maxIn)
    (hj : j.val = (pos.toNat + i) % maxIn) : rotateBy v pos j = v i := by
  unfold rotateBy
  congr 1
  apply Fin.ext
  have hpos : 0 < maxIn := Nat.pos_of_ne_zero (NeZero.ne maxIn)
  have hmod := Nat.mod_lt pos.toNat hpos
  have hdiv := Nat.mod_add_div pos.toNat maxIn
  rw [Fin.val_ofNat, hj, Nat.add_mod, Nat.mod_mod, ← Nat.add_mod]
  have hsum : pos.toNat + i + (maxIn - pos.toNat % maxIn) = i + maxIn * (pos.toNat / maxIn + 1) := by
    rw [Nat.mul_add]
    omega
  rw [hsum, Nat.add_mul_mod_self_left, Nat.mod_eq_of_lt i.isLt]

/-- The first elements of a vector of Booleans are all true. -/
lemma all_take_ofFn {k : ℕ} (f : Fin k → Bool) (n : ℕ) :
    ((List.ofFn f).take n).all id = true ↔ ∀ i : Fin k, i.val < n → f i = true := by
  rw [List.all_eq_true]
  constructor
  · intro h i hi
    refine h (f i) (List.mem_take_iff_getElem.mpr ⟨i, ?_, ?_⟩)
    · rw [List.length_ofFn]
      omega
    · rw [List.getElem_ofFn]
  · intro h b hb
    obtain ⟨i, hi, rfl⟩ := List.mem_take_iff_getElem.mp hb
    rw [List.length_ofFn] at hi
    rw [List.getElem_ofFn]
    exact h ⟨i, by omega⟩ (by simp only; omega)

/-- A rotation by the lanes from a position to the end brings the lane of the position to the front. -/
lemma rotateBy_rest (hpow : ∃ k, maxIn = 2 ^ k) {β : Type} (v : Fin maxIn → β) (pos : BitVec (tlog maxIn)) (i : Fin maxIn) :
    rotateBy v ((iMaxIn maxIn - pos.setWidth _ : LUInt maxIn).setWidth _) i =
      v (Fin.ofNat maxIn ((pos.toNat + i) % maxIn)) := by
  have hpos := pos_lt hpow pos
  have hw := two_pow_tlog_succ_of_pow hpow
  have hrot : (((iMaxIn maxIn - pos.setWidth _ : LUInt maxIn)).setWidth (tlog maxIn)).toNat =
      (maxIn - pos.toNat) % maxIn := by
    rw [BitVec.toNat_setWidth, two_pow_tlog_of_pow hpow, BitVec.toNat_sub, BitVec.toNat_setWidth, iMaxIn,
      BitVec.toNat_ofNat, hw, Nat.mod_eq_of_lt (by omega : pos.toNat < 2 * maxIn),
      Nat.mod_eq_of_lt (by omega : maxIn < 2 * maxIn)]
    have hsum : 2 * maxIn - pos.toNat + maxIn = (maxIn - pos.toNat) + 2 * maxIn := by omega
    rw [hsum, Nat.add_mod_right, Nat.mod_eq_of_lt (by omega : maxIn - pos.toNat < 2 * maxIn)]
  refine rotateBy_apply v (Fin.ofNat maxIn ((pos.toNat + i) % maxIn)) ?_
  rw [hrot, Fin.val_ofNat, Nat.mod_mod, ← Nat.add_mod]
  have hsum : maxIn - pos.toNat + (pos.toNat + i) = i + maxIn := by omega
  rw [hsum, Nat.add_mod_right, Nat.mod_eq_of_lt i.isLt]

/-- `deqReadyInternal` asks the lanes of the next `nOut` elements. -/
lemma deqReadyInternal_iff (hpow : ∃ k, maxIn = 2 ^ k) (hout : nOut ≤ maxIn) (m : Mifo maxIn α) :
    m.deqReadyInternal nOut = true ↔ ∀ i < nOut, (m.fifos (m.outLane i)).items ≠ [] := by
  have hlane (i : Fin maxIn) : Fin.ofNat maxIn ((m.outPos.toNat + i) % maxIn) = m.outLane i := by
    apply Fin.ext
    rw [outLane_val hpow m i.isLt.le, Fin.val_ofNat, Nat.mod_mod]
  unfold deqReadyInternal
  rw [all_take_ofFn]
  simp only [rotateBy_rest hpow, hlane, Bool.not_eq_true', List.isEmpty_eq_false_iff]
  exact ⟨fun h i hi => h ⟨i, by omega⟩ hi, fun h i hi => h i hi⟩

end Positions

/-! ## The elements in the queue -/

/-- The elements of a list, one after another. -/
lemma mapM_range_getElem? {l : List α} {n : ℕ} {f : ℕ → Option α} (hl : l.length = n)
    (hf : ∀ i ∈ List.range n, f i = l[i]?) : (List.range n).mapM f = some l := by
  induction n generalizing l with
  | zero =>
    rw [List.eq_nil_of_length_eq_zero hl]
    rfl
  | succ n ih =>
    have hlast := hf n (List.mem_range.mpr (by omega))
    have hinit : (List.range n).mapM f = some (l.take n) := by
      refine ih (by rw [List.length_take]; omega) fun i hi => ?_
      rw [List.mem_range] at hi
      rw [hf i (List.mem_range.mpr (by omega)), List.getElem?_take_of_lt hi]
    rw [List.getElem?_eq_getElem (by omega)] at hlast
    rw [List.range_succ, List.mapM_append, hinit]
    simp only [List.mapM_cons, List.mapM_nil, hlast, bind, pure, Option.bind_some]
    rw [← List.take_succ_eq_append_getElem (by omega), List.take_of_length_le (by omega)]

/-- The elements of a vector that count. -/
def taken (count : LUInt maxIn) (data : Fin maxIn → α) : List α := (List.ofFn data).take count.toNat

omit [NeZero maxIn] in
lemma length_taken {count : LUInt maxIn} (hc : count.toNat ≤ maxIn) (data : Fin maxIn → α) :
    (taken count data).length = count.toNat := by
  unfold taken
  rw [List.length_take, List.length_ofFn]
  omega

/-- The mask of a vector before it is rotated. -/
def mask (count : LUInt maxIn) : Fin maxIn → Bool := fun i => decide (BitVec.ofNat _ i.val < count)

/-- What the lane of the number `o + i` gets of a vector. -/
lemma lane_taken (hpow : ∃ k, maxIn = 2 ^ k) {count : LUInt maxIn} (hc : count.toNat ≤ maxIn)
    (data : Fin maxIn → α) (o : ℕ) (i : Fin maxIn) :
    lane maxIn ((o + i) % maxIn) o (taken count data) = if mask count i then [data i] else [] := by
  have hmask : mask count i = true ↔ i.val < count.toNat := by
    unfold mask
    rw [decide_eq_true_iff, BitVec.lt_def, toNat_ofNat_of_le hpow i.isLt.le]
  rw [lane_eq_getElem? i.isLt (by rw [length_taken hc]; exact hc)]
  by_cases hi : i.val < count.toNat
  · rw [if_pos (hmask.mpr hi), taken, List.getElem?_take_of_lt hi, List.getElem?_ofFn, dif_pos i.isLt]
    rfl
  · rw [if_neg (mt hmask.mp hi), List.getElem?_eq_none (by rw [length_taken hc]; omega)]
    rfl

/-- What a lane gets of a vector that is rotated to the lane of the number `o`. -/
lemma lane_rotated (hpow : ∃ k, maxIn = 2 ^ k) {pos : BitVec (tlog maxIn)} {o : ℕ} (hpos : pos.toNat = o % maxIn)
    {count : LUInt maxIn} (hc : count.toNat ≤ maxIn) (data : Fin maxIn → α) (j : Fin maxIn) :
    lane maxIn j o (taken count data) = if rotateBy (mask count) pos j then [rotateBy data pos j] else [] := by
  obtain ⟨i, hi, hj⟩ := exists_lane o j.isLt
  have hjpos : j.val = (pos.toNat + i) % maxIn := by
    rw [hpos, hj, Nat.mod_add_mod]
  have hlane := lane_taken hpow hc data o ⟨i, hi⟩
  have hvalue : rotateBy data pos j = data ⟨i, hi⟩ := rotateBy_apply data ⟨i, hi⟩ hjpos
  have hmask : rotateBy (mask count) pos j = mask count ⟨i, hi⟩ := rotateBy_apply (mask count) ⟨i, hi⟩ hjpos
  rw [hvalue, hmask, ← hlane, hj]

/-- What waits in the queues at the entrance: vectors with the elements `xss`, the first of which has the
number `o`. -/
inductive Waits : ℕ → List (Fin maxIn → α) → List (BitVec (tlog maxIn)) → List (LUInt maxIn) →
    List (Fin maxIn → Bool) → List (List α) → Prop
  | nil {o : ℕ} : Waits o [] [] [] [] []
  | cons {o : ℕ} {pos : BitVec (tlog maxIn)} {count : LUInt maxIn} {data : Fin maxIn → α}
      {vs : List (Fin maxIn → α)} {ps : List (BitVec (tlog maxIn))} {cs : List (LUInt maxIn)}
      {ws : List (Fin maxIn → Bool)} {xss : List (List α)} (hpos : pos.toNat = o % maxIn)
      (hc : count.toNat ≤ maxIn) (h : Waits (o + count.toNat) vs ps cs ws xss) :
      Waits o (rotateBy data pos :: vs) (pos :: ps) (count :: cs) (rotateBy (mask count) pos :: ws)
        (taken count data :: xss)

section Waits

variable {o : ℕ} {vs : List (Fin maxIn → α)} {ps : List (BitVec (tlog maxIn))} {cs : List (LUInt maxIn)}
  {ws : List (Fin maxIn → Bool)} {xss : List (List α)}

/-- Numbers count modulo `maxIn`. -/
lemma Waits.congr (h : Waits o vs ps cs ws xss) {o' : ℕ} (ho : o % maxIn = o' % maxIn) :
    Waits o' vs ps cs ws xss := by
  induction h generalizing o' with
  | nil => exact .nil
  | cons hpos hc _ ih =>
    refine .cons (hpos.trans ho) hc (ih ?_)
    rw [Nat.add_mod, ho, ← Nat.add_mod]

/-- One more vector comes in. -/
lemma Waits.concat (h : Waits o vs ps cs ws xss) {pos : BitVec (tlog maxIn)}
    (hpos : pos.toNat = (o + xss.flatten.length) % maxIn) {count : LUInt maxIn} (hc : count.toNat ≤ maxIn)
    (data : Fin maxIn → α) :
    Waits o (vs ++ [rotateBy data pos]) (ps ++ [pos]) (cs ++ [count]) (ws ++ [rotateBy (mask count) pos])
      (xss ++ [taken count data]) := by
  induction h with
  | nil => exact .cons hpos hc .nil
  | cons hp hc' _ ih =>
    refine .cons hp hc' (ih ?_)
    rw [List.flatten_cons, List.length_append, length_taken hc', ← Nat.add_assoc] at hpos
    exact hpos

/-- The queues at the entrance have the same length. -/
lemma Waits.length_eq (h : Waits o vs ps cs ws xss) :
    ps.length = vs.length ∧ cs.length = vs.length ∧ ws.length = vs.length := by
  induction h with
  | nil => exact ⟨rfl, rfl, rfl⟩
  | cons _ _ _ ih =>
    simp only [List.length_cons]
    omega

lemma Waits.eq_nil (h : Waits o [] ps cs ws xss) : xss = [] := by
  cases h
  rfl

/-- What stands at the front of the queues. -/
lemma Waits.exists_cons {v : Fin maxIn → α} (h : Waits o (v :: vs) ps cs ws xss) :
    ∃ pos ps' count cs' we ws', ps = pos :: ps' ∧ cs = count :: cs' ∧ ws = we :: ws' := by
  cases h
  exact ⟨_, _, _, _, _, _, rfl, rfl, rfl⟩

end Waits

/-- The queue holds the elements `xs`, oldest first: some are in the lanes, and the others wait. -/
def Holds (m : Mifo maxIn α) (xs : List α) : Prop :=
  ∃ l xss, xs = l ++ xss.flatten ∧
    (∀ j : Fin maxIn, (m.fifos j).items = lane maxIn j m.outPos.toNat l) ∧
    Waits (m.outPos.toNat + l.length) m.inFifo.items m.posFifo.items m.inCountFifo.items m.weFifo.items xss ∧
    m.inPos.toNat = (m.outPos.toNat + xs.length) % maxIn

/-- There is nothing in the queue. -/
def IsEmpty (m : Mifo maxIn α) : Prop := m.inFifo.items = [] ∧ ∀ i, (m.fifos i).items = []

namespace Holds

variable {m m' : Mifo maxIn α} {xs : List α}

lemma reset : (Mifo.reset maxIn α).Holds [] := by
  refine ⟨[], [], rfl, fun _ => rfl, .nil, ?_⟩
  show (0 : BitVec (tlog maxIn)).toNat = _
  simp [Mifo.reset]

/-- A vector comes in. -/
lemma enq (h : m.Holds xs) (hpow : ∃ k, maxIn = 2 ^ k) {count : LUInt maxIn} (hc : count.toNat ≤ maxIn)
    {data : Fin maxIn → α} (hs : m.enq count data = some m') : m'.Holds (xs ++ taken count data) := by
  obtain ⟨l, xss, rfl, hlanes, hwaits, hpos⟩ := h
  simp only [Mifo.enq, bind, pure, Option.bind_eq_some_iff, Fifo.enq_eq_some, Option.some.injEq] at hs
  obtain ⟨inFifo, ⟨-, hin⟩, inCountFifo, ⟨-, hcount⟩, weFifo, ⟨-, hwe⟩, posFifo, ⟨-, hposs⟩, rfl⟩ := hs
  refine ⟨l, xss ++ [taken count data], ?_, hlanes, ?_, ?_⟩
  · rw [List.flatten_append, List.append_assoc]
    simp
  · show Waits _ inFifo.items posFifo.items inCountFifo.items weFifo.items _
    rw [hin, hcount, hwe, hposs]
    refine hwaits.concat ?_ hc data
    rw [hpos, List.length_append, Nat.add_assoc]
  · show ((((m.inPos.setWidth _ + count) % iMaxIn maxIn).setWidth (tlog maxIn)).toNat) = _
    have hlen : (l ++ xss.flatten ++ taken count data).length = (l ++ xss.flatten).length + count.toNat := by
      rw [List.length_append, length_taken hc]
    rw [toNat_setWidth_mod _ hpow hc, hpos, hlen, Nat.mod_add_mod, Nat.add_assoc]

/-- A vector goes to the lanes, or has to wait. -/
lemma tofifos (h : m.Holds xs) (hpow : ∃ k, maxIn = 2 ^ k) (hs : m.tofifos = some m') : m'.Holds xs := by
  obtain ⟨l, xss, rfl, hlanes, hwaits, hpos⟩ := h
  simp only [Mifo.tofifos, bind, pure, Option.bind_eq_some_iff, Prod.exists, Fifo.deq_eq_some] at hs
  obtain ⟨values, inFifo, hin, count, inCountFifo, hcount, pos, posFifo, hposs, we, weFifo, hwe, hs⟩ := hs
  rw [hin, hposs, hcount, hwe] at hwaits
  split at hs
  · rename_i hready
    cases hs
    cases hwaits with
    | @cons _ _ _ data _ _ _ _ xss hp hc hrest =>
      refine ⟨l ++ taken count data, xss, ?_, fun j => ?_, ?_, hpos⟩
      · rw [List.flatten_cons, List.append_assoc]
      · rw [lane_append, lane_rotated hpow hp hc data j, ← hlanes j]
        simp only
        split
        · rfl
        · rw [List.append_nil]
      · rw [List.length_append, length_taken hc, ← Nat.add_assoc]
        exact hrest
  · cases hs
    exact ⟨l, xss, rfl, hlanes, by rwa [hin, hposs, hcount, hwe], hpos⟩

/-- **Elements go out**: they are the oldest. -/
lemma first_deq (h : m.Holds xs) (hpow : ∃ k, maxIn = 2 ^ k) (hout : nOut ≤ maxIn)
    (hready : m.deqReady nOut = true) :
    nOut ≤ xs.length ∧ m.first nOut = some (xs.take nOut) ∧
      ∃ m', m.deq nOut = some m' ∧ m'.Holds (xs.drop nOut) := by
  obtain ⟨l, xss, rfl, hlanes, hwaits, hpos⟩ := h
  have hready' : m.deqReadyInternal nOut = true := hready
  rw [deqReady, deqReadyInternal_iff hpow hout] at hready
  have hlane (i : ℕ) (hi : i < maxIn) : (m.fifos (m.outLane i)).items =
      lane maxIn ((m.outPos.toNat + i) % maxIn) m.outPos.toNat l := by
    rw [hlanes, outLane_val hpow m hi.le]
  -- the lane of the first element that is not there is empty
  have hlen : nOut ≤ l.length := by
    by_contra hlt
    refine hready l.length (by omega) ?_
    rw [hlane _ (by omega), lane_eq_getElem? (by omega) (by omega), List.getElem?_eq_none (by omega)]
    rfl
  have hsplit : l = l.take nOut ++ l.drop nOut := (List.take_append_drop nOut l).symm
  have htake : (l.take nOut).length = nOut := by
    rw [List.length_take]
    omega
  have hhead (i : ℕ) (hi : i < maxIn) : (m.fifos (m.outLane i)).items = (l.take nOut)[i]?.toList ++
      lane maxIn ((m.outPos.toNat + i) % maxIn) (m.outPos.toNat + nOut) (l.drop nOut) := by
    rw [hlane i hi]
    conv_lhs => rw [hsplit]
    rw [lane_append, lane_eq_getElem? hi (by omega), htake]
  refine ⟨?_, ?_, ?_⟩
  · rw [List.length_append]
    omega
  · have hfirst : ∀ i ∈ List.range nOut, (m.fifos (m.outLane i)).first = (l.take nOut)[i]? := by
      intro i hi
      rw [List.mem_range] at hi
      unfold Fifo.first
      rw [hhead i (by omega), List.getElem?_eq_getElem (by omega)]
      rfl
    unfold Mifo.first
    rw [if_pos hready', mapM_range_getElem? htake hfirst, List.take_append_of_le_length hlen]
  · have hnum := toNat_ofNat_of_le hpow hout
    have hpos' : (((m.outPos.setWidth _ + BitVec.ofNat _ nOut) % iMaxIn maxIn).setWidth (tlog maxIn)).toNat =
        (m.outPos.toNat + nOut) % maxIn := by
      rw [toNat_setWidth_mod _ hpow (by rw [hnum]; exact hout), hnum]
    refine ⟨_, if_pos hready', l.drop nOut, xss, ?_, fun j => ?_, ?_, ?_⟩
    · rw [List.drop_append_of_le_length hlen]
    · obtain ⟨i, hi, hj⟩ := exists_lane m.outPos.toNat j.isLt
      have hji : m.outLane i = j := Fin.ext (by rw [outLane_val hpow m hi.le, hj])
      have hitems := hhead i hi
      rw [hji, ← hj] at hitems
      show (if ∃ i < nOut, m.outLane i = j then (m.fifos j).tail else m.fifos j).items = _
      rw [hpos', lane_congr (Nat.mod_mod _ _)]
      by_cases hlt : i < nOut
      · rw [if_pos ⟨i, hlt, hji⟩, Fifo.items_tail, hitems, List.getElem?_eq_getElem (by omega)]
        rfl
      · have hnot : ¬ ∃ i' < nOut, m.outLane i' = j := by
          rintro ⟨i', hi', he⟩
          have hval := congrArg Fin.val he
          rw [outLane_val hpow m (by omega), hj] at hval
          have hsame := (Bits.add_mod_inj _ (by omega) hi).mp hval
          omega
        rw [if_neg hnot, hitems, List.getElem?_eq_none (by omega)]
        rfl
    · refine hwaits.congr ?_
      show _ = ((((m.outPos.setWidth _ + BitVec.ofNat _ nOut) % iMaxIn maxIn).setWidth (tlog maxIn)).toNat +
        (l.drop nOut).length) % maxIn
      rw [hpos', Nat.mod_add_mod, List.length_drop]
      congr 1
      omega
    · show m.inPos.toNat = ((((m.outPos.setWidth _ + BitVec.ofNat _ nOut) % iMaxIn maxIn).setWidth
        (tlog maxIn)).toNat + _) % maxIn
      rw [hpos', hpos, Nat.mod_add_mod, List.length_drop, List.length_append]
      congr 1
      omega

/-! Nothing gets stuck. -/

/-- A vector is taken in if there is room for it. -/
lemma exists_enq (h : m.Holds xs) (hready : m.enqReady = true) (count : LUInt maxIn) (data : Fin maxIn → α) :
    ∃ m', m.enq count data = some m' ∧ m'.inFifo.items.length = m.inFifo.items.length + 1 := by
  obtain ⟨l, xss, -, -, hwaits, -⟩ := h
  have hlen := hwaits.length_eq
  have hroom : m.inFifo.items.length < 2 := of_decide_eq_true hready
  obtain ⟨inFifo, hin, hitems⟩ := Fifo.exists_enq hroom (rotateBy data m.inPos)
  obtain ⟨inCountFifo, hcount, -⟩ := Fifo.exists_enq (by omega : m.inCountFifo.items.length < 2) count
  obtain ⟨weFifo, hwe, -⟩ := Fifo.exists_enq (by omega : m.weFifo.items.length < 2)
    (rotateBy (mask count) m.inPos)
  obtain ⟨posFifo, hpos, -⟩ := Fifo.exists_enq (by omega : m.posFifo.items.length < 2) m.inPos
  refine ⟨{ m with
    inFifo, inCountFifo, weFifo, posFifo
    inPos := ((m.inPos.setWidth _ + count) % iMaxIn maxIn).setWidth (tlog maxIn) }, ?_, ?_⟩
  · unfold mask at hwe
    simp only [Mifo.enq, hin, hcount, hwe, hpos, bind, pure, Option.bind_some]
  · rw [hitems, List.length_append]
    rfl

/-- Elements that are in the lanes can go out. -/
lemma deqReady_of_lanes (hpow : ∃ k, maxIn = 2 ^ k) (hout : nOut ≤ maxIn) {l : List α}
    (hlanes : ∀ j : Fin maxIn, (m.fifos j).items = lane maxIn j m.outPos.toNat l) (hl : nOut ≤ l.length) :
    m.deqReady nOut = true := by
  refine (deqReadyInternal_iff hpow hout m).mpr fun i hi => ?_
  rw [hlanes, outLane_val hpow m (by omega)]
  exact lane_ne_nil (by omega) (by omega)

/-- If no vector waits, all elements can go out. -/
lemma deqReady (h : m.Holds xs) (hpow : ∃ k, maxIn = 2 ^ k) (hout : nOut ≤ maxIn)
    (hin : m.inFifo.items = []) (hl : nOut ≤ xs.length) : m.deqReady nOut = true := by
  obtain ⟨l, xss, rfl, hlanes, hwaits, -⟩ := h
  rw [hin] at hwaits
  obtain rfl := hwaits.eq_nil
  refine deqReady_of_lanes hpow hout hlanes ?_
  simpa using hl

/-- A vector that waits can go to the lanes, or else there are elements that can go out. -/
lemma settles (h : m.Holds xs) (hpow : ∃ k, maxIn = 2 ^ k) (hout : nOut ≤ maxIn) :
    (∃ m', m.tofifos = some m' ∧ m'.inFifo.items.length + 1 = m.inFifo.items.length) ∨
      m.inFifo.items = [] ∨ m.deqReady nOut = true := by
  by_cases hin : m.inFifo.items = []
  · exact .inr (.inl hin)
  obtain ⟨l, xss, -, hlanes, hwaits, -⟩ := h
  obtain ⟨v, vs, hvs⟩ := List.exists_cons_of_ne_nil hin
  rw [hvs] at hwaits
  obtain ⟨pos, ps, count, cs, we, ws, hps, hcs, hws⟩ := hwaits.exists_cons
  obtain ⟨inFifo, hin', hitems⟩ := Fifo.exists_deq hvs
  obtain ⟨inCountFifo, hcount, -⟩ := Fifo.exists_deq hcs
  obtain ⟨posFifo, hpos, -⟩ := Fifo.exists_deq hps
  obtain ⟨weFifo, hwe, -⟩ := Fifo.exists_deq hws
  by_cases hroom : ∀ i, we i = true → (m.fifos i).items.length < 2
  · left
    simp only [Mifo.tofifos, hin', hcount, hpos, hwe, bind, pure, Option.bind_some, dif_pos hroom]
    refine ⟨_, rfl, ?_⟩
    rw [hitems, hvs, List.length_cons]
  · -- a lane with two elements: every lane has one
    right
    right
    push Not at hroom
    obtain ⟨i, -, hfull⟩ := hroom
    rw [hlanes i] at hfull
    exact deqReady_of_lanes hpow hout hlanes (by have := lt_length_of_lane i.isLt hfull; omega)

/-- The queue is empty. -/
lemma isEmpty_iff (h : m.Holds xs) (hin : m.inFifo.items = []) : m.IsEmpty ↔ xs = [] := by
  obtain ⟨l, xss, rfl, hlanes, hwaits, -⟩ := h
  rw [hin] at hwaits
  obtain rfl := hwaits.eq_nil
  rw [List.flatten_nil, List.append_nil]
  constructor
  · rintro ⟨-, hempty⟩
    cases l with
    | nil => rfl
    | cons x l =>
      have hpos : 0 < maxIn := Nat.pos_of_ne_zero (NeZero.ne maxIn)
      have hne : lane maxIn ((m.outPos.toNat + 0) % maxIn) m.outPos.toNat (x :: l) ≠ [] :=
        lane_ne_nil hpos (Nat.succ_pos _)
      have hlane := hlanes ⟨(m.outPos.toNat + 0) % maxIn, Nat.mod_lt _ hpos⟩
      rw [hempty] at hlane
      exact absurd hlane.symm hne
  · rintro rfl
    exact ⟨hin, fun j => (hlanes j).trans lane_nil⟩

end Holds

end Mifo

end Xbsv
