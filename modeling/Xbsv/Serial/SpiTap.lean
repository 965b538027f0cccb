import Xbsv.Noc.SerialFIFO
import Xbsv.Rules.Chain

set_option relaxedAutoImplicit false
set_option autoImplicit false

/-!
# Registers on a serial bus

`mkSpiReg` of `examples/serialconfig`. A message goes over the bus bit by bit, while its frame bit is high: first an
address, then a word. A register that is addressed takes the word if bit 0 of the address is set, and puts its own one in
place otherwise; everything is passed on to the next register, one cycle later.

## Main definitions

* `Xbsv.SpiReg` — a register, with its shifter.
* `Xbsv.SpiReg.respond`, `Xbsv.SpiReg.update` — what it makes of a message.
* `Xbsv.spiRelay` — registers as the relays of a chain.
-/

namespace Xbsv

open Rules

/-! ## Shifters -/

/-- A shifter with one more bit, which comes in at the top. -/
def shiftIn {w : ℕ} (x : BitVec (w + 1)) (b : Bool) : BitVec (w + 1) :=
  (x >>> 1) ||| (if b then BitVec.twoPow (w + 1) w else 0)

lemma getElem_shiftIn {w : ℕ} (x : BitVec (w + 1)) (b : Bool) {i : ℕ} (hi : i < w + 1) :
    (shiftIn x b)[i] = if h : i < w then x[i + 1] else b := by
  rw [shiftIn, BitVec.getElem_or, BitVec.getElem_ushiftRight, Nat.add_comm 1 i]
  by_cases h : i < w
  · rw [dif_pos h, BitVec.getLsbD_eq_getElem (Nat.succ_lt_succ h)]
    cases b with
    | false => simp
    | true => simp [BitVec.getElem_twoPow, Nat.ne_of_lt h]
  · obtain rfl : i = w := by omega
    rw [dif_neg h, BitVec.getLsbD_of_ge _ _ (Nat.le_refl _)]
    cases b with
    | false => simp
    | true => simp [BitVec.getElem_twoPow]

lemma bitsOf_shiftIn {w : ℕ} (x : BitVec (w + 1)) (b : Bool) : bitsOf (shiftIn x b) = (bitsOf x).tail ++ [b] := by
  apply List.ext_getElem
  · simp
  · intro i hi _
    rw [length_bitsOf] at hi
    rw [List.getElem_append]
    simp only [bitsOf, List.getElem_ofFn, Fin.getElem_fin, getElem_shiftIn, List.length_tail, List.length_ofFn,
      Nat.add_sub_cancel, List.getElem_tail, List.getElem_singleton]

/-- The bits `p` have come in, perhaps so many that the first ones are out again. -/
def Shifted {w : ℕ} (x : BitVec w) (p : List Bool) : Prop :=
  ∃ old, old.length = w ∧ bitsOf x = (old ++ p).drop p.length

lemma Shifted.nil {w : ℕ} (x : BitVec w) : Shifted x [] := ⟨bitsOf x, length_bitsOf x, by simp⟩

lemma Shifted.concat {w : ℕ} {x : BitVec (w + 1)} {p : List Bool} (h : Shifted x p) (b : Bool) :
    Shifted (shiftIn x b) (p ++ [b]) := by
  obtain ⟨old, hold, hx⟩ := h
  refine ⟨old, hold, ?_⟩
  have hle : p.length + 1 ≤ (old ++ p).length := by
    rw [List.length_append, hold]
    omega
  rw [bitsOf_shiftIn, hx, List.tail_drop, ← List.append_assoc, List.length_append, List.length_singleton,
    List.drop_append_of_le_length hle]

/-- The last bits that have come in are there. -/
lemma Shifted.eq_wordOfBits {w : ℕ} {x : BitVec w} {p q : List Bool} (h : Shifted x (p ++ q)) (hq : q.length = w) :
    x = wordOfBits w q := by
  obtain ⟨old, hold, hx⟩ := h
  rw [List.length_append, hq, ← List.append_assoc,
    List.drop_left' (by rw [List.length_append, hold, Nat.add_comm])] at hx
  rw [← hx, wordOfBits_bitsOf]

/-! ## The source -/

/-- `SpiItem` -/
structure SpiItem where
  a : BitVec 32
  d : BitVec 32
  deriving DecidableEq

/-- The two wires of the bus. -/
structure Wire where
  frame : Bool
  data : Bool

/-- The parameters and the registers of `mkSpiReg`. -/
structure SpiReg where
  id : BitVec 32
  asize : ℕ
  frameinbit : Bool
  datainbit : Bool
  count : BitVec 6
  shifter : BitVec 32
  addressmatch : Bool
  iswrite : Bool
  data : BitVec asize

namespace SpiReg

/-- `mkSpiReg` after reset. -/
def init (id : BitVec 32) (asize : ℕ) : SpiReg := ⟨id, asize, false, false, 0, 0, false, false, 0⟩

/-- `dataoutwire` -/
def dataoutwire (t : SpiReg) : Bool :=
  if t.frameinbit then
    if t.count.getLsbD 5 && t.addressmatch && !t.iswrite then
      if t.asize = 32 then t.data.getLsbD (t.count &&& 31).toNat
      else if (t.count &&& 31).toNat < t.asize then t.data.getLsbD (t.count &&& 31).toNat else false
    else t.datainbit
  else false

/-- `tap.out` -/
def out (t : SpiReg) : Wire := ⟨t.frameinbit, t.dataoutwire⟩

/-- What `handleShift` makes of the shifter. -/
def tmp (t : SpiReg) : BitVec 32 := shiftIn t.shifter t.datainbit

/-- Two addresses are the same, but for bit 0. -/
def addressed (id a : BitVec 32) : Bool := id.extractLsb' 1 31 = a.extractLsb' 1 31

/-- The rules `handleFrame` and `handleShift`, and `move_data` into this register. -/
def clock (t : SpiReg) (i : Wire) : SpiReg :=
  if t.frameinbit then
    { t with
      frameinbit := i.frame
      datainbit := i.data
      count := t.count + 1
      shifter := t.tmp
      iswrite := if t.count = 31 then t.tmp.getLsbD 0 else t.iswrite
      addressmatch := if t.count = 31 then addressed t.id t.tmp else t.addressmatch
      data := if t.count = 63 ∧ t.addressmatch ∧ t.iswrite then t.tmp.setWidth t.asize else t.data }
  else { t with frameinbit := i.frame, datainbit := i.data, count := 0, addressmatch := false }

end SpiReg

/-! ## Messages -/

/-- The messages that have gone over a link, and the bits of the next one. -/
structure Messages where
  items : List SpiItem
  bits : List Bool

namespace Messages

instance : Preorder Messages where
  le m m' := m.items <+: m'.items
  le_refl m := List.prefix_rfl
  le_trans _ _ _ := List.IsPrefix.trans

/-- The message that bits make. -/
def itemOf (bits : List Bool) : SpiItem := ⟨wordOfBits 32 (bits.take 32), wordOfBits 32 (bits.drop 32)⟩

/-- One more bit. -/
def next (m : Messages) (b : Bool) : Messages :=
  if m.bits.length = 63 then ⟨m.items ++ [itemOf (m.bits ++ [b])], []⟩ else ⟨m.items, m.bits ++ [b]⟩

/-- One more symbol; the frame bit stays high until a message is complete. -/
def read (m : Messages) (i : Wire) : Option Messages :=
  if i.frame then some (m.next i.data) else if m.bits = [] then some m else none

variable {m m' : Messages} {i : Wire}

lemma read_of_frame (h : i.frame = true) : m.read i = some (m.next i.data) := if_pos h

lemma read_eq_some_of_not_frame (h : i.frame = false) : m.read i = some m' ↔ m.bits = [] ∧ m' = m := by
  rw [read, if_neg (by rw [h]; exact Bool.false_ne_true)]
  split
  case isTrue hbits => simp [hbits, eq_comm]
  case isFalse hbits => simp [hbits]

lemma le_read (h : m.read i = some m') : m ≤ m' := by
  cases hframe : i.frame with
  | false =>
    obtain ⟨-, rfl⟩ := (read_eq_some_of_not_frame hframe).mp h
    exact List.prefix_rfl
  | true =>
    rw [read_of_frame hframe, Option.some.injEq, next] at h
    subst h
    split
    · exact List.prefix_append _ _
    · exact List.prefix_rfl

end Messages

namespace SpiReg

open Messages

variable {t : SpiReg} {m m' : Messages} {w : ℕ} {id : BitVec 32} {v : BitVec w} {b : Bool} {p : List Bool}

/-! ## What a register makes of a message -/

/-- The message that is passed on. -/
def respond (id : BitVec 32) (v : BitVec w) (x : SpiItem) : SpiItem :=
  if addressed id x.a && !x.a.getLsbD 0 then { x with d := v.setWidth 32 } else x

/-- The value after a message. -/
def update (id : BitVec 32) (v : BitVec w) (x : SpiItem) : BitVec w :=
  if addressed id x.a && x.a.getLsbD 0 then x.d.setWidth w else v

def updates (id : BitVec 32) (v : BitVec w) (xs : List SpiItem) : BitVec w := xs.foldl (update id) v

def responses (id : BitVec 32) (v : BitVec w) : List SpiItem → List SpiItem
  | [] => []
  | x :: xs => respond id v x :: responses id (update id v x) xs

/-- The bits that are passed on. -/
def respondBits (id : BitVec 32) (v : BitVec w) (p : List Bool) : List Bool :=
  p.take 32 ++
    if addressed id (wordOfBits 32 (p.take 32)) && !(wordOfBits 32 (p.take 32)).getLsbD 0 then
      (List.range (p.length - 32)).map v.getLsbD
    else p.drop 32

/-- What has been passed on. -/
def answer (t : SpiReg) (m : Messages) : Messages where
  items := responses t.id (0 : BitVec t.asize) m.items
  bits := respondBits t.id (updates t.id (0 : BitVec t.asize) m.items) m.bits

/-- The register has worked on these messages. -/
structure Holds (t : SpiReg) (m : Messages) : Prop where
  asize : t.asize ≤ 32
  length : m.bits.length < 64
  count : t.count.toNat = m.bits.length
  shifter : Shifted t.shifter m.bits
  addressmatch : 32 ≤ m.bits.length → t.addressmatch = addressed t.id (wordOfBits 32 (m.bits.take 32))
  iswrite : 32 ≤ m.bits.length → t.iswrite = (wordOfBits 32 (m.bits.take 32)).getLsbD 0
  data : t.data = updates t.id 0 m.items

/-! ### Lists of messages -/

lemma updates_concat (id : BitVec 32) (v : BitVec w) (xs : List SpiItem) (x : SpiItem) :
    updates id v (xs ++ [x]) = update id (updates id v xs) x := by
  rw [updates, List.foldl_append]
  rfl

lemma responses_append (id : BitVec 32) (v : BitVec w) (xs ys : List SpiItem) :
    responses id v (xs ++ ys) = responses id v xs ++ responses id (updates id v xs) ys := by
  induction xs generalizing v with
  | nil => rfl
  | cons x xs ih =>
    rw [List.cons_append, responses, responses, ih]
    rfl

lemma responses_concat (id : BitVec 32) (v : BitVec w) (xs : List SpiItem) (x : SpiItem) :
    responses id v (xs ++ [x]) = responses id v xs ++ [respond id (updates id v xs) x] := by
  rw [responses_append]
  rfl

/-- What is passed on for more messages starts in the same way. -/
lemma responses_isPrefix {xs ys : List SpiItem} (h : xs <+: ys) : responses id v xs <+: responses id v ys := by
  obtain ⟨zs, rfl⟩ := h
  rw [responses_append]
  exact List.prefix_append _ _

/-! ### The bits of a message -/

/-- One more bit. -/
lemma respondBits_concat (id : BitVec 32) (v : BitVec w) (p : List Bool) (b : Bool) :
    respondBits id v (p ++ [b]) = respondBits id v p ++
      [if 32 ≤ p.length then
        if addressed id (wordOfBits 32 (p.take 32)) && !(wordOfBits 32 (p.take 32)).getLsbD 0 then
          v.getLsbD (p.length - 32)
        else b
      else b] := by
  by_cases h : 32 ≤ p.length
  · have htake : (p ++ [b]).take 32 = p.take 32 := List.take_append_of_le_length h
    have hlen : (p ++ [b]).length - 32 = p.length - 32 + 1 := by
      rw [List.length_append, List.length_singleton]
      omega
    rw [respondBits, respondBits, htake, hlen, if_pos h, List.append_assoc]
    congr 1
    split
    · rw [List.range_succ, List.map_append]
      rfl
    · rw [List.drop_append_of_le_length h]
  · have hlen : (p ++ [b]).length ≤ 32 := by
      rw [List.length_append, List.length_singleton]
      omega
    have hshort : ∀ q : List Bool, q.length ≤ 32 → respondBits id v q = q := by
      intro q hq
      rw [respondBits, Nat.sub_eq_zero_of_le hq, List.range_zero, List.map_nil, List.drop_of_length_le hq, ite_self,
        List.append_nil, List.take_of_length_le hq]
    rw [hshort _ hlen, hshort p (by omega), if_neg h]

/-- The bits that are passed on make the message that is passed on. -/
lemma itemOf_respondBits (id : BitVec 32) (v : BitVec w) {p : List Bool} (hp : p.length = 64) :
    itemOf (respondBits id v p) = respond id v (itemOf p) := by
  have hword : wordOfBits 32 ((List.range 32).map v.getLsbD) = v.setWidth 32 := by
    refine BitVec.eq_of_getLsbD_eq fun i hi => ?_
    rw [wordOfBits, BitVec.getLsbD_setWidth, BitVec.getLsbD_setWidth, BitVec.getLsbD_ofBoolListLE,
      List.getD_eq_getElem?_getD, List.getElem?_map, List.getElem?_range hi]
    simp
  have htake : (p.take 32).length = 32 := by
    rw [List.length_take]
    omega
  rw [itemOf, respondBits, List.take_left' htake, List.drop_left' htake, respond, itemOf, hp]
  split
  · rw [hword]
  · rfl

/-! ### One cycle -/

lemma getLsbD_five : ∀ c : BitVec 6, c.getLsbD 5 = decide (32 ≤ c.toNat) := by
  decide

lemma toNat_and_thirtyOne : ∀ c : BitVec 6, (c &&& 31).toNat = c.toNat % 32 := by
  decide

lemma toNat_add_one : ∀ {c : BitVec 6}, c ≠ 63 → (c + 1).toNat = c.toNat + 1 := by
  decide

/-- The bit that is passed on. -/
lemma Holds.dataoutwire (h : Holds t m) (hframe : t.frameinbit = true) :
    t.dataoutwire =
      if 32 ≤ m.bits.length then
        if addressed t.id (wordOfBits 32 (m.bits.take 32)) && !(wordOfBits 32 (m.bits.take 32)).getLsbD 0 then
          (updates t.id (0 : BitVec t.asize) m.items).getLsbD (m.bits.length - 32)
        else t.datainbit
      else t.datainbit := by
  have hasize := h.asize
  have hlength := h.length
  rw [SpiReg.dataoutwire, if_pos hframe, getLsbD_five, toNat_and_thirtyOne, h.count]
  by_cases hlen : 32 ≤ m.bits.length
  · have hmod : m.bits.length % 32 = m.bits.length - 32 := by omega
    rw [if_pos hlen, decide_eq_true hlen, Bool.true_and, h.addressmatch hlen, h.iswrite hlen, hmod, h.data]
    split
    · split
      · rfl
      · split
        · rfl
        · rw [BitVec.getLsbD_of_ge]
          omega
    · rfl
  · rw [if_neg hlen, decide_eq_false hlen, Bool.false_and, Bool.false_and, if_neg Bool.false_ne_true]

/-- The symbol in the register. -/
def held (t : SpiReg) : Wire := ⟨t.frameinbit, t.datainbit⟩

lemma Holds.count_eq_iff (h : Holds t m) {n : ℕ} (hn : n < 64) : t.count = BitVec.ofNat 6 n ↔ m.bits.length = n := by
  rw [← h.count, ← BitVec.toNat_inj, BitVec.toNat_ofNat, Nat.mod_eq_of_lt hn]

/-- The shifter with the bit in the register. -/
lemma Holds.tmp (h : Holds t m) : Shifted t.tmp (m.bits ++ [t.datainbit]) := h.shifter.concat _

/-- When the address is complete, it is in the shifter. -/
lemma Holds.tmp_eq_address (h : Holds t m) (hlen : m.bits.length = 31) :
    t.tmp = wordOfBits 32 ((m.bits ++ [t.datainbit]).take 32) := by
  have hlength : (m.bits ++ [t.datainbit]).length = 32 := by rw [List.length_append, hlen, List.length_singleton]
  rw [List.take_of_length_le (Nat.le_of_eq hlength)]
  exact Shifted.eq_wordOfBits (p := []) h.tmp hlength

/-- When the message is complete, its word is. -/
lemma Holds.tmp_eq_word (h : Holds t m) (hlen : m.bits.length = 63) :
    t.tmp = wordOfBits 32 ((m.bits ++ [t.datainbit]).drop 32) := by
  have htmp := h.tmp
  rw [← List.take_append_drop 32 (m.bits ++ [t.datainbit])] at htmp
  refine htmp.eq_wordOfBits ?_
  rw [List.length_drop, List.length_append, hlen, List.length_singleton]

/-- A bit that does not complete a message. -/
lemma Holds.clock_bit (h : Holds t m) (hframe : t.frameinbit = true) (hlen : m.bits.length ≠ 63) (i : Wire) :
    Holds (t.clock i) ⟨m.items, m.bits ++ [t.datainbit]⟩ := by
  have hlength := h.length
  have hlt : m.bits.length + 1 < 64 := by omega
  have h31 : t.count = 31 ↔ m.bits.length = 31 := h.count_eq_iff (n := 31) (by omega)
  have h63 : t.count = 63 ↔ m.bits.length = 63 := h.count_eq_iff (n := 63) (by omega)
  have htake : ∀ hle : 32 ≤ (m.bits ++ [t.datainbit]).length, m.bits.length ≠ 31 → 32 ≤ m.bits.length ∧
      (m.bits ++ [t.datainbit]).take 32 = m.bits.take 32 := by
    intro hle hne
    rw [List.length_append, List.length_singleton] at hle
    have hle' : 32 ≤ m.bits.length := by omega
    exact ⟨hle', List.take_append_of_le_length hle'⟩
  rw [SpiReg.clock, if_pos hframe]
  constructor
  case asize => exact h.asize
  case length =>
    rw [List.length_append, List.length_singleton]
    exact hlt
  case count =>
    show (t.count + 1).toNat = (m.bits ++ [t.datainbit]).length
    rw [toNat_add_one (mt h63.mp hlen), h.count, List.length_append, List.length_singleton]
  case shifter => exact h.tmp
  case addressmatch =>
    intro hle
    show (if t.count = 31 then addressed t.id t.tmp else t.addressmatch) = _
    by_cases h' : m.bits.length = 31
    · rw [if_pos (h31.mpr h'), h.tmp_eq_address h']
    · obtain ⟨hle', heq⟩ := htake hle h'
      rw [if_neg (mt h31.mp h'), heq, h.addressmatch hle']
  case iswrite =>
    intro hle
    show (if t.count = 31 then t.tmp.getLsbD 0 else t.iswrite) = _
    by_cases h' : m.bits.length = 31
    · rw [if_pos (h31.mpr h'), h.tmp_eq_address h']
    · obtain ⟨hle', heq⟩ := htake hle h'
      rw [if_neg (mt h31.mp h'), heq, h.iswrite hle']
  case data =>
    have hne : ¬(t.count = 63 ∧ t.addressmatch = true ∧ t.iswrite = true) := fun hall => hlen (h63.mp hall.1)
    exact (if_neg hne).trans h.data

/-- The last bit of a message. -/
lemma Holds.clock_last (h : Holds t m) (hframe : t.frameinbit = true) (hlen : m.bits.length = 63) (i : Wire) :
    Holds (t.clock i) ⟨m.items ++ [itemOf (m.bits ++ [t.datainbit])], []⟩ := by
  have hcount : t.count = 63 := (h.count_eq_iff (n := 63) (by omega)).mpr hlen
  have hle : 32 ≤ m.bits.length := by omega
  rw [SpiReg.clock, if_pos hframe]
  constructor
  case asize => exact h.asize
  case length => exact Nat.zero_lt_succ _
  case count =>
    show (t.count + 1).toNat = 0
    rw [hcount]
    rfl
  case shifter => exact .nil _
  case addressmatch => exact fun hle => absurd hle (Nat.not_succ_le_zero 31)
  case iswrite => exact fun hle => absurd hle (Nat.not_succ_le_zero 31)
  case data =>
    have ha : (itemOf (m.bits ++ [t.datainbit])).a = wordOfBits 32 (m.bits.take 32) := by
      rw [itemOf, List.take_append_of_le_length hle]
    show (if t.count = 63 ∧ t.addressmatch = true ∧ t.iswrite = true then t.tmp.setWidth t.asize else t.data) = _
    rw [updates_concat, update, ha, ← h.addressmatch hle, ← h.iswrite hle, ← h.data, h.tmp_eq_word hlen, itemOf]
    by_cases hall : t.addressmatch = true ∧ t.iswrite = true
    · rw [if_pos ⟨hcount, hall⟩, if_pos (by rw [hall.1, hall.2]; rfl)]
    · rw [if_neg fun h' => hall h'.2, if_neg (by rwa [Bool.and_eq_true])]

lemma Holds.clock (h : Holds t m) (i : Wire) (hread : m.read t.held = some m') : Holds (t.clock i) m' := by
  cases hframe : t.frameinbit with
  | false =>
    obtain ⟨hbits, rfl⟩ := (read_eq_some_of_not_frame (i := t.held) hframe).mp hread
    rw [SpiReg.clock, if_neg (by rw [hframe]; exact Bool.false_ne_true)]
    refine ⟨h.asize, h.length, by rw [hbits]; rfl, h.shifter, fun hle => ?_, fun hle => ?_, h.data⟩
    all_goals
      rw [hbits, List.length_nil] at hle
      omega
  | true =>
    rw [read_of_frame (i := t.held) hframe, Option.some.injEq, next] at hread
    subst hread
    split
    case isTrue hlen => exact h.clock_last hframe hlen i
    case isFalse hlen => exact h.clock_bit hframe hlen i

lemma length_respondBits (id : BitVec 32) (v : BitVec w) (p : List Bool) : (respondBits id v p).length = p.length := by
  rw [respondBits, List.length_append, List.length_take]
  split
  · rw [List.length_map, List.length_range]
    omega
  · rw [List.length_drop]
    omega

/-- What a register passes on is the next bit of its answer. -/
lemma Holds.read_out (h : Holds t m) (hread : m.read t.held = some m') :
    (answer t m).read t.out = some (answer t m') := by
  cases hframe : t.frameinbit with
  | false =>
    obtain ⟨hbits, rfl⟩ := (read_eq_some_of_not_frame (i := t.held) hframe).mp hread
    refine (read_eq_some_of_not_frame (i := t.out) hframe).mpr ⟨?_, rfl⟩
    rw [← List.length_eq_zero_iff, answer, length_respondBits, hbits, List.length_nil]
  | true =>
    rw [read_of_frame (i := t.held) hframe, Option.some.injEq] at hread
    subst hread
    have hbits : (answer t m).bits ++ [t.dataoutwire] =
        respondBits t.id (updates t.id (0 : BitVec t.asize) m.items) (m.bits ++ [t.datainbit]) := by
      rw [respondBits_concat, h.dataoutwire hframe]
      rfl
    have hlen : (answer t m).bits.length = m.bits.length := length_respondBits _ _ _
    rw [read_of_frame (i := t.out) hframe, next, next, out, held, hlen, hbits]
    split
    case isTrue hfull =>
      have hlength : (m.bits ++ [t.datainbit]).length = 64 := by
        rw [List.length_append, hfull, List.length_singleton]
      rw [itemOf_respondBits _ _ hlength, answer, answer, responses_concat]
      simp [respondBits]
    case isFalse => rfl

lemma answer_clock (t : SpiReg) (i : Wire) : answer (t.clock i) = answer t := by
  rw [SpiReg.clock]
  split <;> rfl

end SpiReg

open Messages SpiReg

/-- Registers as the relays of a chain. -/
def spiRelay : Relay SpiReg Wire Messages where
  held := SpiReg.held
  out := SpiReg.out
  clock := SpiReg.clock
  read := Messages.read
  answer := SpiReg.answer
  idle i := i.frame = false
  Holds := SpiReg.Holds
  held_clock t i := by
    rw [SpiReg.clock]
    split <;> rfl
  answer_clock := SpiReg.answer_clock
  holds_clock i h hread := h.clock i hread
  read_out h hread := h.read_out hread
  le_read := Messages.le_read
  answer_mono h := responses_isPrefix h
  read_idle hi hread := ((read_eq_some_of_not_frame hi).mp hread).2
  idle_out h := h

end Xbsv
