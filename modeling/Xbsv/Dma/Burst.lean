import Mathlib.Data.Nat.Basic
import Xbsv.Dma.MemTypes

set_option relaxedAutoImplicit false
set_option autoImplicit false

/-!
# Bursts and beats

A request names its length in bytes (`burstLen`, 8 bits); the memory moves it in beats of
`dataWidthBytes` bytes. The modules turn bytes into beats by a right shift by
`TLog#(dataWidthBytes)`. That is the division by the width of a beat when the width is a power of
two, and not otherwise.

## Main definitions

* `Xbsv.beatShift` — the shift.
* `Xbsv.beats` — the number of beats of a burst.
* `Xbsv.WholeBurst` — a burst of at least one beat and without a rest.
* `Xbsv.completed` — how many bursts, one after the other, a number of beats completes.

## Main results

* `Xbsv.WholeBurst.shift_toNat` — the shift computes the number of beats.
* `Xbsv.WholeBurst.eq_width_iff` — a burst is as long as a beat when it is one beat.
-/

namespace Xbsv

/-- `beat_shift`: the logarithm of the width of a beat in bytes. -/
abbrev beatShift (dataWidthBytes : ℕ) : ℕ := tlog dataWidthBytes

/-- The number of beats of a burst of the given length in bytes. -/
def beats (dataWidthBytes : ℕ) (burstLen : BitVec 8) : ℕ := burstLen.toNat / dataWidthBytes

/-- The length is a positive multiple of the width of a beat. -/
structure WholeBurst (dataWidthBytes : ℕ) (burstLen : BitVec 8) : Prop where
  pos : 0 < burstLen.toNat
  dvd : dataWidthBytes ∣ burstLen.toNat

instance (dataWidthBytes : ℕ) (burstLen : BitVec 8) :
    Decidable (WholeBurst dataWidthBytes burstLen) :=
  decidable_of_iff (0 < burstLen.toNat ∧ dataWidthBytes ∣ burstLen.toNat)
    ⟨fun h => ⟨h.1, h.2⟩, fun h => ⟨h.pos, h.dvd⟩⟩

namespace WholeBurst

variable {dataWidthBytes : ℕ} {burstLen : BitVec 8}

/-- The length is the number of beats times their width. -/
lemma mul_beats (h : WholeBurst dataWidthBytes burstLen) :
    dataWidthBytes * beats dataWidthBytes burstLen = burstLen.toNat :=
  Nat.mul_div_cancel' h.dvd

/-- There is at least one beat. -/
lemma beats_pos (h : WholeBurst dataWidthBytes burstLen) : 0 < beats dataWidthBytes burstLen := by
  have hm := h.mul_beats
  have hp := h.pos
  rcases Nat.eq_zero_or_pos (beats dataWidthBytes burstLen) with h0 | h0
  · rw [h0, Nat.mul_zero] at hm
    omega
  · exact h0

/-- For widths that are powers of two the shift computes the number of beats. -/
lemma shift_toNat {k : ℕ} (hw : dataWidthBytes = 2 ^ k) :
    (burstLen >>> beatShift dataWidthBytes).toNat = beats dataWidthBytes burstLen := by
  subst hw
  rw [BitVec.toNat_ushiftRight, beatShift, tlog_two_pow, Nat.shiftRight_eq_div_pow, beats]

/-- A burst is as long as the 8-bit width of a beat exactly when it has one beat. -/
lemma eq_width_iff (h : WholeBurst dataWidthBytes burstLen) :
    burstLen = BitVec.ofNat 8 dataWidthBytes ↔ beats dataWidthBytes burstLen = 1 := by
  have hm := h.mul_beats
  have hn := h.beats_pos
  have hlt := burstLen.isLt
  -- the width does not exceed the length, so it is not truncated
  have hw : dataWidthBytes < 2 ^ 8 := by
    have := Nat.le_mul_of_pos_right dataWidthBytes hn
    omega
  constructor
  · intro he
    have ht : burstLen.toNat = dataWidthBytes := by
      rw [he, BitVec.toNat_ofNat]
      exact Nat.mod_eq_of_lt hw
    have hp := h.pos
    rw [beats, ht]
    exact Nat.div_self (by omega)
  · intro h1
    rw [h1, Nat.mul_one] at hm
    rw [hm]
    simp

end WholeBurst

/-- The number of bursts that the first `m` beats complete; `ns` are the lengths of the bursts in
beats, in order. -/
def completed : List ℕ → ℕ → ℕ
  | [], _ => 0
  | n :: ns, m => if n ≤ m then completed ns (m - n) + 1 else 0

/-- Bursts `ds` are complete and `m` beats of the next one have come. -/
lemma completed_append (ds ns : List ℕ) (m : ℕ) (h : ∀ n ∈ ns.head?, m < n) :
    completed (ds ++ ns) (ds.sum + m) = ds.length := by
  induction ds with
  | nil =>
    cases ns with
    | nil => rfl
    | cons n ns =>
      have hn : m < n := h n (by simp)
      simp only [List.nil_append, List.sum_nil, Nat.zero_add, completed, List.length_nil]
      rw [if_neg (by omega)]
  | cons d ds ih =>
    simp only [List.cons_append, List.sum_cons, completed, List.length_cons]
    rw [if_pos (by omega), show d + ds.sum + m - d = ds.sum + m by omega, ih]

/-- Where each list has its only mark at its end, the marks among the first `m` elements count the lists
that these complete. -/
lemma countP_take_flatMap {α β : Type*} {p : β → Bool} {f : α → List β} {cs : List α}
    (hmark : ∀ c ∈ cs, ∃ bs b, f c = bs ++ [b] ∧ p b = true ∧ ∀ b' ∈ bs, p b' = false) (m : ℕ) :
    ((cs.flatMap f).take m).countP p = completed (cs.map fun c => (f c).length) m := by
  induction cs generalizing m with
  | nil => simp [completed]
  | cons c cs ih =>
    obtain ⟨bs, b, hf, hb, hbs⟩ := hmark c List.mem_cons_self
    have hnone : ∀ n, (bs.take n).countP p = 0 := by
      intro n
      rw [List.countP_eq_zero]
      intro b' hb'
      simp [hbs b' (List.mem_of_mem_take hb')]
    rw [List.flatMap_cons, List.take_append, List.countP_append,
      ih fun d hd => hmark d (List.mem_cons_of_mem _ hd), List.map_cons, completed]
    split
    · rename_i hle
      have hzero := hnone bs.length
      rw [List.take_length] at hzero
      rw [List.take_of_length_le hle, hf, List.countP_append, hzero, List.countP_singleton, if_pos hb]
      omega
    · rename_i hgt
      have hlen : (f c).length = bs.length + 1 := by
        rw [hf, List.length_append, List.length_singleton]
      have hpos : ∀ n ∈ (cs.map fun c => (f c).length).head?, 0 < n := by
        intro n hn
        obtain ⟨d, hd, rfl⟩ := List.mem_map.mp (List.mem_of_mem_head? hn)
        obtain ⟨bs', b', hf', -⟩ := hmark d (List.mem_cons_of_mem _ hd)
        simp [hf']
      have hrest := completed_append [] (cs.map fun c => (f c).length) 0 hpos
      rw [show m - (f c).length = 0 by omega, hf, List.take_append_of_le_length (by omega), hnone m]
      simpa using hrest

end Xbsv
