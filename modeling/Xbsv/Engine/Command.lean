import Xbsv.Dma.Burst

set_option relaxedAutoImplicit false
set_option autoImplicit false

/-!
# Commands of the memory engines

A command asks an engine to move `len` bytes from or to `base` on, in bursts of `burstLen` bytes. The
engines keep in the command what is left of it: after each burst the base moves on and the length is
reduced. The last burst is what is left when that is not longer than a burst.

## Main definitions

* `Xbsv.MemengineCmd` — a command.
* `Xbsv.MemengineCmd.isLast`, `Xbsv.MemengineCmd.next`, `Xbsv.MemengineCmd.request` — one burst of it.
* `Xbsv.MemengineCmd.bursts` — all its bursts.
* `Xbsv.MemengineCmd.Tiles` — requests that cover a command.

## Main results

* `Xbsv.MemengineCmd.tiles_bursts` — the bursts of a command cover it.
-/

namespace Xbsv

/-- A command of a memory engine (`MemengineCmd`). -/
@[ext]
structure MemengineCmd where
  pointer : BitVec 32
  base : BitVec 40
  burstLen : BitVec 8
  len : BitVec 32
  deriving DecidableEq, Repr

namespace MemengineCmd

/-- `cmd.len <= extend(cmd.burstLen)`: the next burst is the last. -/
def isLast (c : MemengineCmd) : Bool := decide (c.len ≤ c.burstLen.setWidth 32)

/-- The length of the next burst, `bl`. -/
def bl (c : MemengineCmd) : BitVec 8 := if c.isLast then c.len.setWidth 8 else c.burstLen

/-- The request for the next burst. -/
def request (c : MemengineCmd) : ObjectRequest := ⟨c.pointer, c.base, c.bl, 0⟩

/-- `new_cmd`: what is left after a burst that is not the last. -/
def next (c : MemengineCmd) : MemengineCmd :=
  { c with
    base := c.base + c.burstLen.setWidth 40
    len := c.len - c.burstLen.setWidth 32 }

/-- At most `fuel` bursts of a command and the one after; each is given by what is left of the command
before it. -/
def burstsAux : ℕ → MemengineCmd → List MemengineCmd
  | 0, c => [c]
  | fuel + 1, c => if c.isLast then [c] else c :: burstsAux fuel c.next

/-- The bursts of a command. -/
def bursts (c : MemengineCmd) : List MemengineCmd := burstsAux c.len.toNat c

/-- There is something to move, in bursts that are not empty. -/
structure Proper (c : MemengineCmd) : Prop where
  burstLen_pos : 0 < c.burstLen.toNat
  len_pos : 0 < c.len.toNat

variable {c : MemengineCmd}

lemma isLast_iff : c.isLast = true ↔ c.len.toNat ≤ c.burstLen.toNat := by
  have := c.burstLen.isLt
  rw [isLast, decide_eq_true_iff, BitVec.le_def, BitVec.toNat_setWidth, Nat.mod_eq_of_lt (by omega)]

lemma not_isLast_iff : c.isLast = false ↔ c.burstLen.toNat < c.len.toNat := by
  rw [← Bool.not_eq_true, isLast_iff]
  omega

/-- What is left after a burst that is not the last. -/
lemma next_len (h : c.isLast = false) : c.next.len.toNat = c.len.toNat - c.burstLen.toNat := by
  rw [not_isLast_iff] at h
  have h₁ := c.burstLen.isLt
  have h₂ := c.len.isLt
  have h₃ : (c.burstLen.setWidth 32).toNat = c.burstLen.toNat := by
    rw [BitVec.toNat_setWidth, Nat.mod_eq_of_lt (by omega)]
  simp only [next]
  rw [BitVec.toNat_sub, h₃]
  omega

@[simp] lemma next_pointer : c.next.pointer = c.pointer := rfl

lemma Proper.next (hp : c.Proper) (h : c.isLast = false) : c.next.Proper := by
  refine ⟨hp.burstLen_pos, ?_⟩
  rw [next_len h]
  rw [not_isLast_iff] at h
  omega

/-- The length of a burst: what is left at the end, `burstLen` before. -/
lemma bl_toNat : c.bl.toNat = min c.len.toNat c.burstLen.toNat := by
  have h₁ := c.burstLen.isLt
  unfold bl
  split
  · rename_i h
    rw [isLast_iff] at h
    rw [BitVec.toNat_setWidth, Nat.mod_eq_of_lt (by omega)]
    omega
  · rename_i h
    rw [Bool.not_eq_true, not_isLast_iff] at h
    omega

/-- Fuel beyond the length is not used. -/
lemma burstsAux_eq (hp : 0 < c.burstLen.toNat) (fuel : ℕ) (hf : c.len.toNat ≤ fuel) :
    burstsAux fuel c = bursts c := by
  induction fuel using Nat.strong_induction_on generalizing c with
  | _ fuel ih =>
    unfold bursts
    rcases hlen : c.len.toNat with _ | n
    · -- nothing is left, so the burst is the last
      have hl : c.isLast = true := isLast_iff.mpr (by omega)
      cases fuel with
      | zero => rfl
      | succ fuel => simp [burstsAux, hl]
    · obtain ⟨fuel, rfl⟩ : ∃ m, fuel = m + 1 := ⟨fuel - 1, by omega⟩
      simp only [burstsAux]
      split
      · rfl
      · rename_i hl
        rw [Bool.not_eq_true] at hl
        have hnext := next_len hl
        have h₁ := ih fuel (by omega) (c := c.next) hp (by omega)
        have h₂ := ih n (by omega) (c := c.next) hp (by omega)
        rw [h₁, h₂]

lemma bursts_of_isLast (h : c.isLast = true) : c.bursts = [c] := by
  unfold bursts
  cases c.len.toNat with
  | zero => rfl
  | succ n => simp [burstsAux, h]

/-- The first burst, and those of what is left. -/
lemma bursts_of_not_isLast (hp : 0 < c.burstLen.toNat) (h : c.isLast = false) :
    c.bursts = c :: c.next.bursts := by
  have hlen := next_len h
  have hlt := not_isLast_iff.mp h
  unfold bursts
  obtain ⟨n, hn⟩ : ∃ n, c.len.toNat = n + 1 := ⟨c.len.toNat - 1, by omega⟩
  rw [hn]
  simp only [burstsAux, h]
  rw [burstsAux_eq (c := c.next) hp n (by omega)]
  rfl

/-- The bursts of a command are of one kind: an induction over them. -/
lemma bursts_induction {motive : MemengineCmd → Prop}
    (last : ∀ c : MemengineCmd, c.Proper → c.isLast = true → motive c)
    (step : ∀ c : MemengineCmd, c.Proper → c.isLast = false → motive c.next → motive c)
    (hp : c.Proper) : motive c := by
  induction hn : c.len.toNat using Nat.strong_induction_on generalizing c with
  | _ n ih =>
    cases hl : c.isLast with
    | true => exact last c hp hl
    | false =>
      have hlen := next_len hl
      have hb := hp.burstLen_pos
      have hlt := not_isLast_iff.mp hl
      exact step c hp hl (ih _ (by omega) (hp.next hl) rfl)

/-- The last burst of a command is its only last one. -/
lemma bursts_eq_concat (hp : c.Proper) :
    ∃ ds d, c.bursts = ds ++ [d] ∧ d.isLast = true ∧ ∀ d' ∈ ds, d'.isLast = false := by
  refine bursts_induction (motive := fun c =>
    ∃ ds d, c.bursts = ds ++ [d] ∧ d.isLast = true ∧ ∀ d' ∈ ds, d'.isLast = false) ?_ ?_ hp
  · intro c hp hl
    refine ⟨[], c, bursts_of_isLast hl, hl, fun d hd => ?_⟩
    cases hd
  · rintro c hp hl ⟨ds, d, hds, hd, hall⟩
    refine ⟨c :: ds, d, ?_, hd, fun d' hd' => ?_⟩
    · rw [bursts_of_not_isLast hp.burstLen_pos hl, hds, List.cons_append]
    · rcases List.mem_cons.mp hd' with rfl | hd'
      · exact hl
      · exact hall d' hd'

/-- A command has exactly one last burst. -/
lemma countP_isLast_bursts (hp : c.Proper) : c.bursts.countP isLast = 1 := by
  obtain ⟨ds, d, hds, hd, hall⟩ := bursts_eq_concat hp
  have hnone : ds.countP isLast = 0 := by
    rw [List.countP_eq_zero]
    intro d' hd'
    simp [hall d' hd']
  rw [hds, List.countP_append, hnone, List.countP_singleton, if_pos hd]

/-- The first burst is of the whole command. -/
lemma self_mem_bursts (hp : c.Proper) : c ∈ c.bursts := by
  cases hl : c.isLast with
  | true => simp [bursts_of_isLast hl]
  | false => simp [bursts_of_not_isLast hp.burstLen_pos hl]

/-- All bursts of a command are of the same kind. -/
lemma burstLen_of_mem_bursts (hp : c.Proper) : ∀ d ∈ c.bursts, d.burstLen = c.burstLen := by
  refine bursts_induction (motive := fun c => ∀ d ∈ c.bursts, d.burstLen = c.burstLen) ?_ ?_ hp
  · intro c _ hl d hd
    rw [bursts_of_isLast hl, List.mem_singleton] at hd
    rw [hd]
  · intro c hp hl ih d hd
    rw [bursts_of_not_isLast hp.burstLen_pos hl, List.mem_cons] at hd
    rcases hd with rfl | hd
    · rfl
    · exact ih d hd

/-! ## Beats -/

/-- The number of beats that a whole burst has by the shift of the engines. -/
def fullBeats (dataWidthBytes : ℕ) (c : MemengineCmd) : ℕ :=
  (c.burstLen >>> beatShift dataWidthBytes).toNat

/-- For widths that are powers of two it is the number of beats of a whole burst. -/
lemma fullBeats_eq {dataWidthBytes k : ℕ} (hw : dataWidthBytes = 2 ^ k) (c : MemengineCmd) :
    c.fullBeats dataWidthBytes = c.burstLen.toNat / dataWidthBytes :=
  WholeBurst.shift_toNat hw

/-- The length of the bursts and that of the command are positive multiples of the width of a beat. -/
structure Whole (dataWidthBytes : ℕ) (c : MemengineCmd) : Prop where
  burstLen : WholeBurst dataWidthBytes c.burstLen
  len_pos : 0 < c.len.toNat
  dvd_len : dataWidthBytes ∣ c.len.toNat

instance (dataWidthBytes : ℕ) (c : MemengineCmd) : Decidable (Whole dataWidthBytes c) :=
  decidable_of_iff (WholeBurst dataWidthBytes c.burstLen ∧ 0 < c.len.toNat ∧
      dataWidthBytes ∣ c.len.toNat)
    ⟨fun h => ⟨h.1, h.2.1, h.2.2⟩, fun h => ⟨h.burstLen, h.len_pos, h.dvd_len⟩⟩

/-- The command is whole, and its length is a multiple of that of its bursts. -/
structure Even (dataWidthBytes : ℕ) (c : MemengineCmd) : Prop where
  whole : c.Whole dataWidthBytes
  dvd : c.burstLen.toNat ∣ c.len.toNat

instance (dataWidthBytes : ℕ) (c : MemengineCmd) : Decidable (c.Even dataWidthBytes) :=
  decidable_of_iff (c.Whole dataWidthBytes ∧ c.burstLen.toNat ∣ c.len.toNat)
    ⟨fun h => ⟨h.1, h.2⟩, fun h => ⟨h.whole, h.dvd⟩⟩

section Whole

variable {dataWidthBytes : ℕ}

lemma Whole.proper (h : c.Whole dataWidthBytes) : c.Proper := ⟨h.burstLen.pos, h.len_pos⟩

/-- What is left of a command after a burst is again of this kind. -/
lemma Whole.next (h : c.Whole dataWidthBytes) (hl : c.isLast = false) : c.next.Whole dataWidthBytes := by
  have hlen := next_len hl
  have hlt := not_isLast_iff.mp hl
  refine ⟨h.burstLen, by omega, ?_⟩
  rw [hlen]
  exact Nat.dvd_sub h.dvd_len h.burstLen.dvd

/-- The next burst is a positive number of beats. -/
lemma Whole.bl (h : c.Whole dataWidthBytes) : WholeBurst dataWidthBytes c.bl := by
  have hpos := h.burstLen.pos
  have hlen := h.len_pos
  refine ⟨by rw [bl_toNat]; omega, ?_⟩
  rw [bl_toNat]
  rcases Nat.le_total c.len.toNat c.burstLen.toNat with hle | hle
  · rw [Nat.min_eq_left hle]
    exact h.dvd_len
  · rw [Nat.min_eq_right hle]
    exact h.burstLen.dvd

/-- All bursts of a command are of this kind. -/
lemma Whole.bursts (h : c.Whole dataWidthBytes) : ∀ d ∈ c.bursts, d.Whole dataWidthBytes := by
  refine bursts_induction (motive := fun c => c.Whole dataWidthBytes →
    ∀ d ∈ c.bursts, d.Whole dataWidthBytes) ?_ ?_ h.proper h
  · intro c _ hl hc d hd
    rw [bursts_of_isLast hl, List.mem_singleton] at hd
    exact hd ▸ hc
  · intro c _ hl ih hc d hd
    rw [bursts_of_not_isLast hc.burstLen.pos hl, List.mem_cons] at hd
    rcases hd with rfl | hd
    · exact hc
    · exact ih (hc.next hl) d hd

/-- Where the length of a command is a multiple of that of its bursts, all bursts are of full length. -/
lemma bl_of_dvd (hp : c.Proper) (hdvd : c.burstLen.toNat ∣ c.len.toNat) :
    ∀ d ∈ c.bursts, d.bl.toNat = d.burstLen.toNat := by
  refine bursts_induction (motive := fun c => c.burstLen.toNat ∣ c.len.toNat →
    ∀ d ∈ c.bursts, d.bl.toNat = d.burstLen.toNat) ?_ ?_ hp hdvd
  · intro c hp hl hdvd d hd
    rw [bursts_of_isLast hl, List.mem_singleton] at hd
    subst hd
    have hle := isLast_iff.mp hl
    have hge := Nat.le_of_dvd hp.len_pos hdvd
    rw [bl_toNat]
    omega
  · intro c hp hl ih hdvd d hd
    have hlt := not_isLast_iff.mp hl
    rw [bursts_of_not_isLast hp.burstLen_pos hl, List.mem_cons] at hd
    rcases hd with rfl | hd
    · rw [bl_toNat]
      omega
    · refine ih ?_ d hd
      rw [next_len hl]
      exact Nat.dvd_sub hdvd (Nat.dvd_refl _)

/-- The bursts of a command have as many beats as the command. -/
lemma Whole.sum_bursts (h : c.Whole dataWidthBytes) :
    (c.bursts.map fun d => d.bl.toNat / dataWidthBytes).sum = c.len.toNat / dataWidthBytes := by
  refine bursts_induction (motive := fun c => c.Whole dataWidthBytes →
    (c.bursts.map fun d => d.bl.toNat / dataWidthBytes).sum = c.len.toNat / dataWidthBytes)
    ?_ ?_ h.proper h
  · intro c _ hl hc
    have hlen := isLast_iff.mp hl
    rw [bursts_of_isLast hl, List.map_singleton, List.sum_singleton, bl_toNat]
    congr 1
    omega
  · intro c hp hl ih hc
    have hlt := not_isLast_iff.mp hl
    have hbl : c.bl.toNat = c.burstLen.toNat := by
      rw [bl_toNat]
      omega
    rw [bursts_of_not_isLast hp.burstLen_pos hl, List.map_cons, List.sum_cons, ih (hc.next hl), hbl,
      next_len hl, ← Nat.add_div_of_dvd_right hc.burstLen.dvd, Nat.add_sub_of_le hlt.le]

end Whole

/-- A beat of a command: the object, the offset, and whether it is the last of its command. -/
structure Beat where
  pointer : BitVec 32
  offset : BitVec 40
  last : Bool
  deriving DecidableEq, Repr

/-- `n` beats from an offset on; the last of them is marked or not. -/
def beatsFrom (dataWidthBytes : ℕ) (pointer : BitVec 32) (offset : BitVec 40) (n : ℕ) (last : Bool) :
    List Beat :=
  (List.range n).map fun j =>
    ⟨pointer, offset + BitVec.ofNat 40 (j * dataWidthBytes), last && decide (j + 1 = n)⟩

/-- The beats of the next burst. -/
def beatsOfBurst (dataWidthBytes : ℕ) (c : MemengineCmd) : List Beat :=
  beatsFrom dataWidthBytes c.pointer c.base (c.bl.toNat / dataWidthBytes) c.isLast

/-- The beats of a command. -/
def beatsOf (dataWidthBytes : ℕ) (c : MemengineCmd) : List Beat :=
  beatsFrom dataWidthBytes c.pointer c.base (c.len.toNat / dataWidthBytes) true

/-- Beats without a mark, and those after them. -/
lemma beatsFrom_append {dataWidthBytes : ℕ} {p : BitVec 32} {o : BitVec 40} {m n : ℕ} (hn : 0 < n) :
    beatsFrom dataWidthBytes p o m false ++
        beatsFrom dataWidthBytes p (o + BitVec.ofNat 40 (m * dataWidthBytes)) n true =
      beatsFrom dataWidthBytes p o (m + n) true := by
  simp only [beatsFrom, List.range_add, List.map_append, List.map_map]
  congr 1
  · refine List.map_congr_left fun j hj => ?_
    have hlt := List.mem_range.mp hj
    simp only [Bool.false_and, Bool.true_and, Beat.mk.injEq, true_and]
    rw [eq_comm, decide_eq_false_iff_not]
    omega
  · refine List.map_congr_left fun j hj => ?_
    simp only [Function.comp, Bool.true_and, Beat.mk.injEq, true_and]
    refine ⟨by rw [Nat.add_mul, BitVec.ofNat_add, BitVec.add_assoc], ?_⟩
    rw [decide_eq_decide]
    omega

/-- **The bursts of a command have its beats.** -/
theorem flatMap_beatsOfBurst {dataWidthBytes : ℕ} (h : c.Whole dataWidthBytes) :
    c.bursts.flatMap (beatsOfBurst dataWidthBytes) = beatsOf dataWidthBytes c := by
  refine bursts_induction (motive := fun c => c.Whole dataWidthBytes →
    c.bursts.flatMap (beatsOfBurst dataWidthBytes) = beatsOf dataWidthBytes c) ?_ ?_ h.proper h
  · intro c _ hl hc
    have hlen := isLast_iff.mp hl
    have hbl : c.bl.toNat = c.len.toNat := by
      rw [bl_toNat]
      omega
    rw [bursts_of_isLast hl, List.flatMap_singleton, beatsOfBurst, beatsOf, hl, hbl]
  · intro c hp hl ih hc
    have hlt := not_isLast_iff.mp hl
    have hbl : c.bl.toNat = c.burstLen.toNat := by
      rw [bl_toNat]
      omega
    have hnext := hc.next hl
    have hw : 0 < dataWidthBytes := Nat.pos_of_dvd_of_pos hc.burstLen.dvd hp.burstLen_pos
    -- what is left is at least one beat
    have hrest : 0 < c.next.len.toNat / dataWidthBytes :=
      Nat.div_pos (Nat.le_of_dvd hnext.len_pos hnext.dvd_len) hw
    have hbase : c.next.base =
        c.base + BitVec.ofNat 40 (c.burstLen.toNat / dataWidthBytes * dataWidthBytes) := by
      rw [Nat.div_mul_cancel hc.burstLen.dvd, BitVec.ofNat_toNat]
      rfl
    have hsum : c.burstLen.toNat / dataWidthBytes + c.next.len.toNat / dataWidthBytes =
        c.len.toNat / dataWidthBytes := by
      rw [next_len hl, ← Nat.add_div_of_dvd_right hc.burstLen.dvd,
        Nat.add_sub_of_le hlt.le]
    rw [bursts_of_not_isLast hp.burstLen_pos hl, List.flatMap_cons, ih hnext, beatsOfBurst, beatsOf,
      beatsOf, hl, hbl, next_pointer, hbase, beatsFrom_append hrest, hsum]

/-! ## Tiling -/

/-- The requests cover `[base, base + len)` of an object: each begins where the one before ends, and
none is longer than `burstLen`. -/
def Tiles (pointer burstLen : ℕ) : ℕ → ℕ → List ObjectRequest → Prop
  | _, len, [] => len = 0
  | base, len, r :: rs => r.pointer.toNat = pointer ∧ r.offset.toNat = base ∧
      0 < r.burstLen.toNat ∧ r.burstLen.toNat ≤ burstLen ∧ r.burstLen.toNat ≤ len ∧
      Tiles pointer burstLen (base + r.burstLen.toNat) (len - r.burstLen.toNat) rs

/-- **The bursts of a command cover it**, if it does not reach the end of the address space. -/
theorem tiles_bursts (hp : c.Proper) (hb : c.base.toNat + c.len.toNat ≤ 2 ^ 40) :
    Tiles c.pointer.toNat c.burstLen.toNat c.base.toNat c.len.toNat (c.bursts.map request) := by
  revert hb
  refine bursts_induction (motive := fun c => c.base.toNat + c.len.toNat ≤ 2 ^ 40 →
    Tiles c.pointer.toNat c.burstLen.toNat c.base.toNat c.len.toNat (c.bursts.map request)) ?_ ?_ hp
  · intro c hp hl _
    have hlen := isLast_iff.mp hl
    have hpos := hp.len_pos
    have hbl := bl_toNat (c := c)
    rw [bursts_of_isLast hl]
    simp only [List.map_singleton, request, Tiles, true_and]
    omega
  · intro c hp hl ih hb
    have hlt := not_isLast_iff.mp hl
    have hpos := hp.burstLen_pos
    have hbl : c.bl.toNat = c.burstLen.toNat := by
      rw [bl_toNat]
      omega
    have hbase : c.next.base.toNat = c.base.toNat + c.burstLen.toNat := by
      have h₁ := c.burstLen.isLt
      simp only [next]
      rw [BitVec.toNat_add, BitVec.toNat_setWidth, Nat.mod_eq_of_lt (a := c.burstLen.toNat) (by omega),
        Nat.mod_eq_of_lt (by omega)]
    have hrest := ih (by rw [hbase, next_len hl]; omega)
    rw [hbase, next_len hl] at hrest
    rw [bursts_of_not_isLast hpos hl]
    simp only [List.map_cons, request, Tiles, hbl, true_and]
    exact ⟨hpos, Nat.le_refl _, by omega, hrest⟩

end MemengineCmd

end Xbsv
