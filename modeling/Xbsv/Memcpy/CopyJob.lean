import Mathlib.Tactic.Ring
import Xbsv.Engine.WriteCredits
import Xbsv.Memcpy.Memcpy

set_option relaxedAutoImplicit false
set_option autoImplicit false

/-!
# What is to be copied

The commands of a copy, counted from the first on. One iteration is made of whole bursts, as many as cover the words that
are asked for, and at least one; the commands of an iteration are those of the one before. So the beats of the commands,
counted through, go over and over the same beats of an object.

## Main definitions

* `Xbsv.CopyJob` — the arguments of `startCopy`.
* `Xbsv.CopyJob.cmd` — the commands for an object.
* `Xbsv.CopyJob.place` — the places of their beats.

## Main results

* `Xbsv.CopyJob.count_cmd` — the counters are those of the next command.
* `Xbsv.CopyJob.flatMap_beatsOf` — the commands have these beats.
-/

namespace Xbsv

/-- The number of bursts of `bl` words that cover `nw` words, and at least one. -/
def burstsOf (nw bl : ℕ) : ℕ := max 1 ((nw + bl - 1) / bl)

/-- The arguments of a call of `startCopy`, for two objects. A burst is of 1 to 16 beats, and the offsets in bytes fit a
word. -/
structure CopyJob where
  wp : BitVec 32
  rp : BitVec 32
  nw : BitVec 32
  bl : BitVec 32
  ic : BitVec 32
  ne : wp ≠ rp
  even : 2 ∣ bl.toNat
  pos : 0 < bl.toNat
  le : bl.toNat ≤ 32
  fits : 4 * (burstsOf nw.toNat bl.toNat * bl.toNat) ≤ 2 ^ 32

namespace CopyJob

variable (j : CopyJob)

/-- The number of bursts of an iteration. -/
def bursts : ℕ := burstsOf j.nw.toNat j.bl.toNat

/-- The number of beats of a burst. -/
def beats : ℕ := j.bl.toNat / 2

/-- The number of beats of an iteration: those that are copied. -/
def size : ℕ := j.bursts * j.beats

/-- Command number `r` for an object. -/
def cmd (p : BitVec 32) (r : ℕ) : MemengineCmd :=
  Memcpy.command p (BitVec.ofNat 32 (r % j.bursts * j.bl.toNat)) j.bl

/-- The place of beat number `k`. -/
def place (p : BitVec 32) (k : ℕ) : Place := (p, BitVec.ofNat 40 (8 * (k % j.size)))

/-- The length of the bursts in bytes. -/
def burstBytes : BitVec 8 := BitVec.ofNat 8 (8 * j.beats)

/-! ## Numbers -/

lemma mul_beats : 2 * j.beats = j.bl.toNat := Nat.mul_div_cancel' j.even

lemma beats_pos : 0 < j.beats := by
  have hpos := j.pos
  have hmul := j.mul_beats
  omega

lemma beats_le : j.beats ≤ 16 := by
  have hle := j.le
  have hmul := j.mul_beats
  omega

lemma bursts_pos : 0 < j.bursts := Nat.lt_of_lt_of_le Nat.one_pos (Nat.le_max_left _ _)

lemma size_pos : 0 < j.size := Nat.mul_pos j.bursts_pos j.beats_pos

lemma size_le : 8 * j.size ≤ 2 ^ 32 := by
  have hfits := j.fits
  have heq : 4 * (j.bursts * j.bl.toNat) = 8 * j.size := by
    rw [size, ← j.mul_beats]
    ring
  rw [← heq]
  exact hfits

/-- The offset of a burst. -/
lemma burst_le (r : ℕ) : 8 * (r % j.bursts * j.beats + j.beats) ≤ 8 * j.size := by
  have hlt := Nat.mod_lt r j.bursts_pos
  have hle := Nat.mul_le_mul_right j.beats (Nat.succ_le_of_lt hlt)
  rw [Nat.succ_mul] at hle
  rw [size]
  omega

/-- The words after a burst cover what is asked for exactly when it is the last burst of an iteration. -/
lemma covered_iff {i : ℕ} (hi : i < j.bursts) : j.nw.toNat ≤ (i + 1) * j.bl.toNat ↔ i + 1 = j.bursts := by
  have hpos := j.pos
  have hdiv : (j.nw.toNat + j.bl.toNat - 1) / j.bl.toNat ≤ i + 1 ↔ j.nw.toNat ≤ (i + 1) * j.bl.toNat := by
    rw [Nat.div_le_iff_le_mul_add_pred hpos, Nat.mul_comm (i + 1)]
    omega
  rw [← hdiv]
  rw [bursts, burstsOf] at hi ⊢
  omega

/-- The words asked for are among those that are copied. -/
lemma nw_le : 4 * j.nw.toNat ≤ 8 * j.size := by
  have hpos := j.bursts_pos
  have hcovered := (j.covered_iff (i := j.bursts - 1) (by omega)).mpr (by omega)
  have heq : j.bursts * j.bl.toNat = 2 * j.size := by
    rw [size, ← j.mul_beats]
    ring
  rw [Nat.sub_add_cancel hpos, heq] at hcovered
  omega

/-! ## The counters -/

/-- **The counters are those of the next command.** -/
lemma count_cmd {r : ℕ} {it : BitVec 32} (hit : it.toNat + r / j.bursts = j.ic.toNat) (hleft : it > 0) :
    (Memcpy.count j.nw j.bl (BitVec.ofNat 32 (r % j.bursts * j.bl.toNat)) it).1 =
        BitVec.ofNat 32 ((r + 1) % j.bursts * j.bl.toNat) ∧
      (Memcpy.count j.nw j.bl (BitVec.ofNat 32 (r % j.bursts * j.bl.toNat)) it).2.toNat + (r + 1) / j.bursts =
        j.ic.toNat := by
  have hm := j.bursts_pos
  have hlt := Nat.mod_lt r hm
  have hpos : 0 < it.toNat := BitVec.lt_def.mp hleft
  have hsum : (BitVec.ofNat 32 (r % j.bursts * j.bl.toNat) + j.bl).toNat = (r % j.bursts + 1) * j.bl.toNat := by
    have hle := j.burst_le r
    have hsize := j.size_le
    have hmul := j.mul_beats
    have heq : (r % j.bursts + 1) * j.bl.toNat = 2 * (r % j.bursts * j.beats + j.beats) := by
      rw [← hmul]
      ring
    have hadd : (r % j.bursts + 1) * j.bl.toNat = r % j.bursts * j.bl.toNat + j.bl.toNat := Nat.succ_mul _ _
    rw [BitVec.toNat_add, BitVec.toNat_ofNat, Nat.mod_eq_of_lt (a := r % j.bursts * j.bl.toNat) (by omega),
      Nat.mod_eq_of_lt (by omega), hadd]
  have hge : BitVec.ofNat 32 (r % j.bursts * j.bl.toNat) + j.bl ≥ j.nw ↔ r % j.bursts + 1 = j.bursts := by
    rw [ge_iff_le, BitVec.le_def, hsum]
    exact j.covered_iff hlt
  have hdm := Nat.div_add_mod r j.bursts
  by_cases hlast : r % j.bursts + 1 = j.bursts
  · -- the next command is the first of an iteration
    have hnext : (r + 1) / j.bursts = r / j.bursts + 1 ∧ (r + 1) % j.bursts = 0 := by
      rw [Nat.div_mod_unique hm]
      refine ⟨?_, hm⟩
      rw [Nat.mul_add, Nat.mul_one]
      omega
    rw [Memcpy.count, if_pos (hge.mpr hlast), hnext.1, hnext.2, Nat.zero_mul]
    refine ⟨rfl, ?_⟩
    rw [Loader.counter_sub_one hpos]
    omega
  · have hnext : (r + 1) / j.bursts = r / j.bursts ∧ (r + 1) % j.bursts = r % j.bursts + 1 := by
      rw [Nat.div_mod_unique hm]
      omega
    rw [Memcpy.count, if_neg fun h => hlast (hge.mp h), hnext.1, hnext.2]
    refine ⟨BitVec.eq_of_toNat_eq ?_, hit⟩
    have hlt' := (BitVec.ofNat 32 (r % j.bursts * j.bl.toNat) + j.bl).isLt
    rw [hsum] at hlt'
    rw [hsum, BitVec.toNat_ofNat, Nat.mod_eq_of_lt (a := (r % j.bursts + 1) * j.bl.toNat) hlt']

/-- Commands are left while the counter of iterations is not zero. -/
lemma left_iff {r : ℕ} {it : BitVec 32} (hit : it.toNat + r / j.bursts = j.ic.toNat) :
    it > 0 ↔ r < j.bursts * j.ic.toNat := by
  have h0 : it > 0 ↔ 0 < it.toNat := BitVec.lt_def
  rw [h0, Nat.mul_comm, ← Nat.div_lt_iff_lt_mul j.bursts_pos]
  omega

/-! ## The commands -/

variable (p : BitVec 32) (r : ℕ)

@[simp] lemma cmd_pointer : (j.cmd p r).pointer = p := rfl

lemma cmd_base : (j.cmd p r).base.toNat = 8 * (r % j.bursts * j.beats) := by
  have hle := j.burst_le r
  have hsize := j.size_le
  have hpos := j.beats_pos
  have heq : r % j.bursts * j.bl.toNat = 2 * (r % j.bursts * j.beats) := by
    rw [← j.mul_beats]
    ring
  rw [cmd, Memcpy.command, BitVec.toNat_setWidth, BitVec.toNat_mul, BitVec.toNat_ofNat, heq,
    Nat.mod_eq_of_lt (a := 2 * (r % j.bursts * j.beats)) (by omega)]
  have h4 : (4 : BitVec 32).toNat = 4 := rfl
  rw [h4, Nat.mod_eq_of_lt (a := 2 * (r % j.bursts * j.beats) * 4) (by omega), Nat.mod_eq_of_lt (by omega)]
  ring

lemma cmd_len : (j.cmd p r).len.toNat = 8 * j.beats := by
  have hle := j.beats_le
  have hmul := j.mul_beats
  have h4 : (4 : BitVec 32).toNat = 4 := rfl
  rw [cmd, Memcpy.command, BitVec.toNat_mul, h4, Nat.mod_eq_of_lt (by omega)]
  omega

lemma cmd_burstLen : (j.cmd p r).burstLen = j.burstBytes := by
  have hlen : ((j.bl * 4).toNat) = 8 * j.beats := j.cmd_len p r
  refine BitVec.eq_of_toNat_eq ?_
  rw [cmd, Memcpy.command, BitVec.toNat_setWidth, hlen, burstBytes, BitVec.toNat_ofNat]

lemma burstBytes_toNat : j.burstBytes.toNat = 8 * j.beats := by
  have hle := j.beats_le
  rw [burstBytes, BitVec.toNat_ofNat, Nat.mod_eq_of_lt (by omega)]

/-- A command is one burst. -/
lemma cmd_fixed {k : ℕ} (i : Fin k) : MemwriteEngine.Fixed 8 (fun _ => j.burstBytes) i (j.cmd p r) := by
  have hlen := j.cmd_len p r
  have hburst : (j.cmd p r).burstLen.toNat = 8 * j.beats := by rw [j.cmd_burstLen, j.burstBytes_toNat]
  have hpos := j.beats_pos
  refine ⟨j.cmd_burstLen p r, ⟨⟨⟨?_, ?_⟩, ?_, ?_⟩, ?_⟩⟩
  · rw [hburst]
    omega
  · rw [hburst]
    exact Nat.dvd_mul_right 8 _
  · rw [hlen]
    omega
  · rw [hlen]
    exact Nat.dvd_mul_right 8 _
  · rw [hlen, hburst]

lemma cmd_bursts : (j.cmd p r).bursts = [j.cmd p r] := by
  refine MemengineCmd.bursts_of_isLast (MemengineCmd.isLast_iff.mpr ?_)
  rw [j.cmd_len, j.cmd_burstLen, j.burstBytes_toNat]

lemma cmd_fullBeats : (j.cmd p r).fullBeats 8 = j.beats := by
  have hw : 8 = 2 ^ 3 := rfl
  rw [MemengineCmd.fullBeats_eq hw, j.cmd_burstLen, j.burstBytes_toNat]
  omega

/-- The commands are their bursts. -/
lemma flatMap_bursts : ((List.range r).map (j.cmd p)).flatMap MemengineCmd.bursts = (List.range r).map (j.cmd p) := by
  rw [List.flatMap_map, List.map_eq_flatMap]
  exact List.flatMap_congr fun i _ => j.cmd_bursts p i

/-- A command ends within the address space. -/
lemma cmd_space : (j.cmd p r).base.toNat + (j.cmd p r).len.toNat < 2 ^ 40 := by
  have hle := j.burst_le r
  have hsize := j.size_le
  rw [j.cmd_base, j.cmd_len]
  omega

/-! ## The beats -/

/-- A byte of a beat. -/
lemma byte_place (k i : ℕ) : (j.place p k).byte i = (p.toNat, 8 * (k % j.size) + i) := by
  have hlt := Nat.mod_lt k j.size_pos
  have hsize := j.size_le
  rw [Place.byte, place, BitVec.toNat_ofNat, Nat.mod_eq_of_lt (a := 8 * (k % j.size)) (by omega)]

/-- The beats of a command. -/
lemma beatsOf_cmd : ((j.cmd p r).beatsOf 8).map (fun b => (b.pointer, b.offset)) =
    (List.range j.beats).map fun i => j.place p (r * j.beats + i) := by
  have hlen : (j.cmd p r).len.toNat / 8 = j.beats := by
    rw [j.cmd_len]
    omega
  rw [MemengineCmd.beatsOf, MemengineCmd.beatsFrom, hlen, List.map_map]
  refine List.map_congr_left fun i hi => ?_
  have hlt := List.mem_range.mp hi
  have hmod : (r * j.beats + i) % j.size = r % j.bursts * j.beats + i := by
    have hle := j.burst_le r
    have hdm := Nat.div_add_mod r j.bursts
    have heq : r * j.beats + i = r / j.bursts * j.size + (r % j.bursts * j.beats + i) := by
      conv_lhs => rw [← hdm]
      rw [size]
      ring
    rw [heq, Nat.mul_add_mod_of_lt]
    omega
  have hbase : (j.cmd p r).base = BitVec.ofNat 40 (8 * (r % j.bursts * j.beats)) := by
    rw [← j.cmd_base p r, BitVec.ofNat_toNat, BitVec.setWidth_eq]
  simp only [Function.comp, cmd_pointer, place, hmod, Prod.mk.injEq, true_and]
  rw [hbase, Nat.mul_add, BitVec.ofNat_add, Nat.mul_comm i 8]

/-- **The beats of the first commands**, one after the other. -/
lemma flatMap_beatsOf : (((List.range r).map (j.cmd p)).flatMap fun c =>
      (c.beatsOf 8).map fun b => (b.pointer, b.offset)) = (List.range (r * j.beats)).map (j.place p) := by
  induction r with
  | zero => rw [Nat.zero_mul]; rfl
  | succ r ih =>
    rw [List.range_succ, List.map_append, List.flatMap_append, ih, List.map_singleton, List.flatMap_singleton,
      j.beatsOf_cmd, Nat.succ_mul, List.range_add, List.map_append, List.map_map]
    rfl

end CopyJob

end Xbsv
