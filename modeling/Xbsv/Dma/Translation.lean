import Mathlib.Data.List.Basic
import Mathlib.Tactic.FinCases
import Mathlib.Tactic.Positivity
import Mathlib.Tactic.Ring
import Xbsv.Dma.SGListPipeline
import Xbsv.Dma.SendFd

set_option relaxedAutoImplicit false
set_option autoImplicit false

/-!
# Scatter-gather translation, end to end

`send_fd_to_portal` encodes the list of an object as three cumulative barriers, each in pages of
its own size, and three 8-bit offsets from page numbers to list indices, computed by a wrapping
subtraction; `mkSGListMMU` decodes them with truncated shifts and a wrapping addition. With
`n₈`, `n₄` and `n₀` entries of 1 MB, 64 KB and 4 KB, in that order, the barriers are `n₈`,
`16 n₈ + n₄` and `256 n₈ + 16 n₄ + n₀`, and the offsets are `0`, `n₈ - 16 n₈` and
`n₈ + n₄ - (256 n₈ + 16 n₄)`, modulo 256. The page number of an offset inside entry `k` plus the
offset of its size is then `k` modulo 256, and `k < 256`.

## Main definitions

* `Xbsv.SGList.SgWellFormed` — the lists that the unit supports.
* `Xbsv.SGList.totalLen` — the number of bytes of a list.

## Main results

* `Xbsv.SGList.sglistLoop_eq`, `Xbsv.SGList.calls_sendFdToPortal_pages` — what a registration
  writes.
* `Xbsv.SGList.translate_sendFdToPortal` — the translation computed from the tables.
* `Xbsv.SGList.sendFdToPortal_mmu_translation` — the responses of the unit, over whole runs.
-/

namespace Xbsv.SGList

open Rules

/-! ## What a registration writes -/

/-- The page-table address of entry `i` of object `id`. -/
def pageAddr (id : BitVec 32) (i : ℕ) : BitVec 13 := ((id <<< 8) + BitVec.ofNat 32 i).setWidth 13

lemma pageAddr_toNat (id : BitVec 32) (i : ℕ) :
    (pageAddr id i).toNat = (id.toNat * 256 + i) % 8192 := by
  simp [pageAddr, BitVec.toNat_add, Nat.shiftLeft_eq]

/-- The call for entry `i`. -/
def entryCall (id : BitVec 32) (e : SgEntry) (i : ℕ) : DmaCall :=
  .sglist ((id <<< 8) + BitVec.ofNat 32 i)
    (match sizeClass e.len with
      | some j => e.addr.sshiftRight (shifts j.castSucc)
      | none => e.addr)
    (e.len.setWidth 32)

/-- The number of entries of a size. -/
def countClass (j : Fin 3) (es : List SgEntry) : ℕ := es.countP fun e => sizeClass e.len = some j

/-- The loop over the entries, without accumulators.

**Proof sketch.** Induction on the list, the index and the counts being arbitrary. -/
lemma sglistLoop_eq (id : BitVec 32) (es : List SgEntry) :
    ∀ (i : ℕ) (regions : Fin 3 → BitVec 32), sglistLoop id i regions es =
      ((es.zipIdx i).map fun x => entryCall id x.1 x.2, i + es.length,
        fun j => regions j + BitVec.ofNat 32 (countClass j es)) := by
  induction es with
  | nil =>
    intro i regions
    simp [sglistLoop, countClass]
  | cons e es ih =>
    intro i regions
    rw [sglistLoop]
    cases hc : sizeClass e.len with
    | none =>
      simp only [ih, List.zipIdx_cons, List.map_cons, List.length_cons, entryCall, hc, countClass,
        List.countP_cons]
      simp only [reduceCtorEq, decide_false, Bool.false_eq_true, if_false, Nat.add_zero]
      congr 2
      omega
    | some c =>
      simp only [ih, List.zipIdx_cons, List.map_cons, List.length_cons, entryCall, hc, countClass,
        List.countP_cons]
      refine Prod.ext rfl (Prod.ext (by simp only; omega) ?_)
      funext j
      by_cases hj : j = c
      · subst hj
        simp only [Function.update_self, decide_true, if_true]
        rw [BitVec.add_assoc]
        congr 1
        rw [BitVec.ofNat_add, BitVec.add_comm]
        rfl
      · have hne : some c ≠ some j := by simpa using Ne.symm hj
        simp [Function.update_of_ne hj, hne]

/-- The page-table address that a call writes. -/
def DmaCall.pageWrite : DmaCall → Option (BitVec 13)
  | .sglist pointer _ _ => some (pointer.setWidth 13)
  | .region .. => none

/-- Page-table entries that no call of a list addresses keep their contents.

**Proof sketch.** Induction on the list of calls. -/
lemma calls_pages_of_forall_ne {cs : List DmaCall} {a : BitVec 13}
    (h : ∀ c ∈ cs, c.pageWrite ≠ some a) (t : Tables) : (t.calls cs).pages a = t.pages a := by
  induction cs generalizing t with
  | nil => rfl
  | cons c cs ih =>
    have hstep : (t.apply c.toConfig).pages a = t.pages a := by
      cases c with
      | sglist pointer addr len =>
        have hne : a ≠ pointer.setWidth 13 := by
          intro he
          exact h _ List.mem_cons_self (by simp [DmaCall.pageWrite, he])
        simp [DmaCall.toConfig, Tables.apply, Tables.sglist, Function.update_of_ne hne]
      | region => rfl
    have hrest : ∀ c' ∈ cs, c'.pageWrite ≠ some a := fun c' hc' => h c' (List.mem_cons_of_mem _ hc')
    exact (ih hrest (t.apply c.toConfig)).trans hstep

lemma calls_append (t : Tables) (cs cs' : List DmaCall) :
    t.calls (cs ++ cs') = (t.calls cs).calls cs' := by
  simp [Tables.calls, List.foldl_append]

/-- The calls of a registration, written out. -/
lemma sendFdToPortal_eq (id : BitVec 32) (es : List SgEntry) :
    sendFdToPortal id es = ((es.zipIdx 0).map fun x => entryCall id x.1 x.2) ++
      [.sglist ((id <<< 8) + BitVec.ofNat 32 es.length) 0 0,
        .region id (borderVals (fun j => BitVec.ofNat 32 (countClass j es)) 0)
          (borderVals (fun j => BitVec.ofNat 32 (countClass j es)) 1)
          (borderVals (fun j => BitVec.ofNat 32 (countClass j es)) 2)] := by
  simp [sendFdToPortal, sglistLoop_eq]

/-- A registration writes the page-table entries `0` to `es.length` of its window, and none
other. -/
lemma pageWrite_sendFdToPortal {id : BitVec 32} {es : List SgEntry} {c : DmaCall} {a : BitVec 13}
    (hc : c ∈ sendFdToPortal id es) (ha : c.pageWrite = some a) :
    ∃ i ≤ es.length, a = pageAddr id i := by
  rw [sendFdToPortal_eq, List.mem_append] at hc
  rcases hc with hc | hc
  · rw [List.mem_map] at hc
    obtain ⟨⟨e, i⟩, hmem, rfl⟩ := hc
    have hi := List.snd_lt_of_mem_zipIdx hmem
    simp only [entryCall, DmaCall.pageWrite, Option.some.injEq] at ha
    refine ⟨i, ?_, ha.symm⟩
    simp only at hi
    omega
  · rw [List.mem_cons, List.mem_singleton] at hc
    rcases hc with rfl | rfl
    · simp only [DmaCall.pageWrite, Option.some.injEq] at ha
      exact ⟨es.length, le_rfl, ha.symm⟩
    · simp [DmaCall.pageWrite] at ha

/-- The page that the unit stores for an entry. -/
def entryPage (e : SgEntry) : Page :=
  match sizeClass e.len with
  | some j => ((e.addr.sshiftRight (shifts j.castSucc)).setWidth 40).setWidth 28
  | none => (e.addr.setWidth 40).setWidth 28

/-- After the registration of a list of at most 255 entries, page-table entry `k` of the window
holds entry `k` of the list.

**Proof sketch.** Split the calls at the call for entry `k`. It writes the address, and the calls
after it have larger indices, at most 255, so they write other addresses. -/
lemma calls_sendFdToPortal_pages (id : BitVec 32) {es pre post : List SgEntry} {e : SgEntry}
    (hes : es = pre ++ e :: post) (hlen : es.length ≤ 255) (t : Tables) :
    (t.calls (sendFdToPortal id es)).pages (pageAddr id pre.length) = entryPage e := by
  have hk : pre.length < es.length := by simp [hes]
  have hsplit : ∃ later, sendFdToPortal id es =
      ((pre.zipIdx 0).map fun x => entryCall id x.1 x.2) ++ entryCall id e pre.length :: later ∧
        ∀ c ∈ later, ∀ a, c.pageWrite = some a →
          ∃ i, pre.length < i ∧ i ≤ es.length ∧ a = pageAddr id i := by
    refine ⟨((post.zipIdx (pre.length + 1)).map fun x => entryCall id x.1 x.2) ++
      [.sglist ((id <<< 8) + BitVec.ofNat 32 es.length) 0 0,
        .region id (borderVals (fun j => BitVec.ofNat 32 (countClass j es)) 0)
          (borderVals (fun j => BitVec.ofNat 32 (countClass j es)) 1)
          (borderVals (fun j => BitVec.ofNat 32 (countClass j es)) 2)], ?_, ?_⟩
    · rw [sendFdToPortal_eq]
      conv_lhs => enter [1]; rw [hes]
      simp [List.zipIdx_append]
    · intro c hc a ha
      rw [List.mem_append] at hc
      rcases hc with hc | hc
      · rw [List.mem_map] at hc
        obtain ⟨⟨e', i⟩, hmem, rfl⟩ := hc
        have hlt := List.snd_lt_of_mem_zipIdx hmem
        have hge := List.le_snd_of_mem_zipIdx hmem
        simp only [entryCall, DmaCall.pageWrite, Option.some.injEq] at ha
        simp only at hlt hge
        refine ⟨i, by omega, ?_, ha.symm⟩
        rw [hes]
        simp
        omega
      · rw [List.mem_cons, List.mem_singleton] at hc
        rcases hc with rfl | rfl
        · simp only [DmaCall.pageWrite, Option.some.injEq] at ha
          exact ⟨es.length, hk, le_rfl, ha.symm⟩
        · simp [DmaCall.pageWrite] at ha
  obtain ⟨later, heq, hlater⟩ := hsplit
  rw [heq, calls_append]
  change (((t.calls _).apply (entryCall id e pre.length).toConfig).calls later).pages _ = _
  rw [calls_pages_of_forall_ne]
  · simp only [entryCall, DmaCall.toConfig, Tables.apply, Tables.sglist, entryPage]
    rw [show ((id <<< 8) + BitVec.ofNat 32 pre.length).setWidth 13 = pageAddr id pre.length from rfl,
      Function.update_self]
    cases sizeClass e.len <;> rfl
  · intro c hc ha
    obtain ⟨i, h1, h2, h3⟩ := hlater c hc _ ha
    have := congrArg BitVec.toNat h3
    rw [pageAddr_toNat, pageAddr_toNat] at this
    omega

/-- The region rows after a registration. -/
lemma calls_sendFdToPortal_regions (id : BitVec 32) (es : List SgEntry) (t : Tables) :
    let vals := borderVals fun j => BitVec.ofNat 32 (countClass j es)
    (t.calls (sendFdToPortal id es)).reg8 (id.setWidth 5) = Region.unpack ((vals 0).setWidth 36) ∧
    (t.calls (sendFdToPortal id es)).reg4 (id.setWidth 5) = Region.unpack ((vals 1).setWidth 36) ∧
    (t.calls (sendFdToPortal id es)).reg0 (id.setWidth 5) = Region.unpack ((vals 2).setWidth 36) := by
  simp only
  rw [sendFdToPortal_eq, calls_append]
  simp [Tables.calls, DmaCall.toConfig, Tables.apply, Tables.region, Function.update_self]

/-! ## The barriers and index offsets -/

/-- `unpack` undoes the packing of a border and an index offset. -/
lemma Region.unpack_or (x : BitVec 64) (y : BitVec 8) :
    Region.unpack ((x <<< 8 ||| y.setWidth 64).setWidth 36) = ⟨x.setWidth 28, y⟩ := by
  unfold Region.unpack
  congr 1
  · apply BitVec.eq_of_getLsbD_eq
    intro i hi
    simp [hi, show 8 + i < 36 by omega]
  · apply BitVec.eq_of_getLsbD_eq
    intro i hi
    simp [hi, show i < 36 by omega]

/-- Concatenation as arithmetic. -/
lemma toNat_append_eq {m n : ℕ} (x : BitVec m) (y : BitVec n) :
    (x ++ y).toNat = x.toNat * 2 ^ n + y.toNat := by
  rw [BitVec.toNat_append, Nat.shiftLeft_eq, Nat.mul_comm, Nat.two_pow_add_eq_or_of_lt y.isLt]

section Borders

variable {n8 n4 n0 : ℕ} (h : n8 + n4 + n0 ≤ 255) (regions : Fin 3 → BitVec 32)
  (h8 : regions 0 = BitVec.ofNat 32 n8) (h4 : regions 1 = BitVec.ofNat 32 n4)
  (h0 : regions 2 = BitVec.ofNat 32 n0)

/-- `border` after each iteration. -/
def borderAt (regions : Fin 3 → BitVec 32) : Fin 3 → BitVec 64 :=
  ![(regions 0).setWidth 64,
    (regions 0).setWidth 64 <<< 4 + (regions 1).setWidth 64,
    ((regions 0).setWidth 64 <<< 4 + (regions 1).setWidth 64) <<< 4 + (regions 2).setWidth 64]

/-- `idxOffset` in each iteration. -/
def idxOffsetAt (regions : Fin 3 → BitVec 32) : Fin 3 → BitVec 8 :=
  ![0,
    (((regions 0).setWidth 8).setWidth 64 - (regions 0).setWidth 64 <<< 4).setWidth 8,
    (((((regions 0).setWidth 8).setWidth 32 + regions 1).setWidth 8).setWidth 64 -
      ((regions 0).setWidth 64 <<< 4 + (regions 1).setWidth 64) <<< 4).setWidth 8]

/-- The loop that computes the barriers, unrolled. -/
lemma unpack_borderVals (regions : Fin 3 → BitVec 32) (i : Fin 3) :
    Region.unpack ((borderVals regions i).setWidth 36) =
      ⟨(borderAt regions i).setWidth 28, idxOffsetAt regions i⟩ := by
  have hv : borderVals regions i = borderAt regions i <<< 8 ||| (idxOffsetAt regions i).setWidth 64 := by
    fin_cases i
    all_goals simp [borderVals, borderStep, borderAt, idxOffsetAt, shifts, Function.update]
  rw [hv, Region.unpack_or]

include h h8 in
/-- The 1 MB region: barrier `n₈`, no index offset. -/
lemma border_zero :
    ((borderAt regions 0).setWidth 28).toNat = n8 ∧ (idxOffsetAt regions 0).toNat = 0 := by
  simp only [borderAt, idxOffsetAt, h8]
  simp
  omega

include h h8 h4 in
/-- The 64 KB region: barrier `16 n₈ + n₄`, index offset `n₈ - 16 n₈`. -/
lemma border_one :
    ((borderAt regions 1).setWidth 28).toNat = 16 * n8 + n4 ∧
      (idxOffsetAt regions 1).toNat = 241 * n8 % 256 := by
  simp only [borderAt, idxOffsetAt, Matrix.cons_val_one, Matrix.cons_val_zero, h8, h4]
  simp only [BitVec.toNat_setWidth, BitVec.toNat_add, BitVec.toNat_sub, BitVec.toNat_shiftLeft,
    BitVec.toNat_ofNat, Nat.shiftLeft_eq]
  omega

include h h8 h4 h0 in
/-- The 4 KB region: barrier `256 n₈ + 16 n₄ + n₀`, index offset
`n₈ + n₄ - (256 n₈ + 16 n₄)`. -/
lemma border_two :
    ((borderAt regions 2).setWidth 28).toNat = 256 * n8 + 16 * n4 + n0 ∧
      (idxOffsetAt regions 2).toNat = (n8 + 241 * n4) % 256 := by
  simp only [borderAt, idxOffsetAt, Matrix.cons_val_two, Matrix.tail_cons, Matrix.head_cons, h8, h4,
    h0]
  simp only [BitVec.toNat_setWidth, BitVec.toNat_add, BitVec.toNat_sub, BitVec.toNat_shiftLeft,
    BitVec.toNat_ofNat, Nat.shiftLeft_eq]
  omega

end Borders

/-! ## Lists that the unit supports -/

/-- The number of bytes of a list. -/
def totalLen (es : List SgEntry) : ℕ := (es.map fun e => e.len.toNat).sum

/-- A list of at most 255 entries of 1 MB, 64 KB or 4 KB, in non-increasing order, aligned to
their length, and with physical ranges that fit in the address width. -/
structure SgWellFormed (addrWidth : ℕ) (es : List SgEntry) : Prop where
  length_le : es.length ≤ 255
  size : ∀ e ∈ es, e.len = 0x100000#64 ∨ e.len = 0x10000#64 ∨ e.len = 0x1000#64
  sorted : es.Pairwise fun a b => b.len.toNat ≤ a.len.toNat
  aligned : ∀ e ∈ es, e.len.toNat ∣ e.addr.toNat
  fits : ∀ e ∈ es, e.addr.toNat + e.len.toNat ≤ 2 ^ addrWidth

@[simp] lemma sizeClass_1M : sizeClass 0x100000#64 = some 0 := by decide

@[simp] lemma sizeClass_64K : sizeClass 0x10000#64 = some 1 := by decide

@[simp] lemma sizeClass_4K : sizeClass 0x1000#64 = some 2 := by decide

/-- Length and size of a list, from the number of entries of each size.

**Proof sketch.** Induction on the list. -/
lemma length_totalLen_eq {es : List SgEntry}
    (h : ∀ e ∈ es, e.len = 0x100000#64 ∨ e.len = 0x10000#64 ∨ e.len = 0x1000#64) :
    es.length = countClass 0 es + countClass 1 es + countClass 2 es ∧
      totalLen es = 2 ^ 20 * countClass 0 es + 2 ^ 16 * countClass 1 es +
        2 ^ 12 * countClass 2 es := by
  induction es with
  | nil => simp [countClass, totalLen]
  | cons e es ih =>
    obtain ⟨ih1, ih2⟩ := ih fun e' he' => h e' (List.mem_cons_of_mem _ he')
    simp only [countClass, totalLen] at ih1 ih2
    simp only [countClass, totalLen, List.countP_cons, List.map_cons, List.sum_cons,
      List.length_cons]
    rcases h e List.mem_cons_self with he | he | he <;> rw [he] <;> simp <;> omega

/-- A size that no entry has is counted zero times. -/
lemma countClass_eq_zero {j : Fin 3} {es : List SgEntry} (h : ∀ e ∈ es, sizeClass e.len ≠ some j) :
    countClass j es = 0 := by
  unfold countClass
  rw [List.countP_eq_zero]
  intro e he
  simpa using h e he

/-- Where an entry of a sorted list stands: entries of smaller sizes come after it and entries of
larger sizes before it. `j` is the size class of the entry. -/
lemma countClass_split {addrWidth : ℕ} {es pre post : List SgEntry} {e : SgEntry}
    (hw : SgWellFormed addrWidth es) (hes : es = pre ++ e :: post) {j : Fin 3}
    (hj : sizeClass e.len = some j) :
    (∀ i, j < i → countClass i pre = 0) ∧ (∀ i, i < j → countClass i es = countClass i pre) ∧
      countClass j pre < countClass j es := by
  have hs := hw.sorted
  rw [hes, List.pairwise_append] at hs
  obtain ⟨-, hpost, hpre⟩ := hs
  rw [List.pairwise_cons] at hpost
  have hsz : ∀ x, x ∈ pre ∨ x = e ∨ x ∈ post → x ∈ es := by
    intro x hx
    simpa [hes] using hx
  -- the length of an entry decides its class
  have hcls : ∀ x ∈ es, ∀ i, sizeClass x.len = some i → x.len.toNat = 2 ^ shifts i.castSucc := by
    intro x hx i hi
    rcases hw.size x hx with h | h | h <;> rw [h] at hi ⊢ <;>
      simp only [sizeClass_1M, sizeClass_64K, sizeClass_4K, Option.some.injEq] at hi <;>
      subst hi <;> rfl
  have hmono : ∀ i i' : Fin 3, i < i' → 2 ^ shifts i'.castSucc < 2 ^ shifts i.castSucc := by decide
  have hej := hcls e (hsz e (.inr (.inl rfl))) j hj
  refine ⟨fun i hi => countClass_eq_zero ?_, fun i hi => ?_, ?_⟩
  · intro x hx hxi
    have h1 := hpre x hx e List.mem_cons_self
    rw [hej, hcls x (hsz x (.inl hx)) i hxi] at h1
    exact absurd (hmono j i hi) (by omega)
  · have h1 : countClass i post = 0 := by
      refine countClass_eq_zero fun x hx hxi => ?_
      have h1 := hpost.1 x hx
      rw [hej, hcls x (hsz x (.inr (.inr hx))) i hxi] at h1
      exact absurd (hmono i j hi) (by omega)
    have hne : ¬ sizeClass e.len = some i := by
      rw [hj]
      simpa using (ne_of_lt hi).symm
    simp only [countClass] at h1
    simp [hes, countClass, List.countP_append, h1, hne]
  · simp only [hes, countClass, List.countP_append, List.countP_cons, hj]
    simp

/-! ## The translation of one offset -/

section PhysAddr

variable {addrWidth : ℕ} (undef : Page → Offset → BitVec 40) (page : Page) (v : BitVec 20)

lemma physAddr_1M : (physAddr undef page ⟨3, v⟩ : BitVec addrWidth).toNat =
    (page.toNat % 2 ^ 20 * 2 ^ 20 + v.toNat) % 2 ^ addrWidth := by
  simp only [physAddr]
  rw [if_neg (by decide), if_neg (by decide), if_pos trivial, BitVec.toNat_setWidth, toNat_append_eq,
    BitVec.toNat_setWidth]

lemma physAddr_64K : (physAddr undef page ⟨2, v⟩ : BitVec addrWidth).toNat =
    (page.toNat % 2 ^ 24 * 2 ^ 16 + v.toNat % 2 ^ 16) % 2 ^ addrWidth := by
  simp only [physAddr]
  rw [if_neg (by decide), if_pos trivial, BitVec.toNat_setWidth, toNat_append_eq,
    BitVec.toNat_setWidth, BitVec.toNat_setWidth]

lemma physAddr_4K : (physAddr undef page ⟨1, v⟩ : BitVec addrWidth).toNat =
    (page.toNat * 2 ^ 12 + v.toNat % 2 ^ 12) % 2 ^ addrWidth := by
  simp only [physAddr]
  rw [if_pos trivial, BitVec.toNat_setWidth, toNat_append_eq, BitVec.toNat_setWidth]

end PhysAddr

/-- The page stored for an entry of a supported size. -/
lemma entryPage_toNat {e : SgEntry} {j : Fin 3} (hj : sizeClass e.len = some j)
    (hfit : e.addr.toNat < 2 ^ 40) :
    (entryPage e).toNat = e.addr.toNat / 2 ^ shifts j.castSucc := by
  have hmsb : e.addr.msb = false := by
    rw [BitVec.msb_eq_false_iff_two_mul_lt]
    omega
  have hj12 : 12 ≤ shifts j.castSucc := (by decide : ∀ j : Fin 3, 12 ≤ shifts j.castSucc) j
  have hle : e.addr.toNat / 2 ^ shifts j.castSucc < 2 ^ 28 := by
    rw [Nat.div_lt_iff_lt_mul (by positivity)]
    calc e.addr.toNat < 2 ^ 28 * 2 ^ 12 := by omega
      _ ≤ 2 ^ 28 * 2 ^ shifts j.castSucc := Nat.mul_le_mul_left _ (Nat.pow_le_pow_right (by omega) hj12)
  simp only [entryPage, hj, BitVec.toNat_setWidth,
    BitVec.sshiftRight_eq_of_msb_false hmsb, BitVec.toNat_ushiftRight, Nat.shiftRight_eq_div_pow]
  generalize e.addr.toNat / 2 ^ shifts j.castSucc = q at hle
  omega

section Registered

variable {addrWidth : ℕ} (undef : Page → Offset → BitVec 40) (t : Tables) (id : BitVec 32)
  {es : List SgEntry}

/-- The index offsets after a registration. -/
lemma idxOffsets_sendFdToPortal (es : List SgEntry) :
    (t.calls (sendFdToPortal id es)).idxOffsets (id.setWidth 5) =
      let regions : Fin 3 → BitVec 32 := fun j => BitVec.ofNat 32 (countClass j es)
      (idxOffsetAt regions 0, idxOffsetAt regions 1, idxOffsetAt regions 2) := by
  obtain ⟨h8, h4, h0⟩ := calls_sendFdToPortal_regions id es t
  simp only [Tables.idxOffsets, h8, h4, h0, unpack_borderVals]

/-- The region conditions after a registration: is the page number below the barrier? -/
lemma conds_sendFdToPortal (hw : SgWellFormed addrWidth es) (off : BitVec 40) :
    (t.calls (sendFdToPortal id es)).conds ⟨id.setWidth 5, off⟩ =
      (decide (off.toNat / 2 ^ 20 < countClass 0 es),
        decide (off.toNat / 2 ^ 16 < 16 * countClass 0 es + countClass 1 es),
        decide (off.toNat / 2 ^ 12 <
          256 * countClass 0 es + 16 * countClass 1 es + countClass 2 es)) := by
  obtain ⟨h8, h4, h0⟩ := calls_sendFdToPortal_regions id es t
  have hn : countClass 0 es + countClass 1 es + countClass 2 es ≤ 255 := by
    have h1 := (length_totalLen_eq hw.size).1
    have h2 := hw.length_le
    omega
  set regions : Fin 3 → BitVec 32 := fun j => BitVec.ofNat 32 (countClass j es)
  obtain ⟨b8, -⟩ := border_zero hn regions rfl
  obtain ⟨b4, -⟩ := border_one hn regions rfl rfl
  obtain ⟨b0, -⟩ := border_two hn regions rfl rfl rfl
  have hoff := off.isLt
  simp only [Tables.conds, regionConds, h8, h4, h0, unpack_borderVals, Prod.mk.injEq,
    decide_eq_decide, BitVec.lt_def, BitVec.toNat_setWidth, BitVec.toNat_ushiftRight,
    Nat.shiftRight_eq_div_pow] at b8 b4 b0 ⊢
  refine ⟨?_, ?_, ?_⟩
  · rw [b8]
    omega
  · rw [b4]
    omega
  · rw [b0]
    omega

/-- **Offsets past the end.** No region condition holds, and the lookup reports
`DmaErrorBadAddrTrans` for the object. -/
lemma lookupError_sendFdToPortal (hw : SgWellFormed addrWidth es) {off : BitVec 40}
    (hoff : totalLen es ≤ off.toNat) :
    (t.calls (sendFdToPortal id es)).conds ⟨id.setWidth 5, off⟩ = (false, false, false) ∧
      lookupError (t.calls (sendFdToPortal id es)) ⟨id.setWidth 5, off⟩ =
        some ⟨.badAddrTrans, (id.setWidth 5 : SGListId).setWidth 32⟩ := by
  have htot := (length_totalLen_eq hw.size).2
  have hc : (t.calls (sendFdToPortal id es)).conds ⟨id.setWidth 5, off⟩ =
      (false, false, false) := by
    rw [conds_sendFdToPortal t id hw]
    simp only [Prod.mk.injEq, decide_eq_false_iff_not]
    omega
  refine ⟨hc, ?_⟩
  simp [lookupError, Tables.select, hc, selectPage, stage4Error]

/-- **The translation of an offset inside an entry** is the base of the entry plus the distance
from the start of the entry, and its lookup reports no error.

**Proof sketch.** By the size of the entry. The entries before it have at least its size, so
their total length fixes the page number: the condition of the entry's size is the first that
holds, and the page number plus the index offset is the index of the entry, modulo 256. The page
found there is the one written for the entry; concatenating it with the low bits of the offset
is an addition because the entry is aligned. -/
theorem translate_sendFdToPortal (haw : addrWidth ≤ 40) (hid : id.toNat < 32)
    (hw : SgWellFormed addrWidth es) {pre post : List SgEntry} {e : SgEntry}
    (hes : es = pre ++ e :: post) {off : BitVec 40} (hlo : totalLen pre ≤ off.toNat)
    (hhi : off.toNat < totalLen pre + e.len.toNat) :
    (translate undef (t.calls (sendFdToPortal id es)) ⟨id.setWidth 5, off⟩ :
        BitVec addrWidth).toNat = e.addr.toNat + (off.toNat - totalLen pre) ∧
      lookupError (t.calls (sendFdToPortal id es)) ⟨id.setWidth 5, off⟩ = none := by
  have hmem : e ∈ es := by simp [hes]
  have hn : countClass 0 es + countClass 1 es + countClass 2 es ≤ 255 := by
    have h1 := (length_totalLen_eq hw.size).1
    have h2 := hw.length_le
    omega
  have hpre := length_totalLen_eq fun x (hx : x ∈ pre) => hw.size x (by simp [hes, hx])
  have hlen : pre.length < es.length := by simp [hes]
  have hpage := calls_sendFdToPortal_pages id hes hw.length_le t
  have hconds := conds_sendFdToPortal t id hw off
  have hidx := idxOffsets_sendFdToPortal t id es
  set regions : Fin 3 → BitVec 32 := fun j => BitVec.ofNat 32 (countClass j es)
  obtain ⟨-, i8⟩ := border_zero hn regions rfl
  obtain ⟨-, i4⟩ := border_one hn regions rfl rfl
  obtain ⟨-, i0⟩ := border_two hn regions rfl rfl rfl
  have hfit := hw.fits e hmem
  have halign := hw.aligned e hmem
  have h40 : 2 ^ addrWidth ≤ 2 ^ 40 := Nat.pow_le_pow_right (by omega) haw
  have hoff := off.isLt
  -- a page number and an index offset that add up to the index of the entry find its page
  have hfind : ∀ pbase idx : BitVec 8, (pbase.toNat + idx.toNat) % 256 = pre.length →
      (t.calls (sendFdToPortal id es)).pages (pageIndex (id.setWidth 5) pbase idx) = entryPage e := by
    intro pbase idx hp
    rw [← hpage]
    congr 1
    apply BitVec.eq_of_toNat_eq
    rw [pageIndex, toNat_append_eq, pageAddr_toNat, BitVec.toNat_add, BitVec.toNat_setWidth]
    have := hw.length_le
    omega
  have hcases : sizeClass e.len = some 0 ∧ e.len.toNat = 2 ^ 20 ∨
      sizeClass e.len = some 1 ∧ e.len.toNat = 2 ^ 16 ∨
      sizeClass e.len = some 2 ∧ e.len.toNat = 2 ^ 12 := by
    rcases hw.size e hmem with h | h | h <;> rw [h] <;> decide
  simp only [translate, lookupError, Tables.select, hconds, hidx]
  rcases hcases with ⟨hc, hl⟩ | ⟨hc, hl⟩ | ⟨hc, hl⟩
  · obtain ⟨hafter, -, hcount⟩ := countClass_split hw hes hc
    have h1 := hafter 1 (by decide)
    have h2 := hafter 2 (by decide)
    have hP := entryPage_toNat hc (by omega)
    have hcond8 : off.toNat / 2 ^ 20 < countClass 0 es := by omega
    simp only [selectPage, hcond8, decide_true, if_true]
    rw [hfind _ _ (by rw [i8, BitVec.toNat_setWidth, BitVec.toNat_ushiftRight,
      Nat.shiftRight_eq_div_pow]; omega), physAddr_1M, hP]
    refine ⟨?_, by simp [stage4Error]⟩
    simp only [shifts, Fin.castSucc_zero, Matrix.cons_val_zero, BitVec.toNat_setWidth]
    rw [hl] at halign hfit hhi
    rw [Nat.mod_eq_of_lt (by omega)]
    omega
  · obtain ⟨hafter, hbefore, hcount⟩ := countClass_split hw hes hc
    have h0 := hbefore 0 (by decide)
    have h2 := hafter 2 (by decide)
    have hP := entryPage_toNat hc (by omega)
    have hcond8 : ¬ off.toNat / 2 ^ 20 < countClass 0 es := by omega
    have hcond4 : off.toNat / 2 ^ 16 < 16 * countClass 0 es + countClass 1 es := by omega
    simp only [selectPage, hcond8, hcond4, decide_true, decide_false, if_true, Bool.false_eq_true,
      if_false]
    rw [hfind _ _ (by rw [i4, BitVec.toNat_setWidth, BitVec.toNat_ushiftRight,
      Nat.shiftRight_eq_div_pow]; omega), physAddr_64K, hP]
    refine ⟨?_, by simp [stage4Error]⟩
    simp only [shifts, Fin.castSucc_one, Matrix.cons_val_one, Matrix.cons_val_zero,
      BitVec.toNat_setWidth]
    rw [hl] at halign hfit hhi
    rw [Nat.mod_eq_of_lt (by omega)]
    omega
  · obtain ⟨-, hbefore, hcount⟩ := countClass_split hw hes hc
    have h0 := hbefore 0 (by decide)
    have h1 := hbefore 1 (by decide)
    have hP := entryPage_toNat hc (by omega)
    have hcond8 : ¬ off.toNat / 2 ^ 20 < countClass 0 es := by omega
    have hcond4 : ¬ off.toNat / 2 ^ 16 < 16 * countClass 0 es + countClass 1 es := by omega
    have hcond0 : off.toNat / 2 ^ 12 <
        256 * countClass 0 es + 16 * countClass 1 es + countClass 2 es := by omega
    simp only [selectPage, hcond8, hcond4, hcond0, decide_true, decide_false, if_true,
      Bool.false_eq_true, if_false]
    rw [hfind _ _ (by rw [i0, BitVec.toNat_setWidth, BitVec.toNat_ushiftRight,
      Nat.shiftRight_eq_div_pow]; omega), physAddr_4K, hP]
    refine ⟨?_, by simp [stage4Error]⟩
    simp only [shifts, BitVec.toNat_setWidth]
    rw [hl] at halign hfit hhi
    rw [Nat.mod_eq_of_lt (by simp; omega)]
    simp
    omega

end Registered

/-- Every offset below the total length lies in an entry.

**Proof sketch.** Induction on the list: the offset is in the first entry, or its distance from
the end of that entry is an offset of the remaining list. -/
lemma exists_entry (es : List SgEntry) :
    ∀ off < totalLen es, ∃ pre e post, es = pre ++ e :: post ∧ totalLen pre ≤ off ∧
      off < totalLen pre + e.len.toNat := by
  induction es with
  | nil =>
    intro off h
    simp [totalLen] at h
  | cons e es ih =>
    intro off h
    by_cases hlt : off < e.len.toNat
    · exact ⟨[], e, es, rfl, by simp [totalLen], by simpa [totalLen] using hlt⟩
    · have htot : totalLen (e :: es) = e.len.toNat + totalLen es := rfl
      obtain ⟨pre, e', post, rfl, h1, h2⟩ := ih (off - e.len.toNat) (by omega)
      have hpre : totalLen (e :: pre) = e.len.toNat + totalLen pre := rfl
      exact ⟨e :: pre, e', post, rfl, by omega, by omega⟩

/-! ## Whole runs -/

/-- **End-to-end translation.** Let the unit have executed, from any reachable state and
interleaved with any traffic on the address servers, the calls that `send_fd_to_portal` issues
for object `id` and list `es`, and let it run on without configuration calls. Take the `k`-th
request made on server `i` since, for offset `off` of the object.

* An offset below the total length lies in an entry; the response to the request is the base of
  that entry plus the distance from its start, and it can always be obtained.
* For an offset at or above the total length no region condition holds, and its lookup enqueues a
  `DmaErrorBadAddrTrans` for the object, which can always be made to happen.

**Proof sketch.** The tables are those of the calls (`mmu_run_tables`), the server answers with
the translation against them (`mmu_answer`), and that translation is
`translate_sendFdToPortal` or `lookupError_sendFdToPortal`. -/
theorem sendFdToPortal_mmu_translation {addrWidth : ℕ} (haw : addrWidth ≤ 40)
    (undef : Page → Offset → BitVec 40) (t₀ : Tables) {id : BitVec 32} (hid : id.toNat < 32)
    {es : List SgEntry} (hw : SgWellFormed addrWidth es) {s₀ s₁ s₂ : State addrWidth}
    {tr₀ tr₁ tr₂ : List (Event addrWidth)}
    (h₀ : (mmu undef).Reaches (State.reset addrWidth t₀) tr₀ s₀)
    (h₁ : (mmu undef).Reaches s₀ tr₁ s₁)
    (hcfg : configCalls tr₁ = (sendFdToPortal id es).map DmaCall.toConfig)
    (h₂ : (mmu undef).Reaches s₁ tr₂ s₂) (hquiet : configCalls tr₂ = []) (i : Fin 2) {k : ℕ}
    {off : BitVec 40} (hk : (puts i tr₂)[k]? = some ⟨id.setWidth 5, off⟩) :
    let n := ((s₁.port i).owed undef s₁.tables).length + k
    let m := ((s₁.port i).owedErrors s₁.tables).length + k
    (off.toNat < totalLen es → ∃ pre e post, es = pre ++ e :: post ∧ totalLen pre ≤ off.toNat ∧
      off.toNat < totalLen pre + e.len.toNat ∧
      (∀ a, (gets i tr₂)[n]? = some a → a.toNat = e.addr.toNat + (off.toNat - totalLen pre)) ∧
      ∃ tr₃ s₃ a, (mmu undef).Reaches s₂ tr₃ s₃ ∧ configCalls tr₃ = [] ∧ puts i tr₃ = [] ∧
        (gets i (tr₂ ++ tr₃))[n]? = some a ∧
        a.toNat = e.addr.toNat + (off.toNat - totalLen pre)) ∧
    (totalLen es ≤ off.toNat →
      s₁.tables.conds ⟨id.setWidth 5, off⟩ = (false, false, false) ∧
      (∀ x, (lookups i tr₂)[m]? = some x → x = some ⟨.badAddrTrans, id⟩) ∧
      ∃ tr₃ s₃, (mmu undef).Reaches s₂ tr₃ s₃ ∧ configCalls tr₃ = [] ∧ puts i tr₃ = [] ∧
        (lookups i (tr₂ ++ tr₃))[m]? = some (some ⟨.badAddrTrans, id⟩)) := by
  intro n m
  have ht : s₁.tables = s₀.tables.calls (sendFdToPortal id es) := by
    rw [mmu_run_tables undef h₁, hcfg]
    rfl
  have hsync : (s₁.port i).Synced :=
    mmu_run_synced undef (h₀.trans h₁) i Port.idle_synced
  obtain ⟨hgot, hlook, tr₃, s₃, h₃, hc₃, hp₃, hget, hlk⟩ := mmu_answer undef h₂ i hsync hquiet hk
  refine ⟨fun hoff => ?_, fun hoff => ?_⟩
  · obtain ⟨pre, e, post, hes, hlo, hhi⟩ := exists_entry es off.toNat hoff
    have htr := (translate_sendFdToPortal undef s₀.tables id haw hid hw hes hlo hhi).1
    rw [← ht] at htr
    refine ⟨pre, e, post, hes, hlo, hhi, fun a ha => ?_, tr₃, s₃, _, h₃, hc₃, hp₃, hget, htr⟩
    rw [hgot a ha]
    exact htr
  · obtain ⟨hconds, herr⟩ := lookupError_sendFdToPortal s₀.tables id hw hoff
    rw [← ht] at hconds herr
    have hext : ((id.setWidth 5 : SGListId).setWidth 32) = id := by
      apply BitVec.eq_of_toNat_eq
      simp only [BitVec.toNat_setWidth]
      omega
    rw [hext] at herr
    refine ⟨hconds, fun x hx => ?_, tr₃, s₃, h₃, hc₃, hp₃, ?_⟩
    · rw [hlook x hx, herr]
    · rw [← herr]
      exact hlk

/-- A list with one entry of each size, for the runs on concrete inputs. -/
def oneOfEach : List SgEntry :=
  [⟨0x7f00000, 0x100000⟩, ⟨0x50000, 0x10000⟩, ⟨0x3000, 0x1000⟩]

/-- Cleared tables. -/
def Tables.zero : Tables := ⟨fun _ => ⟨0, 0⟩, fun _ => ⟨0, 0⟩, fun _ => ⟨0, 0⟩, fun _ => 0⟩

/-- The unit after reset and the registration of `oneOfEach` as object 5. -/
def registeredExample : State 40 × List (Event 40) :=
  (mmu fun _ _ => 0).run (State.reset 40 .zero)
    ((sendFdToPortal 5 oneOfEach).map fun c => .config c.toConfig)

/-- The same unit after one more request, for an offset in the third entry, on server 1. -/
def requestedExample : State 40 × List (Event 40) :=
  (mmu fun _ _ => 0).run registeredExample.1 [.put 1 ⟨5, 0x110123⟩]

/-- The end-to-end theorem applies to a request for an offset in the third entry of
`oneOfEach`. -/
theorem sendFdToPortal_mmu_translation_oneOfEach :
    configCalls registeredExample.2 = (sendFdToPortal 5 oneOfEach).map DmaCall.toConfig ∧
    puts 1 requestedExample.2 = [⟨5, 0x110123⟩] ∧
    ∃ pre e post, oneOfEach = pre ++ e :: post ∧ ∃ tr₃ s₃ a,
      (mmu fun _ _ => 0).Reaches requestedExample.1 tr₃ s₃ ∧
      (gets 1 (requestedExample.2 ++ tr₃))[((registeredExample.1.port 1).owed (fun _ _ => 0)
        registeredExample.1.tables).length + 0]? = some a ∧
      a.toNat = e.addr.toNat + ((0x110123 : BitVec 40).toNat - totalLen pre) := by
  have hw : SgWellFormed 40 oneOfEach := by
    constructor <;> decide +kernel
  have hcfg : configCalls registeredExample.2 =
      (sendFdToPortal 5 oneOfEach).map DmaCall.toConfig := by decide +kernel
  have hput : puts 1 requestedExample.2 = [⟨5, 0x110123⟩] := by decide +kernel
  have hk : (puts 1 requestedExample.2)[0]? =
      some ⟨(5 : BitVec 32).setWidth 5, 0x110123⟩ := by decide +kernel
  obtain ⟨pre, e, post, hes, -, -, -, tr₃, s₃, a, h₃, -, -, hget, ha⟩ :=
    (sendFdToPortal_mmu_translation le_rfl (fun _ _ => 0) .zero (by decide) hw .refl
      (RuleSystem.reaches_run _ _) hcfg (RuleSystem.reaches_run _ _) (by decide +kernel) 1 hk).1
      (by decide +kernel)
  exact ⟨hcfg, hput, pre, e, post, hes, tr₃, s₃, a, h₃, hget, ha⟩

end Xbsv.SGList
