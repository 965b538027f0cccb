import Xbsv.Portalmem.Allocator
import Xbsv.Resources.Runs

set_option relaxedAutoImplicit false
set_option autoImplicit false

/-!
# The user mapping of `portalmem.c`

`pa_dma_buf_mmap` maps the scattered pages of a buffer one after the other into the addresses of a `vm_area_struct`.
What has been mapped is a list of pairs of a virtual page and a page frame.

## Main definitions

* `Xbsv.Portalmem.SgTable` — a scatter list of whole pages.
* `Xbsv.Portalmem.Vma` — the addresses that are mapped.
* `Xbsv.Portalmem.paDmaBufMmap` — the function.

## Main results

* `Xbsv.Portalmem.exists_sgTable` — the allocator makes such a scatter list.
* `Xbsv.Portalmem.paDmaBufMmap_eq` — the pages that are mapped.
* `Xbsv.Portalmem.mmap_pages` — which page stands at which address.
-/

namespace Xbsv.Portalmem

open Resources

/-! ## The source -/

/-- `struct sg_table`: `nents` is an `unsigned int`, and the entries are whole pages. -/
structure SgTable where
  sgl : List Sg
  nents_lt : sgl.length < 2 ^ 32
  length_pos : ∀ sg ∈ sgl, 0 < sg.length.toNat
  length_dvd : ∀ sg ∈ sgl, pageSize ∣ sg.length.toNat

/-- `struct vm_area_struct`: a range of whole pages, and the page of the buffer with which it begins. -/
structure Vma where
  vmStart : BitVec 64
  vmEnd : BitVec 64
  vmPgoff : BitVec 64
  vmStart_le : vmStart ≤ vmEnd
  vmStart_dvd : pageSize ∣ vmStart.toNat
  vmEnd_dvd : pageSize ∣ vmEnd.toNat

/-- `remap_pfn_range`: the pages from the frame `pfn` on are mapped at the addresses from `addr` on. -/
def remapPfnRange (addr : BitVec 64) (pfn : ℕ) (size : BitVec 32) : List (BitVec 64 × ℕ) :=
  (List.range' pfn ((size.toNat + (pageSize - 1)) / pageSize)).mapIdx fun i p =>
    (addr + BitVec.ofNat 64 (i * pageSize), p)

/-- The loop over the scatter list. -/
def mmapLoop (vmEnd : BitVec 64) : List Sg → BitVec 64 → BitVec 64 → List (BitVec 64 × ℕ)
  | [], _, _ => []
  | sg :: sgl, addr, offset =>
    let remainder := vmEnd - addr
    if sg.length.setWidth 64 ≤ offset then mmapLoop vmEnd sgl addr (offset - sg.length.setWidth 64)
    else
      let page := if offset ≠ 0 then sg.page + (offset / BitVec.ofNat 64 pageSize).toNat else sg.page
      let len := if offset ≠ 0 then (sg.length.setWidth 64 - offset).setWidth 32 else sg.length
      let len := if len.setWidth 64 < remainder then len else remainder.setWidth 32
      let addr' := addr + len.setWidth 64
      remapPfnRange addr page len ++ if vmEnd ≤ addr' then [] else mmapLoop vmEnd sgl addr' 0

/-- `pa_dma_buf_mmap`. -/
def paDmaBufMmap (table : SgTable) (vma : Vma) : List (BitVec 64 × ℕ) :=
  mmapLoop vma.vmEnd table.sgl vma.vmStart (vma.vmPgoff * BitVec.ofNat 64 pageSize)

/-! ## The pages of a buffer -/

/-- An entry of a scatter list as a run of pages. -/
def Sg.run (sg : Sg) : ℕ × ℕ := (sg.page, sg.length.toNat / pageSize)

/-- The pages of the buffer, in the order of the scatter list. -/
def SgTable.pages (table : SgTable) : List ℕ := Runs.cells (table.sgl.map Sg.run)

/-- The pages `pages` at the addresses from `addr` on. -/
def place (addr : BitVec 64) (pages : List ℕ) : List (BitVec 64 × ℕ) :=
  pages.mapIdx fun i p => (addr + BitVec.ofNat 64 (i * pageSize), p)

/-- What is mapped at the place number `k`. -/
lemma getElem?_place (addr : BitVec 64) (pages : List ℕ) (k : ℕ) :
    (place addr pages)[k]? = (pages[k]?).map fun p => (addr + BitVec.ofNat 64 (k * pageSize), p) := by
  rw [place, List.getElem?_mapIdx]

/-- The addresses at which the pages stand. -/
lemma map_fst_place (addr : BitVec 64) (pages : List ℕ) :
    (place addr pages).map Prod.fst = (List.range pages.length).map fun i => addr + BitVec.ofNat 64 (i * pageSize) := by
  apply List.ext_getElem?
  intro k
  rw [List.getElem?_map, getElem?_place, List.getElem?_map, Option.map_map]
  by_cases h : k < pages.length
  · rw [List.getElem?_eq_getElem h, List.getElem?_range h, Option.map_some, Option.map_some, Function.comp_apply]
  · rw [List.getElem?_eq_none (by omega), List.getElem?_eq_none (by rw [List.length_range]; omega), Option.map_none,
      Option.map_none]

/-- **The allocator makes a scatter list of whole pages.** -/
theorem exists_sgTable {total : ℕ} {s : State} (hs : Gathers total s) (hlength : s.pages.length < 2 ^ 31) :
    ∃ table : SgTable, s.table = some table.sgl := by
  have hentry : ∀ sg ∈ s.pages.map PageInfo.sg, 0 < sg.length.toNat ∧ pageSize ∣ sg.length.toNat := by
    intro sg hsg
    obtain ⟨p, hp, rfl⟩ := List.mem_map.mp hsg
    obtain ⟨hdvd, hlt⟩ := blockSize_of_mem (hs.order_mem p hp)
    have hsize : p.sg.length.toNat = blockSize p.order := by
      rw [PageInfo.sg, BitVec.toNat_ofNat, Nat.mod_eq_of_lt hlt]
    rw [hsize]
    exact ⟨blockSize_pos p.order, hdvd⟩
  refine ⟨⟨s.pages.map PageInfo.sg, ?_, fun sg hsg => (hentry sg hsg).1, fun sg hsg => (hentry sg hsg).2⟩,
    hs.table_eq (by omega)⟩
  rw [List.length_map]
  omega

/-- The numbers of the pages are far below `2 ^ 64 / PAGE_SIZE`. -/
lemma SgTable.length_pages_lt (table : SgTable) : table.pages.length < 2 ^ 52 := by
  have hle : ∀ sgl : List Sg, (Runs.cells (sgl.map Sg.run)).length ≤ sgl.length * 2 ^ 20 := by
    intro sgl
    induction sgl with
    | nil => exact Nat.le_refl 0
    | cons sg sgl ih =>
      have hlt := sg.length.isLt
      have hrun : sg.length.toNat / pageSize ≤ 2 ^ 20 := by
        rw [pageSize]
        omega
      rw [List.map_cons, Sg.run, Runs.length_cells_cons, List.length_cons, Nat.succ_mul]
      omega
  have hlength := hle table.sgl
  have hlt := table.nents_lt
  rw [SgTable.pages]
  omega

lemma place_append (addr : BitVec 64) (xs ys : List ℕ) :
    place addr (xs ++ ys) = place addr xs ++ place (addr + BitVec.ofNat 64 (xs.length * pageSize)) ys := by
  simp only [place, List.mapIdx_append]
  congr 2
  funext i p
  rw [Nat.add_mul, BitVec.ofNat_add, BitVec.add_assoc, BitVec.add_comm (BitVec.ofNat 64 (i * pageSize))]

/-! ## One entry -/

variable {vmEnd addr offset remainder : BitVec 64} {length : BitVec 32} {n o r : ℕ}

lemma eq_zero_of_not_offset (hoffset : offset.toNat = o * pageSize) (h : ¬offset ≠ 0) : o = 0 := by
  have hzero : (0 : BitVec 64).toNat = 0 := rfl
  rw [not_not.mp h, hzero, pageSize] at hoffset
  omega

/-- The page with which an entry begins. -/
lemma firstPage_eq (page : ℕ) (hoffset : offset.toNat = o * pageSize) :
    (if offset ≠ 0 then page + (offset / BitVec.ofNat 64 pageSize).toNat else page) = page + o := by
  split
  case isTrue =>
    rw [BitVec.toNat_udiv, hoffset]
    congr 1
    exact Nat.mul_div_cancel o (by decide)
  case isFalse h =>
    rw [eq_zero_of_not_offset hoffset h]
    rfl

/-- What an entry has behind the offset. -/
lemma firstLen_eq (hlength : length.toNat = n * pageSize) (hoffset : offset.toNat = o * pageSize) (hlt : o < n) :
    (if offset ≠ 0 then (length.setWidth 64 - offset).setWidth 32 else length).toNat = (n - o) * pageSize := by
  have hbound := length.isLt
  have hle : o * pageSize ≤ n * pageSize := Nat.mul_le_mul_right _ (by omega)
  split
  case isTrue =>
    have hwide : (length.setWidth 64).toNat = n * pageSize := by
      rw [BitVec.toNat_setWidth, hlength, Nat.mod_eq_of_lt (by omega)]
    have hsub : offset ≤ length.setWidth 64 := by
      rw [BitVec.le_def, hwide, hoffset]
      exact hle
    rw [BitVec.toNat_setWidth, BitVec.toNat_sub_of_le hsub, hwide, hoffset, Nat.sub_mul, Nat.mod_eq_of_lt (by omega)]
  case isFalse h =>
    rw [hlength, eq_zero_of_not_offset hoffset h, Nat.sub_zero]

/-- What is mapped of an entry. -/
lemma clipped_eq (hlength : length.toNat = n * pageSize) (hremainder : remainder.toNat = r * pageSize) :
    (if length.setWidth 64 < remainder then length else remainder.setWidth 32).toNat = min n r * pageSize := by
  have hbound := length.isLt
  have hwide : (length.setWidth 64).toNat = n * pageSize := by
    rw [BitVec.toNat_setWidth, hlength, Nat.mod_eq_of_lt (by omega)]
  split
  case isTrue h =>
    rw [BitVec.lt_def, hwide, hremainder] at h
    rw [hlength, Nat.min_eq_left (Nat.le_of_lt (Nat.lt_of_mul_lt_mul_right h))]
  case isFalse h =>
    rw [BitVec.lt_def, hwide, hremainder, Nat.not_lt] at h
    rw [BitVec.toNat_setWidth, hremainder, Nat.min_eq_right (Nat.le_of_mul_le_mul_right h (by decide)),
      Nat.mod_eq_of_lt (by omega)]

lemma remapPfnRange_eq (addr : BitVec 64) (page : ℕ) (hlength : length.toNat = n * pageSize) :
    remapPfnRange addr page length = place addr (List.range' page n) := by
  have hpages : (length.toNat + (pageSize - 1)) / pageSize = n := by
    rw [hlength, pageSize]
    omega
  rw [remapPfnRange, hpages]
  rfl

/-! ## The loop -/

/-- **What the loop maps**: the pages from `offset` on, as many as there is room for. -/
theorem mmapLoop_eq (sgl : List Sg) (hdvd : ∀ sg ∈ sgl, pageSize ∣ sg.length.toNat)
    (hoffset : offset.toNat = o * pageSize) (hend : vmEnd.toNat = addr.toNat + r * pageSize) :
    mmapLoop vmEnd sgl addr offset = place addr (((Runs.cells (sgl.map Sg.run)).drop o).take r) := by
  induction sgl generalizing addr offset o r with
  | nil =>
    rw [List.map_nil, Runs.cells_nil, List.drop_nil, List.take_nil]
    rfl
  | cons sg sgl ih =>
    have hrest : ∀ sg ∈ sgl, pageSize ∣ sg.length.toNat := fun e he => hdvd e (List.mem_cons_of_mem _ he)
    obtain ⟨n, hn⟩ := hdvd sg List.mem_cons_self
    have hlength : sg.length.toNat = n * pageSize := by rw [hn, Nat.mul_comm]
    have hrun : sg.run = (sg.page, n) := by
      rw [Sg.run, hn, Nat.mul_div_cancel_left n (by decide)]
    have hwide : (sg.length.setWidth 64).toNat = n * pageSize := by
      have hbound := sg.length.isLt
      rw [BitVec.toNat_setWidth, hlength, Nat.mod_eq_of_lt (by omega)]
    rw [mmapLoop, List.map_cons, hrun]
    split
    case isTrue hskip =>
      -- The whole entry lies before the offset.
      have hle : n * pageSize ≤ o * pageSize := by rwa [BitVec.le_def, hwide, hoffset] at hskip
      rw [Runs.drop_cells_of_le (Nat.le_of_mul_le_mul_right hle (by decide))]
      apply ih hrest _ hend
      rw [BitVec.toNat_sub_of_le hskip, hwide, hoffset, Nat.sub_mul]
    case isFalse hskip =>
      have hlt : o < n := by
        rw [BitVec.le_def, hwide, hoffset] at hskip
        by_contra hle
        exact hskip (Nat.mul_le_mul_right _ (by omega))
      have hremainder : (vmEnd - addr).toNat = r * pageSize := by
        have hle : addr ≤ vmEnd := by
          rw [BitVec.le_def]
          omega
        rw [BitVec.toNat_sub_of_le hle]
        omega
      have hclip := clipped_eq (firstLen_eq hlength hoffset hlt) hremainder
      rw [Runs.drop_cells_of_lt hlt]
      dsimp only
      rw [firstPage_eq _ hoffset, remapPfnRange_eq _ _ hclip]
      set len := if _ < vmEnd - addr then _ else _ with hlen
      have hmin : min (n - o) r * pageSize ≤ r * pageSize := Nat.mul_le_mul_right _ (Nat.min_le_right ..)
      have haddr : (addr + len.setWidth 64).toNat = addr.toNat + min (n - o) r * pageSize := by
        have hbound := vmEnd.isLt
        rw [BitVec.toNat_add, BitVec.toNat_setWidth, hclip, Nat.mod_eq_of_lt (b := 2 ^ 64) (by omega),
          Nat.mod_eq_of_lt (by omega)]
      have hnext : addr + len.setWidth 64 = addr + BitVec.ofNat 64 (min (n - o) r * pageSize) := by
        congr 1
        apply BitVec.eq_of_toNat_eq
        rw [BitVec.toNat_setWidth, hclip, BitVec.toNat_ofNat]
      rw [List.take_append, List.length_range', place_append, Runs.take_run, List.length_range', ← hnext]
      congr 1
      split
      case isTrue hdone =>
        have hnone : r - (n - o) = 0 := by
          rw [BitVec.le_def, haddr, hend, Nat.add_le_add_iff_left] at hdone
          have hle := Nat.le_of_mul_le_mul_right hdone (by decide)
          omega
        rw [hnone, List.take_zero]
        rfl
      case isFalse hmore =>
        have hfull : min (n - o) r = n - o := by
          apply Nat.min_eq_left
          by_contra hlt
          rw [BitVec.le_def, haddr, hend, Nat.min_eq_right (by omega)] at hmore
          exact hmore (Nat.le_refl _)
        rw [hfull] at haddr
        rw [← List.drop_zero (l := Runs.cells _)]
        refine ih hrest (Nat.zero_mul _).symm ?_
        rw [haddr, hend, Nat.add_assoc, ← Nat.add_mul]
        congr 2
        omega

/-! ## The mapping -/

/-- The pages of the buffer from `vm_pgoff` on. -/
def mappedPages (table : SgTable) (vma : Vma) : List ℕ :=
  (table.pages.drop ((vma.vmPgoff * BitVec.ofNat 64 pageSize).toNat / pageSize)).take
    ((vma.vmEnd.toNat - vma.vmStart.toNat) / pageSize)

/-- **What is mapped.** -/
theorem paDmaBufMmap_eq (table : SgTable) (vma : Vma) :
    paDmaBufMmap table vma = place vma.vmStart (mappedPages table vma) := by
  have hle := vma.vmStart_le
  rw [BitVec.le_def] at hle
  apply mmapLoop_eq _ table.length_dvd
  · rw [Nat.div_mul_cancel]
    rw [BitVec.toNat_mul]
    exact (Nat.dvd_mod_iff ⟨2 ^ 52, rfl⟩).mpr (Nat.dvd_mul_left ..)
  · rw [Nat.div_mul_cancel (Nat.dvd_sub vma.vmEnd_dvd vma.vmStart_dvd)]
    omega

/-- The page that is mapped at the place number `k`. -/
lemma getElem?_mappedPages (table : SgTable) (vma : Vma) (k : ℕ) :
    (mappedPages table vma)[k]? =
      if k < (vma.vmEnd.toNat - vma.vmStart.toNat) / pageSize then
        table.pages[(vma.vmPgoff * BitVec.ofNat 64 pageSize).toNat / pageSize + k]? else none := by
  rw [mappedPages, List.getElem?_take, List.getElem?_drop]

/-- There is room for the pages that are mapped. -/
lemma length_mappedPages_le (table : SgTable) (vma : Vma) :
    vma.vmStart.toNat + (mappedPages table vma).length * pageSize ≤ vma.vmEnd.toNat := by
  have hle := vma.vmStart_le
  rw [BitVec.le_def] at hle
  have hlength : (mappedPages table vma).length ≤ (vma.vmEnd.toNat - vma.vmStart.toNat) / pageSize := by
    rw [mappedPages, List.length_take]
    exact Nat.min_le_left ..
  have hmul := Nat.mul_le_mul_right pageSize hlength
  rw [Nat.div_mul_cancel (Nat.dvd_sub vma.vmEnd_dvd vma.vmStart_dvd)] at hmul
  omega

/-- The address of the place number `k`. -/
lemma toNat_place_address (vma : Vma) {k : ℕ} (h : vma.vmStart.toNat + k * pageSize < vma.vmEnd.toNat) :
    (vma.vmStart + BitVec.ofNat 64 (k * pageSize)).toNat = vma.vmStart.toNat + k * pageSize := by
  have hlt := vma.vmEnd.isLt
  rw [BitVec.toNat_add, BitVec.toNat_ofNat, Nat.mod_eq_of_lt (a := k * pageSize) (by omega),
    Nat.mod_eq_of_lt (by omega)]

end Xbsv.Portalmem
