import Mathlib.Tactic.IntervalCases
import Xbsv.Portalmem.Mmap

set_option relaxedAutoImplicit false
set_option autoImplicit false

/-!
# The debugger access of `portalmem.c`

`custom_vma_access` reads and writes the pages that `pa_dma_buf_mmap` has mapped. A byte of memory is named by its
address in the kernel, where the page frames stand one after the other from `PAGE_OFFSET` on.

## Main definitions

* `Xbsv.Portalmem.customVmaAccess` — the function.
* `Xbsv.Portalmem.Sees` — the byte that a user sees at an address.
* `Xbsv.Portalmem.Agrees` — an access is to the bytes that the user sees.
* `Xbsv.Portalmem.InLine` — the bytes stand where the function looks for them.

## Main results

* `Xbsv.Portalmem.accessStart_eq` — where an access begins.
* `Xbsv.Portalmem.agrees_iff` — when an access agrees with the mapping.
* `Xbsv.Portalmem.inLine_iff_of_nodup` — the condition for pages that are different from each other.
-/

namespace Xbsv.Portalmem

/-! ## The source -/

/-- `page_address`. -/
def pageAddress (pageOffset : ℤ) (page : ℕ) : ℤ := pageOffset + page * pageSize

/-- The memory of the kernel. -/
abbrev Memory := ℤ → BitVec 8

/-- `memcpy` from memory. -/
def Memory.load (mem : Memory) (as : List ℤ) : List (BitVec 8) := as.map mem

/-- `memcpy` to memory. -/
def Memory.store (mem : Memory) : List ℤ → List (BitVec 8) → Memory
  | a :: as, b :: bs => Memory.store (fun a' => if a' = a then b else mem a') as bs
  | _, _ => mem

/-- What an access does: what it returns, the memory and the caller's buffer afterwards, and the bytes of memory that it
touches. -/
structure Access where
  ret : ℤ
  mem : Memory
  buf : List (BitVec 8)
  touched : List ℤ

/-- The loop over the scatter list. The comparison of the `int` with the length of the entry is unsigned. -/
def accessLoop (pageOffset : ℤ) : List Sg → ℤ → BitVec 32 → ℤ × BitVec 32
  | [], maddr, offset => (maddr, offset)
  | sg :: sgl, _, offset =>
    let maddr := pageAddress pageOffset sg.page
    if offset < sg.length then (maddr, offset) else accessLoop pageOffset sgl maddr (offset - sg.length)

/-- `maddr + offset`. -/
def accessStart (pageOffset : ℤ) (sgl : List Sg) (vmStart addr : BitVec 64) : ℤ :=
  let (maddr, offset) := accessLoop pageOffset sgl 0 ((addr - vmStart).setWidth 32)
  maddr + offset.toInt

/-- `custom_vma_access`, with `vm_private_data`. -/
def customVmaAccess (pageOffset : ℤ) (buffer : Option SgTable) (vma : Vma) (addr : BitVec 64) (buf : List (BitVec 8))
    (len : ℕ) (write : Bool) (mem : Memory) : Access :=
  match buffer with
  | none => ⟨-14, mem, buf, []⟩
  | some table =>
    let as := (List.range len).map fun i : ℕ => accessStart pageOffset table.sgl vma.vmStart addr + i
    if write then ⟨len, mem.store as buf, buf, as⟩ else ⟨len, mem, mem.load as, as⟩

/-! ## What the user sees -/

/-- With the pages `mapped`, the user sees the byte `a` of memory at the address `va`. -/
def Sees (pageOffset : ℤ) (mapped : List (BitVec 64 × ℕ)) (va : BitVec 64) (a : ℤ) : Prop :=
  ∃ page, (BitVec.ofNat 64 (va.toNat / pageSize * pageSize), page) ∈ mapped ∧
    a = pageAddress pageOffset page + (va.toNat % pageSize : ℕ)

/-- The entries of the scatter list as runs of bytes. -/
def SgTable.byteRuns (table : SgTable) : List (ℕ × ℕ) := table.sgl.map fun sg => (sg.page * pageSize, sg.length.toNat)

/-- The bytes of the buffer, in the order of the scatter list. -/
def SgTable.bytes (table : SgTable) : List ℕ := Runs.cells table.byteRuns

/-- **The access agrees with the mapping**: it reads and writes the bytes `user 0, user 1, …` and touches only bytes of
the buffer. -/
def Agrees (pageOffset : ℤ) (table : SgTable) (vma : Vma) (addr : BitVec 64) (len : ℕ) (user : ℕ → ℤ) : Prop :=
  ∀ mem buf, buf.length = len →
    let read := customVmaAccess pageOffset (some table) vma addr buf len false mem
    let written := customVmaAccess pageOffset (some table) vma addr buf len true mem
    read.mem = mem ∧ read.buf = mem.load ((List.range len).map user) ∧
      written.mem = mem.store ((List.range len).map user) buf ∧ written.buf = buf ∧
      ∀ a, a ∈ read.touched ∨ a ∈ written.touched → ∃ c ∈ table.bytes, a = pageOffset + c

/-- The byte of the buffer with which the access begins. -/
def firstByte (vma : Vma) (addr : BitVec 64) : ℕ :=
  (vma.vmPgoff * BitVec.ofNat 64 pageSize).toNat + (addr.toNat - vma.vmStart.toNat)

/-- The bytes of the access stand in line. The byte number `addr - vm_start` modulo `2 ^ 32` of the buffer stands
at `b + r`, where `b` is the address of its entry; the line begins there, or `2 ^ 32` bytes before where `r` is negative
as an `int`. -/
def InLine (table : SgTable) (vma : Vma) (addr : BitVec 64) (len : ℕ) : Prop :=
  ∀ i < len, ∃ b r c, Runs.locate table.byteRuns ((addr.toNat - vma.vmStart.toNat) % 2 ^ 32) = some (b, r) ∧
    table.bytes[firstByte vma addr + i]? = some c ∧ c + (if r < 2 ^ 31 then 0 else 2 ^ 32) = b + r + i

variable {pageOffset : ℤ} {table : SgTable} {vma : Vma} {addr : BitVec 64} {len : ℕ} {user : ℕ → ℤ}

/-! ## The loop -/

/-- **Where the loop ends**: in the entry that holds the byte number `offset`. -/
lemma accessLoop_eq (sgl : List Sg) (maddr : ℤ) (offset : BitVec 32) {b r : ℕ}
    (h : Runs.locate (sgl.map fun sg => (sg.page * pageSize, sg.length.toNat)) offset.toNat = some (b, r)) :
    accessLoop pageOffset sgl maddr offset = (pageOffset + b, BitVec.ofNat 32 r) := by
  induction sgl generalizing maddr offset with
  | nil => cases h
  | cons sg sgl ih =>
    rw [List.map_cons, Runs.locate] at h
    rw [accessLoop]
    split at h
    case isTrue hlt =>
      obtain ⟨rfl, rfl⟩ := Prod.mk.inj (Option.some.inj h)
      rw [if_pos (by rwa [BitVec.lt_def]), pageAddress, Nat.cast_mul, BitVec.ofNat_toNat, BitVec.setWidth_eq]
    case isFalse hge =>
      have hle : sg.length ≤ offset := by
        rw [BitVec.le_def]
        omega
      rw [if_neg (by rwa [BitVec.lt_def])]
      apply ih
      rwa [BitVec.toNat_sub_of_le hle]

/-- The difference of two addresses as an `int`. -/
lemma toNat_offset (h : vma.vmStart ≤ addr) :
    ((addr - vma.vmStart).setWidth 32).toNat = (addr.toNat - vma.vmStart.toNat) % 2 ^ 32 := by
  rw [BitVec.toNat_setWidth, BitVec.toNat_sub_of_le h]

/-- **Where an access begins.** -/
theorem accessStart_eq (pageOffset : ℤ) (table : SgTable) (h : vma.vmStart ≤ addr) {b r : ℕ}
    (hlocate : Runs.locate table.byteRuns ((addr.toNat - vma.vmStart.toNat) % 2 ^ 32) = some (b, r)) :
    accessStart pageOffset table.sgl vma.vmStart addr + (if r < 2 ^ 31 then 0 else 2 ^ 32 : ℕ) = pageOffset + b + r := by
  have hr : r < 2 ^ 32 := by
    obtain ⟨n, hmem, hlt⟩ := Runs.exists_of_locate hlocate
    obtain ⟨sg, -, hsg⟩ := List.mem_map.mp hmem
    have hlength := sg.length.isLt
    rw [← (Prod.mk.inj hsg).2] at hlt
    omega
  rw [accessStart, accessLoop_eq table.sgl 0 _ (by rw [toNat_offset h]; exact hlocate)]
  dsimp only
  rw [BitVec.toInt_eq_toNat_cond, BitVec.toNat_ofNat, Nat.mod_eq_of_lt hr]
  split
  · rw [if_pos (by omega)]
    push_cast
    omega
  · rw [if_neg (by omega)]
    push_cast
    omega

/-! ## What the user sees -/

lemma SgTable.bytes_eq (table : SgTable) :
    table.bytes = Runs.cells ((table.sgl.map Sg.run).map (Runs.scale pageSize)) := by
  rw [SgTable.bytes, SgTable.byteRuns, List.map_map]
  congr 1
  apply List.map_congr_left
  intro sg hsg
  show _ = (sg.page * pageSize, sg.length.toNat / pageSize * pageSize)
  rw [Nat.div_mul_cancel (table.length_dvd sg hsg)]

/-- A byte of the buffer stands in its page. -/
lemma SgTable.getElem?_bytes (table : SgTable) (k : ℕ) :
    table.bytes[k]? = (table.pages[k / pageSize]?).map fun page => page * pageSize + k % pageSize := by
  rw [table.bytes_eq, Runs.getElem?_cells_scale (by decide)]
  rfl

/-- The page and the place of the byte that stands at an address. -/
lemma firstByte_div_mod {va : BitVec 64} (h : vma.vmStart ≤ va) :
    firstByte vma va / pageSize =
        (vma.vmPgoff * BitVec.ofNat 64 pageSize).toNat / pageSize + (va.toNat - vma.vmStart.toNat) / pageSize ∧
      firstByte vma va % pageSize = va.toNat % pageSize := by
  have hoffset : pageSize ∣ (vma.vmPgoff * BitVec.ofNat 64 pageSize).toNat := by
    rw [BitVec.toNat_mul]
    exact (Nat.dvd_mod_iff ⟨2 ^ 52, rfl⟩).mpr (Nat.dvd_mul_left ..)
  have hstart := vma.vmStart_dvd
  rw [BitVec.le_def] at h
  rw [firstByte]
  rw [pageSize] at *
  omega

/-- The page that stands at an address. -/
lemma mem_paDmaBufMmap_iff {va : BitVec 64} {page : ℕ} :
    (BitVec.ofNat 64 (va.toNat / pageSize * pageSize), page) ∈ paDmaBufMmap table vma ↔
      vma.vmStart ≤ va ∧ va < vma.vmEnd ∧
        table.pages[(vma.vmPgoff * BitVec.ofNat 64 pageSize).toNat / pageSize +
          (va.toNat - vma.vmStart.toNat) / pageSize]? = some page := by
  have hstart := vma.vmStart_dvd
  have hend := vma.vmEnd_dvd
  have hva := va.isLt
  have hpage : (BitVec.ofNat 64 (va.toNat / pageSize * pageSize)).toNat = va.toNat / pageSize * pageSize := by
    rw [BitVec.toNat_ofNat, Nat.mod_eq_of_lt]
    exact Nat.lt_of_le_of_lt (Nat.div_mul_le_self ..) hva
  rw [paDmaBufMmap_eq, BitVec.le_def, BitVec.lt_def]
  constructor
  · intro hmem
    obtain ⟨k, hk⟩ := List.mem_iff_getElem?.mp hmem
    rw [getElem?_place, Option.map_eq_some_iff] at hk
    obtain ⟨page', hpage', heq⟩ := hk
    obtain ⟨haddr, rfl⟩ := Prod.mk.inj heq
    rw [getElem?_mappedPages] at hpage'
    split at hpage'
    case isFalse => cases hpage'
    case isTrue hroom =>
      have hinside : vma.vmStart.toNat + k * pageSize < vma.vmEnd.toNat := by
        rw [Nat.lt_div_iff_mul_lt_of_dvd (by decide) (Nat.dvd_sub hend hstart)] at hroom
        omega
      have haddr' := congrArg BitVec.toNat haddr
      rw [toNat_place_address vma hinside, hpage] at haddr'
      have hk : (va.toNat - vma.vmStart.toNat) / pageSize = k := by
        rw [pageSize] at *
        omega
      rw [hk]
      refine ⟨?_, ?_, hpage'⟩
      · rw [pageSize] at *
        omega
      · rw [pageSize] at *
        omega
  · rintro ⟨hle, hlt, hpage'⟩
    have hroom : (va.toNat - vma.vmStart.toNat) / pageSize < (vma.vmEnd.toNat - vma.vmStart.toNat) / pageSize := by
      rw [pageSize] at *
      omega
    have hinside : vma.vmStart.toNat + (va.toNat - vma.vmStart.toNat) / pageSize * pageSize < vma.vmEnd.toNat := by
      rw [pageSize] at *
      omega
    apply List.mem_of_getElem? (i := (va.toNat - vma.vmStart.toNat) / pageSize)
    rw [getElem?_place, getElem?_mappedPages, if_pos hroom, hpage', Option.map_some]
    congr 2
    apply BitVec.eq_of_toNat_eq
    rw [toNat_place_address vma hinside, hpage]
    rw [pageSize] at *
    omega

/-- The address of a byte of a page. -/
lemma pageAddress_add (pageOffset : ℤ) (page k : ℕ) :
    pageAddress pageOffset page + (k : ℕ) = pageOffset + (page * pageSize + k : ℕ) := by
  rw [pageAddress]
  push_cast
  ring

/-- **What the user sees.** -/
theorem sees_iff {va : BitVec 64} {a : ℤ} :
    Sees pageOffset (paDmaBufMmap table vma) va a ↔
      vma.vmStart ≤ va ∧ va < vma.vmEnd ∧ ∃ c, table.bytes[firstByte vma va]? = some c ∧ a = pageOffset + c := by
  constructor
  · rintro ⟨page, hmem, rfl⟩
    obtain ⟨hle, hlt, hpage⟩ := mem_paDmaBufMmap_iff.mp hmem
    obtain ⟨hdiv, hmod⟩ := firstByte_div_mod hle
    refine ⟨hle, hlt, page * pageSize + va.toNat % pageSize, ?_, pageAddress_add ..⟩
    rw [table.getElem?_bytes, hdiv, hpage, hmod]
    rfl
  · rintro ⟨hle, hlt, c, hbyte, rfl⟩
    obtain ⟨hdiv, hmod⟩ := firstByte_div_mod hle
    rw [table.getElem?_bytes, hdiv, hmod, Option.map_eq_some_iff] at hbyte
    obtain ⟨page, hpage, rfl⟩ := hbyte
    exact ⟨page, mem_paDmaBufMmap_iff.mpr ⟨hle, hlt, hpage⟩, (pageAddress_add ..).symm⟩

/-! ## Agreement -/

/-- A byte of memory decides between two addresses. -/
lemma load_congr_iff {as bs : List ℤ} : (∀ mem : Memory, mem.load as = mem.load bs) ↔ as = bs := by
  refine ⟨fun h => ?_, fun h mem => by rw [h]⟩
  apply List.ext_getElem?
  intro i
  have hmem : ∀ mem : Memory, as[i]?.map mem = bs[i]?.map mem := by
    intro mem
    have hi := congrArg (·[i]?) (h mem)
    simpa only [Memory.load, List.getElem?_map] using hi
  cases ha : as[i]? with
  | none =>
    have hnone := hmem fun _ => 0
    rw [ha, Option.map_none] at hnone
    exact (Option.map_eq_none_iff.mp hnone.symm).symm
  | some a =>
    have hsome := hmem fun a' => if a' = a then 1 else 0
    rw [ha, Option.map_some, if_pos rfl] at hsome
    obtain ⟨b, hb, hbit⟩ := Option.map_eq_some_iff.mp hsome.symm
    rw [hb]
    congr 1
    by_contra hne
    rw [if_neg (fun h => hne h.symm)] at hbit
    cases hbit

/-- An access agrees with the mapping just when it begins where it should, byte for byte. -/
lemma agrees_iff_start (hsees : ∀ i < len, Sees pageOffset (paDmaBufMmap table vma) (addr + BitVec.ofNat 64 i) (user i)) :
    Agrees pageOffset table vma addr len user ↔
      ∀ i < len, accessStart pageOffset table.sgl vma.vmStart addr + i = user i := by
  have has : (List.range len).map (fun i : ℕ => accessStart pageOffset table.sgl vma.vmStart addr + i) =
      (List.range len).map user ↔ ∀ i < len, accessStart pageOffset table.sgl vma.vmStart addr + i = user i := by
    rw [List.map_inj_left]
    exact forall_congr' fun i => by rw [List.mem_range]
  rw [← has]
  constructor
  · intro h
    apply load_congr_iff.mp
    intro mem
    exact (h mem (List.replicate len 0) List.length_replicate).2.1
  · intro h mem buf hbuf
    dsimp only [customVmaAccess]
    rw [if_neg Bool.false_ne_true, if_pos rfl, h]
    refine ⟨rfl, rfl, rfl, rfl, fun a ha => ?_⟩
    obtain ⟨i, hi, rfl⟩ := List.mem_map.mp (or_self_iff.mp ha)
    obtain ⟨-, -, c, hc, heq⟩ := sees_iff.mp (hsees i (List.mem_range.mp hi))
    exact ⟨c, List.mem_of_getElem? hc, heq⟩

/-- The addresses of an access that the user sees do not wrap. -/
lemma toNat_add_of_sees (hsees : ∀ i < len, Sees pageOffset (paDmaBufMmap table vma) (addr + BitVec.ofNat 64 i) (user i))
    {i : ℕ} (hi : i < len) : (addr + BitVec.ofNat 64 i).toNat = addr.toNat + i := by
  have hlt := addr.isLt
  induction i with
  | zero =>
    rw [BitVec.toNat_add, BitVec.toNat_ofNat]
    omega
  | succ i ih =>
    obtain ⟨-, hinside, -⟩ := sees_iff.mp (hsees i (by omega))
    have hend := vma.vmEnd.isLt
    have hprev := ih (by omega)
    rw [BitVec.lt_def, hprev] at hinside
    rw [BitVec.toNat_add, BitVec.toNat_ofNat]
    omega

/-- The byte of the buffer that the user sees. -/
lemma byte_of_sees (hsees : ∀ i < len, Sees pageOffset (paDmaBufMmap table vma) (addr + BitVec.ofNat 64 i) (user i))
    {i : ℕ} (hi : i < len) : ∃ c, table.bytes[firstByte vma addr + i]? = some c ∧ user i = pageOffset + c := by
  obtain ⟨-, -, c, hc, huser⟩ := sees_iff.mp (hsees i hi)
  obtain ⟨hle, -⟩ := sees_iff.mp (hsees 0 (by omega))
  rw [BitVec.le_def, BitVec.add_zero] at hle
  refine ⟨c, ?_, huser⟩
  rw [← hc, firstByte, firstByte, toNat_add_of_sees hsees hi]
  congr 1
  omega

/-- **When an access agrees with the mapping**: just when its bytes stand in line. -/
theorem agrees_iff (pageOffset : ℤ) (table : SgTable) (vma : Vma) (addr : BitVec 64) (len : ℕ) (user : ℕ → ℤ)
    (hsees : ∀ i < len, Sees pageOffset (paDmaBufMmap table vma) (addr + BitVec.ofNat 64 i) (user i)) :
    Agrees pageOffset table vma addr len user ↔ InLine table vma addr len := by
  rw [agrees_iff_start hsees]
  refine forall_congr' fun i => forall_congr' fun hi => ?_
  obtain ⟨c, hc, huser⟩ := byte_of_sees hsees hi
  obtain ⟨hle, -⟩ := sees_iff.mp (hsees 0 (by omega))
  rw [BitVec.add_zero] at hle
  -- The byte that the function looks for lies before the one that the user sees.
  obtain ⟨b, r, hlocate⟩ : ∃ b r, Runs.locate table.byteRuns ((addr.toNat - vma.vmStart.toNat) % 2 ^ 32) = some (b, r) := by
    have hlength : (addr.toNat - vma.vmStart.toNat) % 2 ^ 32 < table.bytes.length := by
      obtain ⟨hlt, -⟩ := List.getElem?_eq_some_iff.mp hc
      have hmod := Nat.mod_le (addr.toNat - vma.vmStart.toNat) (2 ^ 32)
      rw [firstByte] at hlt
      omega
    have hcell := Runs.getElem?_cells table.byteRuns ((addr.toNat - vma.vmStart.toNat) % 2 ^ 32)
    rw [← SgTable.bytes, List.getElem?_eq_getElem hlength] at hcell
    obtain ⟨⟨b, r⟩, h, -⟩ := Option.map_eq_some_iff.mp hcell.symm
    exact ⟨b, r, h⟩
  have hstart := accessStart_eq pageOffset table hle hlocate
  rw [huser]
  constructor
  · intro h
    refine ⟨b, r, c, hlocate, hc, ?_⟩
    omega
  · rintro ⟨b', r', c', hlocate', hc', h⟩
    obtain ⟨rfl, rfl⟩ := Prod.mk.inj (Option.some.inj (hlocate.symm.trans hlocate'))
    obtain rfl := Option.some.inj (hc.symm.trans hc')
    omega

/-- The pages of the frames 5 and 9. -/
def twoPages : SgTable where
  sgl := [⟨5, 4096⟩, ⟨9, 4096⟩]
  nents_lt := by decide
  length_pos := by decide
  length_dvd := by decide

/-- A mapping of two pages. -/
def twoPagesVma : Vma where
  vmStart := 0x10000
  vmEnd := 0x12000
  vmPgoff := 0
  vmStart_le := by decide
  vmStart_dvd := ⟨16, rfl⟩
  vmEnd_dvd := ⟨18, rfl⟩

/-- Two bytes of the second page. -/
theorem agrees_iff_second_page :
    (∀ i < 2, Sees 0 (paDmaBufMmap twoPages twoPagesVma) (0x11010 + BitVec.ofNat 64 i) ((9 * 4096 + 16 + i : ℕ) : ℤ)) ∧
      (Agrees 0 twoPages twoPagesVma 0x11010 2 (fun i => ((9 * 4096 + 16 + i : ℕ) : ℤ)) ↔
        InLine twoPages twoPagesVma 0x11010 2) := by
  have hsees : ∀ i < 2,
      Sees 0 (paDmaBufMmap twoPages twoPagesVma) (0x11010 + BitVec.ofNat 64 i) ((9 * 4096 + 16 + i : ℕ) : ℤ) := by
    intro i hi
    refine ⟨9, ?_, ?_⟩
    · interval_cases i <;> decide
    · interval_cases i <;> decide
  exact ⟨hsees, agrees_iff 0 twoPages twoPagesVma 0x11010 2 _ hsees⟩

/-- The last byte of the first page and the first byte of the second one. -/
theorem not_agrees_straddling :
    (∀ i < 2, Sees 0 (paDmaBufMmap twoPages twoPagesVma) (0x10fff + BitVec.ofNat 64 i)
      (if i = 0 then 5 * 4096 + 4095 else 9 * 4096)) ∧
      ¬Agrees 0 twoPages twoPagesVma 0x10fff 2 (fun i => if i = 0 then 5 * 4096 + 4095 else 9 * 4096) := by
  have hsees : ∀ i < 2, Sees 0 (paDmaBufMmap twoPages twoPagesVma) (0x10fff + BitVec.ofNat 64 i)
      (if i = 0 then 5 * 4096 + 4095 else 9 * 4096) := by
    intro i hi
    interval_cases i
    · exact ⟨5, by decide, by decide⟩
    · exact ⟨9, by decide, by decide⟩
  refine ⟨hsees, fun h => ?_⟩
  have hstart := (agrees_iff_start hsees).mp h 1 (by decide)
  revert hstart
  decide

/-- For pages that are different from each other, in entries that are not longer than `2 ^ 31` bytes: the mapping begins
with the buffer, and the access lies within its first `2 ^ 32` bytes and within consecutive ones. -/
theorem inLine_iff_of_nodup (hnodup : table.bytes.Nodup) (hshort : ∀ sg ∈ table.sgl, sg.length.toNat ≤ 2 ^ 31) :
    InLine table vma addr len ↔ len = 0 ∨
      (vma.vmPgoff * BitVec.ofNat 64 pageSize).toNat = 0 ∧ addr.toNat - vma.vmStart.toNat < 2 ^ 32 ∧
        ∃ b, ∀ i < len, table.bytes[firstByte vma addr + i]? = some (b + i) := by
  have hcell := Runs.getElem?_cells table.byteRuns ((addr.toNat - vma.vmStart.toNat) % 2 ^ 32)
  rw [← SgTable.bytes] at hcell
  have hsmall : ∀ {b r}, Runs.locate table.byteRuns ((addr.toNat - vma.vmStart.toNat) % 2 ^ 32) = some (b, r) →
      r < 2 ^ 31 := by
    intro b r h
    obtain ⟨n, hmem, hlt⟩ := Runs.exists_of_locate h
    obtain ⟨sg, hsg, hrun⟩ := List.mem_map.mp hmem
    have hlength := hshort sg hsg
    rw [← (Prod.mk.inj hrun).2] at hlt
    omega
  constructor
  · intro h
    rcases Nat.eq_zero_or_pos len with hlen | hlen
    · exact Or.inl hlen
    · obtain ⟨b, r, c, hlocate, hc, heq⟩ := h 0 hlen
      have hr := hsmall hlocate
      rw [if_pos hr, Nat.add_zero, Nat.add_zero] at heq
      rw [hlocate, Option.map_some, ← heq, ← hc, Nat.add_zero] at hcell
      obtain ⟨hlt, -⟩ := List.getElem?_eq_some_iff.mp hc
      have hsame := (List.getElem?_inj hlt hnodup).mp hcell.symm
      have hmod := Nat.mod_le (addr.toNat - vma.vmStart.toNat) (2 ^ 32)
      rw [firstByte] at hsame
      refine Or.inr ⟨by omega, by omega, b + r, fun i hi => ?_⟩
      obtain ⟨b', r', c', hlocate', hc', heq'⟩ := h i hi
      obtain ⟨rfl, rfl⟩ := Prod.mk.inj (Option.some.inj (hlocate.symm.trans hlocate'))
      rw [if_pos hr, Nat.add_zero] at heq'
      rw [hc', heq']
  · rintro (rfl | ⟨hpgoff, hoffset, b, hbytes⟩) i hi
    · cases hi
    · have hfirst := hbytes 0 (by omega)
      rw [firstByte, hpgoff, Nat.zero_add, Nat.add_zero, Nat.add_zero] at hfirst
      rw [Nat.mod_eq_of_lt hoffset, hfirst] at hcell
      obtain ⟨⟨b', r⟩, hlocate, hb⟩ := Option.map_eq_some_iff.mp hcell.symm
      refine ⟨b', r, b + i, by rw [Nat.mod_eq_of_lt hoffset]; exact hlocate, hbytes i hi, ?_⟩
      rw [if_pos (hsmall (by rw [Nat.mod_eq_of_lt hoffset]; exact hlocate)), Nat.add_zero, ← hb]

end Xbsv.Portalmem
