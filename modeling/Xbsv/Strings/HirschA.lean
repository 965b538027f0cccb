import Xbsv.Cores.Bram
import Xbsv.Fsm.Statement
import Xbsv.Strings.Mcs

set_option relaxedAutoImplicit false
set_option autoImplicit false

/-!
# The whole table

`mkHirschA` of `examples/maxcommonsubseq`: the lengths of the longest common subsequences of all beginnings of two strings,
in a table that is filled row by row. The address of an entry has seven bits for the row and seven for the column.

## Main definitions

* `Xbsv.HirschA`, `Xbsv.hirschA` — the registers and the statement.
* `Xbsv.HirschA.Filled` — what holds between the entries.

## Main results

* `Xbsv.HirschA.Filled.ends_entry` — one entry, from those before.
* `Xbsv.HirschA.hirschA_computes` — every run ends with the table.
-/

namespace Xbsv

open Fsm

/-- The registers and the memories of `mkHirschA`. -/
structure HirschA where
  aStartReg : BitVec 14
  bStartReg : BitVec 14
  aLenReg : BitVec 14
  bLenReg : BitVec 14
  ii : BitVec 14
  jj : BitVec 14
  aData : BitVec 8
  bData : BitVec 8
  lim1jm1 : BitVec 16
  lim1j : BitVec 16
  lijm1 : BitVec 16
  strA : BramPort 14 (BitVec 8)
  strB : BramPort 14 (BitVec 8)
  matL : BramPort 14 (BitVec 16)

namespace HirschA

/-- The address of an entry. -/
def index (i j : BitVec 7) : BitVec 14 := i ++ j

/-- The requests to the memories. -/
def putA (request : HirschA → BRAMRequest 14 (BitVec 8)) (s : HirschA) : Option HirschA :=
  (s.strA.put (request s)).map fun strA => { s with strA }

def putB (request : HirschA → BRAMRequest 14 (BitVec 8)) (s : HirschA) : Option HirschA :=
  (s.strB.put (request s)).map fun strB => { s with strB }

def putL (request : HirschA → BRAMRequest 14 (BitVec 16)) (s : HirschA) : Option HirschA :=
  (s.matL.put (request s)).map fun matL => { s with matL }

/-- The two symbols. -/
def takeAB (s : HirschA) : Option HirschA := do
  let (ta, strA) ← s.strA.get
  let (tb, strB) ← s.strB.get
  return { s with strA, strB, aData := ta, bData := tb }

/-- The word of another entry. -/
def takeL (store : BitVec 16 → HirschA → HirschA) (s : HirschA) : Option HirschA := do
  let (temp, matL) ← s.matL.get
  return store temp { s with matL }

/-- The entry where the symbols are the same. -/
def same : Statement HirschA :=
  .block [
    .act (putL fun s => .read (index (s.ii.setWidth 7 - 1) (s.jj.setWidth 7 - 1))),
    .act (takeL fun temp s => { s with lim1jm1 := temp }),
    .act (putL fun s => .write (index (s.ii.setWidth 7) (s.jj.setWidth 7)) (s.lim1jm1 + 1))]

/-- The entry where they are not. -/
def different : Statement HirschA :=
  .block [
    .act (putL fun s => .read (index (s.ii.setWidth 7) (s.jj.setWidth 7 - 1))),
    .act (takeL fun tlijm1 s => { s with lijm1 := tlijm1 }),
    .act (putL fun s => .read (index (s.ii.setWidth 7 - 1) (s.jj.setWidth 7))),
    .act (takeL fun tlim1j s => { s with lim1j := tlim1j }),
    .act (putL fun s => .write (index (s.ii.setWidth 7) (s.jj.setWidth 7)) (larger s.lijm1 s.lim1j))]

/-- An entry. -/
def entry : Statement HirschA :=
  .block [
    .act (putA fun s => .read (s.aStartReg + s.ii - 1)),
    .act (putB fun s => .read (s.bStartReg + s.jj - 1)),
    .act takeAB,
    .ifte (fun s => s.aData = s.bData) same different]

/-- A row. -/
def row : Statement HirschA :=
  .forLoop (fun s => { s with jj := 1 }) (fun s => s.jj ≤ s.bLenReg) (fun s => { s with jj := s.jj + 1 }) entry

/-- A loop in which words are set to `0`. -/
def clear (address : HirschA → BitVec 14) : Statement HirschA :=
  .forLoop (fun s => { s with ii := 0 }) (fun s => s.ii < s.aLenReg) (fun s => { s with ii := s.ii + 1 })
    (.act (putL fun s => .write (address s) 0))

end HirschA

open HirschA

/-- The statement `hirschA`. -/
def hirschA : Statement HirschA :=
  .block [
    clear fun s => index (s.ii.setWidth 7) 0,
    clear fun s => index 0 (s.ii.setWidth 7),
    .forLoop (fun s => { s with ii := 1 }) (fun s => s.ii ≤ s.aLenReg) (fun s => { s with ii := s.ii + 1 }) row]

namespace HirschA

open Statement Strings

/-! ## What is to be computed -/

/-- The strings. -/
def stringA (s : HirschA) : List (BitVec 8) := symbols s.strA.mem s.aStartReg s.aLenReg

def stringB (s : HirschA) : List (BitVec 8) := symbols s.strB.mem s.bStartReg s.bLenReg

/-- The entry for the first `i` and the first `j` symbols, and its address. -/
def word (s : HirschA) (i j : ℕ) : BitVec 16 := tableWord (stringA s) (stringB s) i j

def cell (i j : ℕ) : BitVec 14 := index (BitVec.ofNat 7 i) (BitVec.ofNat 7 j)

variable {s₀ s : HirschA} {i j n : ℕ}

/-- Different entries are at different addresses. -/
lemma cell_inj {i' j' : ℕ} (hi : i < 128) (hj : j < 128) (hi' : i' < 128) (hj' : j' < 128) (h : cell i j = cell i' j') :
    i = i' ∧ j = j' := by
  have hrow := congrArg (BitVec.extractLsb' 7 7) h
  have hcolumn := congrArg (BitVec.extractLsb' 0 7) h
  rw [cell, cell, index, index, BitVec.extractLsb'_append_eq_left, BitVec.extractLsb'_append_eq_left] at hrow
  rw [cell, cell, index, index, BitVec.extractLsb'_append_eq_right, BitVec.extractLsb'_append_eq_right] at hcolumn
  exact ⟨by bv_omega, by bv_omega⟩

/-- An address is that of one entry only. -/
lemma eq_of_index_eq_cell {i j : BitVec 7} {i' j' : ℕ} (hi' : i' < 128) (hj' : j' < 128) (h : index i j = cell i' j') :
    i.toNat = i' ∧ j.toNat = j' := by
  have heq : index i j = cell i.toNat j.toNat := by
    rw [cell, BitVec.ofNat_toNat, BitVec.ofNat_toNat, BitVec.setWidth_eq, BitVec.setWidth_eq]
  exact cell_inj i.isLt j.isLt hi' hj' (heq.symm.trans h)

/-- The lengths for which there are enough rows and columns. -/
structure Fits (s : HirschA) : Prop where
  a : s.aLenReg.toNat < 128
  b : s.bLenReg.toNat < 128

/-- What the machine does not change. -/
structure Kept (s₀ s : HirschA) : Prop where
  aStartReg : s.aStartReg = s₀.aStartReg
  bStartReg : s.bStartReg = s₀.bStartReg
  aLenReg : s.aLenReg = s₀.aLenReg
  bLenReg : s.bLenReg = s₀.bLenReg
  strA : s.strA.mem = s₀.strA.mem
  strB : s.strB.mem = s₀.strB.mem

/-- Nothing is on the way to the memories. -/
structure Idle (s : HirschA) : Prop where
  noA : s.strA.responses = []
  noB : s.strB.responses = []
  noL : s.matL.responses = []

/-- The table, with the entries of row `i + 1` up to column `j`, and those of the rows before. -/
structure Table (s₀ : HirschA) (i j : ℕ) (mem : BitVec 14 → BitVec 16) : Prop where
  words : ∀ i' ≤ s₀.aLenReg.toNat, ∀ j' ≤ s₀.bLenReg.toNat, i' ≤ i ∨ j' = 0 ∨ i' = i + 1 ∧ j' ≤ j →
    mem (cell i' j') = word s₀ i' j'
  outside : ∀ x, (∀ i ≤ s₀.aLenReg.toNat, ∀ j ≤ s₀.bLenReg.toNat, x ≠ cell i j) →
    (∀ j < s₀.aLenReg.toNat, x ≠ cell 0 j) → mem x = s₀.matL.mem x

/-- Between the entries. -/
structure Filled (s₀ s : HirschA) (i j : ℕ) : Prop extends Kept s₀ s, Idle s where
  table : Table s₀ i j s.matL.mem

/-! ## An entry -/

lemma Table.write {mem : BitVec 14 → BitVec 16} (h : Table s₀ i j mem) (hfits : s₀.Fits) (hi : i < s₀.aLenReg.toNat)
    (hj : j < s₀.bLenReg.toNat) :
    Table s₀ i (j + 1) (Function.update mem (cell (i + 1) (j + 1)) (word s₀ (i + 1) (j + 1))) := by
  have ha := hfits.a
  have hb := hfits.b
  constructor
  case words =>
    intro i' hi' j' hj' hbefore
    by_cases heq : i' = i + 1 ∧ j' = j + 1
    · rw [heq.1, heq.2, Function.update_self]
    · rw [Function.update_of_ne, h.words i' hi' j' hj' (by omega)]
      exact fun hcell => heq (cell_inj (by omega) (by omega) (by omega) (by omega) hcell)
  case outside =>
    intro x hx hrow
    rw [Function.update_of_ne (hx _ hi _ hj), h.outside x hx hrow]

lemma putA_read (h : s.strA.responses = []) (address : HirschA → BitVec 14) :
    putA (fun s => .read (address s)) s = some { s with strA := ⟨s.strA.mem, [s.strA.mem (address s)]⟩ } := by
  rw [putA, BramPort.put_read h]
  rfl

lemma putB_read (h : s.strB.responses = []) (address : HirschA → BitVec 14) :
    putB (fun s => .read (address s)) s = some { s with strB := ⟨s.strB.mem, [s.strB.mem (address s)]⟩ } := by
  rw [putB, BramPort.put_read h]
  rfl

lemma putL_read (h : s.matL.responses = []) (address : HirschA → BitVec 14) :
    putL (fun s => .read (address s)) s = some { s with matL := ⟨s.matL.mem, [s.matL.mem (address s)]⟩ } := by
  rw [putL, BramPort.put_read h]
  rfl

lemma takeAB_eq {x y : BitVec 8} (hx : s.strA.responses = [x]) (hy : s.strB.responses = [y]) :
    takeAB s = some { s with strA := ⟨s.strA.mem, []⟩, strB := ⟨s.strB.mem, []⟩, aData := x, bData := y } := by
  simp [takeAB, BramPort.get_of_cons hx, BramPort.get_of_cons hy]

lemma takeL_eq {w : BitVec 16} (hw : s.matL.responses = [w]) (store : BitVec 16 → HirschA → HirschA) :
    takeL store s = some (store w { s with matL := ⟨s.matL.mem, []⟩ }) := by
  simp [takeL, BramPort.get_of_cons hw]

/-- At an entry. -/
structure AtEntry (s₀ s : HirschA) (i j : ℕ) : Prop extends Filled s₀ s i j where
  ii : s.ii = BitVec.ofNat 14 (i + 1)
  jj : s.jj = BitVec.ofNat 14 (j + 1)
  hi : i < s₀.aLenReg.toNat
  hj : j < s₀.bLenReg.toNat

/-- At an entry whose symbols have been read. -/
structure Compared (s₀ s : HirschA) (i j : ℕ) : Prop extends AtEntry s₀ s i j where
  aData : (stringA s₀)[i]? = some s.aData
  bData : (stringB s₀)[j]? = some s.bData

/-- The entry has been written. -/
structure Written (s₀ s s' : HirschA) (i j : ℕ) : Prop extends Filled s₀ s' i (j + 1) where
  ii : s'.ii = s.ii
  jj : s'.jj = s.jj

lemma setWidth_ofNat (n : ℕ) : (BitVec.ofNat 14 n).setWidth 7 = BitVec.ofNat 7 n :=
  BitVec.setWidth_ofNat_of_le (by decide) n

lemma ofNat_succ_sub (n : ℕ) : BitVec.ofNat 7 (n + 1) - 1 = BitVec.ofNat 7 n := by
  bv_omega

lemma length_stringA (s : HirschA) : (stringA s).length < 2 ^ 14 := by
  rw [stringA, length_symbols]
  exact s.aLenReg.isLt

lemma Compared.ends_same (h : Compared s₀ s i j) (hfits : s₀.Fits) (heq : s.aData = s.bData) :
    same.Ends s fun s' => Written s₀ s s' i j := by
  have hword : s.matL.mem (cell i j) + 1 = word s₀ (i + 1) (j + 1) := by
    rw [h.table.words i (Nat.le_of_lt h.hi) j (Nat.le_of_lt h.hj) (by omega), word, word,
      tableWord_succ (length_stringA s₀) h.aData h.bData, if_pos heq]
  have htable := h.table.write hfits h.hi h.hj
  refine ends_block_cons (ends_act (putL_read h.noL _) ?_)
  refine ends_block_cons (ends_act (takeL_eq rfl _) ?_)
  refine ends_block_cons (ends_act rfl (ends_block_nil ?_))
  refine ⟨⟨⟨h.aStartReg, h.bStartReg, h.aLenReg, h.bLenReg, h.strA, h.strB⟩, ⟨h.noA, h.noB, rfl⟩, ?_⟩, rfl, rfl⟩
  rw [← hword] at htable
  simpa only [h.ii, h.jj, setWidth_ofNat, ofNat_succ_sub, cell] using htable

/-- `max`, the other way round. -/
lemma larger_comm (x y : BitVec 16) : larger x y = larger y x := by
  unfold larger
  split <;> split <;> bv_omega

lemma Compared.ends_different (h : Compared s₀ s i j) (hfits : s₀.Fits) (hne : s.aData ≠ s.bData) :
    different.Ends s fun s' => Written s₀ s s' i j := by
  have hword : larger (s.matL.mem (cell (i + 1) j)) (s.matL.mem (cell i (j + 1))) = word s₀ (i + 1) (j + 1) := by
    rw [h.table.words (i + 1) h.hi j (Nat.le_of_lt h.hj) (by omega),
      h.table.words i (Nat.le_of_lt h.hi) (j + 1) h.hj (by omega), larger_comm, word, word, word,
      tableWord_succ (length_stringA s₀) h.aData h.bData, if_neg hne]
  have htable := h.table.write hfits h.hi h.hj
  refine ends_block_cons (ends_act (putL_read h.noL _) ?_)
  refine ends_block_cons (ends_act (takeL_eq rfl _) ?_)
  refine ends_block_cons (ends_act (putL_read rfl _) ?_)
  refine ends_block_cons (ends_act (takeL_eq rfl _) ?_)
  refine ends_block_cons (ends_act rfl (ends_block_nil ?_))
  refine ⟨⟨⟨h.aStartReg, h.bStartReg, h.aLenReg, h.bLenReg, h.strA, h.strB⟩, ⟨h.noA, h.noB, rfl⟩, ?_⟩, rfl, rfl⟩
  rw [← hword] at htable
  simpa only [h.ii, h.jj, setWidth_ofNat, ofNat_succ_sub, cell] using htable

/-- **An entry**, from those before. -/
theorem AtEntry.ends_entry (h : AtEntry s₀ s i j) (hfits : s₀.Fits) :
    entry.Ends s fun s' => Written s₀ s s' i j := by
  have hA : (stringA s₀)[i]? = some (s.strA.mem (s.aStartReg + s.ii - 1)) := by
    rw [stringA, getElem?_symbols h.hi, h.strA, h.aStartReg, h.ii]
    congr 2
    bv_omega
  have hB : (stringB s₀)[j]? = some (s.strB.mem (s.bStartReg + s.jj - 1)) := by
    rw [stringB, getElem?_symbols h.hj, h.strB, h.bStartReg, h.jj]
    congr 2
    bv_omega
  refine ends_block_cons (ends_act (putA_read h.noA _) ?_)
  refine ends_block_cons (ends_act (putB_read (by exact h.noB) _) ?_)
  refine ends_block_cons (ends_act (takeAB_eq rfl rfl) ?_)
  refine ends_block_cons (Ends.imp (Q := fun s' => Written s₀ s s' i j) ?_ fun s' h' => ends_block_nil h')
  have hc : Compared s₀ { s with
      strA := ⟨s.strA.mem, []⟩, strB := ⟨s.strB.mem, []⟩, aData := s.strA.mem (s.aStartReg + s.ii - 1)
      bData := s.strB.mem (s.bStartReg + s.jj - 1) } i j :=
    ⟨⟨⟨⟨h.aStartReg, h.bStartReg, h.aLenReg, h.bLenReg, h.strA, h.strB⟩, ⟨rfl, rfl, h.noL⟩, h.table⟩,
      h.ii, h.jj, h.hi, h.hj⟩, hA, hB⟩
  refine ends_ifte (fun heq => ?_) fun hne => ?_
  · exact (hc.ends_same hfits (of_decide_eq_true heq)).imp fun s' h' => ⟨h'.toFilled, h'.ii, h'.jj⟩
  · exact (hc.ends_different hfits (of_decide_eq_false hne)).imp fun s' h' => ⟨h'.toFilled, h'.ii, h'.jj⟩

/-! ## The rows -/

/-- The counters do not matter between the entries. -/
lemma Filled.set_counters (h : Filled s₀ s i j) (ii jj : BitVec 14) : Filled s₀ { s with ii, jj } i j where
  toKept := ⟨h.aStartReg, h.bStartReg, h.aLenReg, h.bLenReg, h.strA, h.strB⟩
  toIdle := ⟨h.noA, h.noB, h.noL⟩
  table := h.table

/-- The rest of a row. -/
lemma Filled.ends_row (h : Filled s₀ s i 0) (hfits : s₀.Fits) (hii : s.ii = BitVec.ofNat 14 (i + 1))
    (hi : i < s₀.aLenReg.toNat) : row.Ends s fun s' => Filled s₀ s' (i + 1) 0 ∧ s'.ii = s.ii := by
  have hb := hfits.b
  have hstart : Filled s₀ { s with jj := 1 } i 0 := h.set_counters _ _
  have hloop := ends_count (c := fun s => decide (s.jj ≤ s.bLenReg))
    (s := seq entry (.set fun s => { s with jj := s.jj + 1 }))
    (fun j s' => Filled s₀ s' i j ∧ s'.ii = s.ii ∧ s'.jj = BitVec.ofNat 14 (j + 1)) (m := s₀.bLenReg.toNat)
    (fun j hj y hy => ?_) (fun j hj y hy => ?_) (Nat.zero_le _) ⟨hstart, rfl, rfl⟩
  · refine ends_seq (ends_set (hloop.imp fun s' hs' => ⟨?_, hs'.2.1⟩))
    obtain ⟨h, -, -⟩ := hs'
    refine ⟨h.toKept, h.toIdle, fun i' hi' j' hj' hbefore => ?_, h.table.outside⟩
    exact h.table.words i' hi' j' hj' (by omega)
  · obtain ⟨h, -, hjj⟩ := hy
    rw [decide_eq_true_iff, hjj, h.bLenReg]
    exact ofNat_succ_le_iff hj (by omega)
  · obtain ⟨h, hy, hjj⟩ := hy
    have hat : AtEntry s₀ y i j := ⟨h, hy.trans hii, hjj, hi, hj⟩
    refine ends_seq ((hat.ends_entry hfits).imp fun z hz => ends_set ⟨hz.set_counters _ _, hz.ii.trans hy, ?_⟩)
    show z.jj + 1 = _
    rw [hz.jj, hjj, ofNat_add_one]

/-- The rows, each from the one before. -/
lemma Filled.ends_rows (h : Filled s₀ s 0 0) (hfits : s₀.Fits) (hii : s.ii = 1) :
    (loop (fun s => decide (s.ii ≤ s.aLenReg)) (seq row (.set fun s => { s with ii := s.ii + 1 }))).Ends s
      fun s' => Filled s₀ s' s₀.aLenReg.toNat 0 := by
  have ha := hfits.a
  refine (ends_count (fun i s' => Filled s₀ s' i 0 ∧ s'.ii = BitVec.ofNat 14 (i + 1)) (fun i hi y hy => ?_)
    (fun i hi y hy => ?_) (Nat.zero_le _) ⟨h, hii⟩).imp fun s' hs' => hs'.1
  · obtain ⟨h, hii⟩ := hy
    rw [decide_eq_true_iff, hii, h.aLenReg]
    exact ofNat_succ_le_iff hi (by omega)
  · obtain ⟨h, hii⟩ := hy
    refine ends_seq ((h.ends_row hfits hii hi).imp fun z hz => ends_set ⟨hz.1.set_counters _ _, ?_⟩)
    show z.ii + 1 = _
    rw [hz.2, hii, ofNat_add_one]

/-! ## The first row and the first column -/

/-- The words that the two loops do not set to `0`: the last one of the first column, and the first row from the column
that is as far as the other string is long. They have to be `0` before. -/
structure Blank (s : HirschA) : Prop where
  column : s.matL.mem (cell s.aLenReg.toNat 0) = 0
  row : ∀ j, s.aLenReg.toNat ≤ j → j ≤ s.bLenReg.toNat → s.matL.mem (cell 0 j) = 0

/-- The first `n` words of the first column and the first `m` of the first row have been set to `0`. -/
structure Cleared (s₀ s : HirschA) (n m : ℕ) : Prop extends Kept s₀ s, Idle s where
  column : ∀ i ≤ s₀.aLenReg.toNat, i < n ∨ i = s₀.aLenReg.toNat → s.matL.mem (cell i 0) = 0
  row : ∀ j ≤ s₀.bLenReg.toNat, j < m ∨ s₀.aLenReg.toNat ≤ j → s.matL.mem (cell 0 j) = 0
  outside : ∀ x, (∀ i ≤ s₀.aLenReg.toNat, ∀ j ≤ s₀.bLenReg.toNat, x ≠ cell i j) →
    (∀ j < s₀.aLenReg.toNat, x ≠ cell 0 j) → s.matL.mem x = s₀.matL.mem x

lemma update_zero {mem : BitVec 14 → BitVec 16} {x y : BitVec 14} (h : y ≠ x → mem y = 0) :
    Function.update mem x 0 y = 0 := by
  by_cases heq : y = x
  · rw [heq, Function.update_self]
  · rw [Function.update_of_ne heq, h heq]

/-- One more word of the first column. -/
lemma Cleared.setColumn {m : ℕ} (h : Cleared s₀ s n m) (hn : n < s₀.aLenReg.toNat) (ii : BitVec 14) :
    Cleared s₀ { s with matL.mem := Function.update s.matL.mem (cell n 0) 0, ii } (n + 1) m where
  toKept := ⟨h.aStartReg, h.bStartReg, h.aLenReg, h.bLenReg, h.strA, h.strB⟩
  toIdle := ⟨h.noA, h.noB, h.noL⟩
  column := by
    intro i hi hi'
    refine update_zero fun hne => h.column i hi ?_
    have hin : i ≠ n := fun heq => hne (by rw [heq])
    omega
  row := fun j hj hj' => update_zero fun _ => h.row j hj hj'
  outside := by
    intro x hx hrow
    exact (Function.update_of_ne (hx n (Nat.le_of_lt hn) 0 (Nat.zero_le _)) _ _).trans (h.outside x hx hrow)

/-- One more word of the first row. -/
lemma Cleared.setRow {m : ℕ} (h : Cleared s₀ s n m) (hm : m < s₀.aLenReg.toNat) (ii : BitVec 14) :
    Cleared s₀ { s with matL.mem := Function.update s.matL.mem (cell 0 m) 0, ii } n (m + 1) where
  toKept := ⟨h.aStartReg, h.bStartReg, h.aLenReg, h.bLenReg, h.strA, h.strB⟩
  toIdle := ⟨h.noA, h.noB, h.noL⟩
  column := fun i hi hi' => update_zero fun _ => h.column i hi hi'
  row := by
    intro j hj hj'
    refine update_zero fun hne => h.row j hj ?_
    have hjm : j ≠ m := fun heq => hne (by rw [heq])
    omega
  outside := by
    intro x hx hrow
    exact (Function.update_of_ne (hrow m hm) _ _).trans (h.outside x hx hrow)

/-- A loop that sets a word to `0` in each turn. -/
lemma ends_clear {address : HirschA → BitVec 14} (I : ℕ → HirschA → Prop) (hlen : ∀ n s, I n s → s.aLenReg = s₀.aLenReg)
    (hstart : I 0 { s with ii := 0 }) (hturn : ∀ n s, I n s → s.ii = BitVec.ofNat 14 n → n < s₀.aLenReg.toNat →
      I (n + 1) { s with matL.mem := Function.update s.matL.mem (address s) 0, ii := s.ii + 1 }) :
    (clear address).Ends s fun s' => I s₀.aLenReg.toNat s' := by
  refine ends_seq (ends_set ((ends_count (fun n s' => I n s' ∧ s'.ii = BitVec.ofNat 14 n) (fun n hn y hy => ?_)
    (fun n hn y hy => ?_) (Nat.zero_le _) ⟨hstart, rfl⟩).imp fun s' hs' => hs'.1))
  · rw [decide_eq_true_iff, hy.2, hlen n y hy.1]
    exact ofNat_lt_iff hn
  · refine ends_seq (ends_act rfl (ends_set ⟨hturn n y hy.1 hy.2 hn, ?_⟩))
    show y.ii + 1 = _
    rw [hy.2, ofNat_add_one]

lemma Cleared.filled (h : Cleared s₀ s s₀.aLenReg.toNat s₀.aLenReg.toNat) (ii : BitVec 14) :
    Filled s₀ { s with ii } 0 0 where
  toKept := ⟨h.aStartReg, h.bStartReg, h.aLenReg, h.bLenReg, h.strA, h.strB⟩
  toIdle := ⟨h.noA, h.noB, h.noL⟩
  table := by
    refine ⟨fun i hi j hj hbefore => ?_, h.outside⟩
    rcases Nat.eq_zero_or_pos j with rfl | hpos
    · rw [word, tableWord_zero_right]
      exact h.column i hi (by omega)
    · obtain rfl : i = 0 := by omega
      rw [word, tableWord_zero_left]
      exact h.row j hj (by omega)

/-- **Every run ends with the table.** If there are enough rows and columns, and the words that are not set at the beginning
are `0`, then the machine ends, and the entry for `i` and `j` is the length of the longest common subsequences of the first
`i` symbols of the one string and of the first `j` symbols of the other one. Outside of the table only the first row is
changed, the strings are not, and nothing is left on the way. -/
theorem hirschA_computes (s : HirschA) (hs : s.Idle) (hfits : s.Fits) (hblank : s.Blank) :
    hirschA.Ends s fun s' =>
      (∀ i ≤ s.aLenReg.toNat, ∀ j ≤ s.bLenReg.toNat,
        IsGreatest {n | ∃ l : List (BitVec 8), l.Sublist ((symbols s.strA.mem s.aStartReg s.aLenReg).take i) ∧
            l.Sublist ((symbols s.strB.mem s.bStartReg s.bLenReg).take j) ∧ l.length = n}
          (s'.matL.mem (index (BitVec.ofNat 7 i) (BitVec.ofNat 7 j))).toNat) ∧
      (∀ i j : BitVec 7, (s.aLenReg.toNat < i.toNat ∨ s.bLenReg.toNat < j.toNat ∧ (i ≠ 0 ∨ s.aLenReg.toNat ≤ j.toNat)) →
        s'.matL.mem (index i j) = s.matL.mem (index i j)) ∧
      s'.strA = s.strA ∧ s'.strB = s.strB ∧ s'.Idle := by
  have hstart : Cleared s { s with ii := 0 } 0 0 := by
    refine ⟨⟨rfl, rfl, rfl, rfl, rfl, rfl⟩, ⟨hs.noA, hs.noB, hs.noL⟩, fun i hi hi' => ?_, fun j hj hj' => ?_,
      fun _ _ _ => rfl⟩
    · obtain rfl : i = s.aLenReg.toNat := by omega
      exact hblank.column
    · exact hblank.row j (by omega) hj
  have hcolumn : (clear fun s => index (s.ii.setWidth 7) 0).Ends s fun s' => Cleared s s' s.aLenReg.toNat 0 := by
    refine ends_clear (fun n s' => Cleared s s' n 0) (fun n s' h => h.aLenReg) hstart fun n s' h hii hn => ?_
    rw [hii, setWidth_ofNat]
    exact h.setColumn hn _
  have hrow : ∀ y, Cleared s y s.aLenReg.toNat 0 → (clear fun s => index 0 (s.ii.setWidth 7)).Ends y fun s' =>
      Cleared s s' s.aLenReg.toNat s.aLenReg.toNat := by
    intro y hy
    have hfirst : Cleared s { y with ii := 0 } s.aLenReg.toNat 0 :=
      ⟨⟨hy.aStartReg, hy.bStartReg, hy.aLenReg, hy.bLenReg, hy.strA, hy.strB⟩, ⟨hy.noA, hy.noB, hy.noL⟩, hy.column,
        hy.row, hy.outside⟩
    refine ends_clear (fun n s' => Cleared s s' s.aLenReg.toNat n) (fun n s' h => h.aLenReg) hfirst
      fun n s' h hii hn => ?_
    rw [hii, setWidth_ofNat]
    exact h.setRow hn _
  refine ends_block_cons (hcolumn.imp fun y hy => ends_block_cons ((hrow y hy).imp fun z hz => ?_))
  refine ends_block_cons (ends_seq (ends_set (((hz.filled 1).ends_rows hfits rfl).imp fun s' h => ends_block_nil ?_)))
  refine ⟨fun i hi j hj => ?_, fun i j hout => ?_, ?_, ?_, h.toIdle⟩
  · have hword := h.table.words i hi j hj (.inl hi)
    rw [cell] at hword
    rw [hword, word, toNat_tableWord (length_stringA s)]
    exact isGreatest_lcs _ _
  · have ha := hfits.a
    have hb := hfits.b
    refine h.table.outside _ (fun i' hi' j' hj' heq => ?_) fun j' hj' heq => ?_
    · have hij := eq_of_index_eq_cell (by omega) (by omega) heq
      omega
    · have hij := eq_of_index_eq_cell (by omega) (by omega) heq
      have hi : i = 0 := BitVec.eq_of_toNat_eq hij.1
      rcases hout with hlt | ⟨-, hne | hle⟩
      · omega
      · exact hne hi
      · omega
  · exact BramPort.eq_of_responses_nil hs.noA h.noA h.strA
  · exact BramPort.eq_of_responses_nil hs.noB h.noB h.strB

/-- Two strings. -/
def twoStrings : HirschA where
  aStartReg := 0
  bStartReg := 0
  aLenReg := 3
  bLenReg := 3
  ii := 0
  jj := 0
  aData := 0
  bData := 0
  lim1jm1 := 0
  lim1j := 0
  lijm1 := 0
  strA := ⟨fun x => x.setWidth 8, []⟩
  strB := ⟨fun x => (x + 1).setWidth 8, []⟩
  matL := ⟨fun _ => 0, []⟩

/-- The strings `0, 1, 2` and `1, 2, 3` have `1, 2` in common, and `0, 1` and `1, 2` have `1`. -/
theorem hirschA_computes_twoStrings : hirschA.Ends twoStrings fun s' =>
    (s'.matL.mem (index 3 3)).toNat = 2 ∧ (s'.matL.mem (index 2 2)).toNat = 1 ∧ s'.matL.mem (index 2 4) = 0 := by
  have h := hirschA_computes twoStrings ⟨rfl, rfl, rfl⟩ ⟨by decide, by decide⟩ ⟨rfl, fun _ _ _ => rfl⟩
  have hA : symbols twoStrings.strA.mem 0 3 = [0, 1, 2] := by decide
  have hB : symbols twoStrings.strB.mem 0 3 = [1, 2, 3] := by decide
  refine h.imp fun s' hs' => ⟨?_, ?_, hs'.2.1 2 4 (by decide)⟩
  · refine ((hs'.1 3 (by decide) 3 (by decide)).unique (isGreatest_lcs _ _)).trans ?_
    show lcs ((symbols twoStrings.strA.mem 0 3).take 3) ((symbols twoStrings.strB.mem 0 3).take 3) = 2
    rw [hA, hB]
    simp [lcs]
  · refine ((hs'.1 2 (by decide) 2 (by decide)).unique (isGreatest_lcs _ _)).trans ?_
    show lcs ((symbols twoStrings.strA.mem 0 3).take 2) ((symbols twoStrings.strB.mem 0 3).take 2) = 1
    rw [hA, hB]
    simp [lcs]

end HirschA

end Xbsv
