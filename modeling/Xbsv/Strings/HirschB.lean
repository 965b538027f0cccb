import Xbsv.Cores.Bram
import Xbsv.Fsm.Statement
import Xbsv.Strings.Mcs

set_option relaxedAutoImplicit false
set_option autoImplicit false

/-!
# The rows of the table

`mkHirschB` of `examples/maxcommonsubseq`: the lengths of the longest common subsequences of a string and of each beginning
of another one, or, with the strings read backwards, of each end. The table has a row for each symbol of the first string,
of which only the last one is kept; a row is computed in place, from left to right, one column behind the reads.

## Main definitions

* `Xbsv.HirschB`, `Xbsv.hirschB` — the registers and the statement.
* `Xbsv.HirschB.Between`, `Xbsv.HirschB.InRow` — what holds between the rows, and within one.

## Main results

* `Xbsv.HirschB.Between.ends_row` — one row, from the one before.
* `Xbsv.HirschB.hirschB_computes` — every run ends with the lengths.
-/

namespace Xbsv

open Fsm

/-- The registers and the memories of `mkHirschB`. -/
structure HirschB where
  aStartReg : BitVec 14
  bStartReg : BitVec 14
  rStartReg : BitVec 14
  aLenReg : BitVec 14
  bLenReg : BitVec 14
  ii : BitVec 14
  jj : BitVec 14
  aData : BitVec 8
  bData : BitVec 8
  k1j : BitVec 16
  k1jm1 : BitVec 16
  k0j : BitVec 16
  k0jm1 : BitVec 16
  strA : BramPort 14 (BitVec 8)
  strB : BramPort 14 (BitVec 8)
  matL : BramPort 14 (BitVec 16)

namespace HirschB

/-- The requests to the memories. -/
def putA (request : HirschB → BRAMRequest 14 (BitVec 8)) (s : HirschB) : Option HirschB :=
  (s.strA.put (request s)).map fun strA => { s with strA }

def putB (request : HirschB → BRAMRequest 14 (BitVec 8)) (s : HirschB) : Option HirschB :=
  (s.strB.put (request s)).map fun strB => { s with strB }

def putL (request : HirschB → BRAMRequest 14 (BitVec 16)) (s : HirschB) : Option HirschB :=
  (s.matL.put (request s)).map fun matL => { s with matL }

/-- Start a row: read its symbol, the first symbol of the other string and the first word of the row before. -/
def startRow (dir : BitVec 32) : List (HirschB → Option HirschB) :=
  [fun s => some { s with jj := 1 },
    fun s => some { s with k0j := 0 },
    fun s => some { s with k1j := 0 },
    putA fun s => .read (if dir = 1 then s.aStartReg + s.ii - 1 else s.aStartReg + s.aLenReg - s.ii),
    putB fun s => .read (if dir = 1 then s.bStartReg else s.bStartReg + s.bLenReg - 1),
    putL fun s => .read (s.rStartReg + 1)]

/-- The symbol of the row. -/
def takeA (s : HirschB) : Option HirschB := do
  let (ta, strA) ← s.strA.get
  return { s with strA, aData := ta }

/-- What has been read for a column, and the word of the column before. -/
def columnIn (s : HirschB) : Option HirschB := do
  let (tb, strB) ← s.strB.get
  let (tk, matL) ← s.matL.get
  let matL ← matL.put (.write (s.rStartReg + (s.jj - 1)) s.k1j)
  return { s with k0jm1 := s.k0j, k1jm1 := s.k1j, bData := tb, k0j := tk, strB, matL }

/-- The word of the column, and the reads for the next one. -/
def columnOut (dir : BitVec 32) (s : HirschB) : Option HirschB := do
  let strB ← s.strB.put (.read (if dir = 1 then s.bStartReg + s.jj else s.bStartReg + s.bLenReg - s.jj - 1))
  let matL ← s.matL.put (.read (s.rStartReg + (s.jj + 1)))
  let tmp := if s.aData = s.bData then s.k0jm1 + 1 else larger s.k0j s.k1jm1
  return { s with k1j := tmp, jj := s.jj + 1, strB, matL }

/-- The last word of a row. -/
def endRow (s : HirschB) : Option HirschB := do
  let (_, strB) ← s.strB.get
  let (_, matL) ← s.matL.get
  let matL ← matL.put (.write (s.rStartReg + (s.jj - 1)) s.k1j)
  return { s with strB, matL }

/-- The columns of a row. -/
def columns (dir : BitVec 32) : Statement HirschB :=
  .loop (fun s => s.jj ≤ s.bLenReg) (.block [.act columnIn, .act (columnOut dir)])

/-- A row. -/
def row (dir : BitVec 32) : Statement HirschB :=
  .block [.par (startRow dir), .act takeA, columns dir, .act endRow]

end HirschB

open HirschB

/-- The statement `hirschB`. -/
def hirschB (dir : BitVec 32) : Statement HirschB :=
  .block [
    .set fun s => { s with jj := 17 },
    .forLoop (fun s => { s with jj := 0 }) (fun s => s.jj ≤ s.bLenReg) (fun s => { s with jj := s.jj + 1 })
      (.act (putL fun s => .write (s.rStartReg + s.jj) 0)),
    .forLoop (fun s => { s with ii := 1 }) (fun s => s.ii ≤ s.aLenReg) (fun s => { s with ii := s.ii + 1 }) (row dir)]

namespace HirschB

open Statement Strings

/-! ## What is to be computed -/

/-- The symbols of a string in the order in which they are read. -/
def inOrder (dir : BitVec 32) (mem : BitVec 14 → BitVec 8) (start len : BitVec 14) : List (BitVec 8) :=
  (List.range len.toNat).map fun i =>
    mem (if dir = 1 then start + BitVec.ofNat 14 i else start + len - BitVec.ofNat 14 (i + 1))

/-- The strings. -/
def stringA (dir : BitVec 32) (s : HirschB) : List (BitVec 8) := inOrder dir s.strA.mem s.aStartReg s.aLenReg

def stringB (dir : BitVec 32) (s : HirschB) : List (BitVec 8) := inOrder dir s.strB.mem s.bStartReg s.bLenReg

/-- The word for the first `i` and the first `j` symbols. -/
def entry (dir : BitVec 32) (s : HirschB) (i j : ℕ) : BitVec 16 := tableWord (stringA dir s) (stringB dir s) i j

/-- The address of column `j`. -/
def column (s : HirschB) (j : ℕ) : BitVec 14 := s.rStartReg + BitVec.ofNat 14 j

variable {dir : BitVec 32} {s₀ s s' : HirschB} {i j : ℕ}

lemma length_inOrder (mem : BitVec 14 → BitVec 8) (start len : BitVec 14) :
    (inOrder dir mem start len).length = len.toNat := by
  rw [inOrder, List.length_map, List.length_range]

lemma length_stringA (dir : BitVec 32) (s : HirschB) : (stringA dir s).length < 2 ^ 14 := by
  rw [stringA, length_inOrder]
  exact s.aLenReg.isLt

lemma entry_zero_left (j : ℕ) : entry dir s 0 j = 0 := tableWord_zero_left j

lemma entry_zero_right (i : ℕ) : entry dir s i 0 = 0 := tableWord_zero_right i

/-- Different columns are at different addresses. -/
lemma column_inj {j' : ℕ} (hj : j < 2 ^ 14) (hj' : j' < 2 ^ 14) (h : s.column j = s.column j') : j = j' := by
  rw [column, column, BitVec.add_right_inj] at h
  have heq := congrArg BitVec.toNat h
  rwa [BitVec.toNat_ofNat, BitVec.toNat_ofNat, Nat.mod_eq_of_lt hj, Nat.mod_eq_of_lt hj'] at heq

lemma getElem?_inOrder {mem : BitVec 14 → BitVec 8} {start len : BitVec 14} (h : i < len.toNat) :
    (inOrder dir mem start len)[i]? =
      some (mem (if dir = 1 then start + BitVec.ofNat 14 i else start + len - BitVec.ofNat 14 (i + 1))) := by
  rw [inOrder, List.getElem?_map, List.getElem?_range h]
  rfl

/-! ## What holds in between -/

/-- What the machine does not change. -/
structure Kept (s₀ s : HirschB) : Prop where
  aStartReg : s.aStartReg = s₀.aStartReg
  bStartReg : s.bStartReg = s₀.bStartReg
  rStartReg : s.rStartReg = s₀.rStartReg
  aLenReg : s.aLenReg = s₀.aLenReg
  bLenReg : s.bLenReg = s₀.bLenReg
  strA : s.strA.mem = s₀.strA.mem
  strB : s.strB.mem = s₀.strB.mem
  outside : ∀ x, (∀ j ≤ s₀.bLenReg.toNat, x ≠ s₀.column j) → s.matL.mem x = s₀.matL.mem x

/-- Nothing is on the way to the memories. -/
structure Idle (s : HirschB) : Prop where
  noA : s.strA.responses = []
  noB : s.strB.responses = []
  noL : s.matL.responses = []

/-- Between the rows: `i` of them have been computed. -/
structure Between (dir : BitVec 32) (s₀ s : HirschB) (i : ℕ) : Prop extends Kept s₀ s, Idle s where
  words : ∀ j ≤ s₀.bLenReg.toNat, s.matL.mem (s₀.column j) = entry dir s₀ i j

/-- In row `i + 1`: `j` columns have been computed after the first one, of which the last is still to be written. -/
structure InRow (dir : BitVec 32) (s₀ s : HirschB) (i j : ℕ) : Prop extends Kept s₀ s where
  ii : s.ii = BitVec.ofNat 14 (i + 1)
  jj : s.jj = BitVec.ofNat 14 (j + 1)
  le : j ≤ s₀.bLenReg.toNat
  noA : s.strA.responses = []
  aData : (stringA dir s₀)[i]? = some s.aData
  nextB : ∃ y, s.strB.responses = [y] ∧ (j < s₀.bLenReg.toNat → (stringB dir s₀)[j]? = some y)
  nextL : ∃ w, s.matL.responses = [w] ∧ (j < s₀.bLenReg.toNat → w = entry dir s₀ i (j + 1))
  k0j : s.k0j = entry dir s₀ i j
  k1j : s.k1j = entry dir s₀ (i + 1) j
  new : ∀ j' < j, s.matL.mem (s₀.column j') = entry dir s₀ (i + 1) j'
  old : ∀ j', j ≤ j' → j' ≤ s₀.bLenReg.toNat → s.matL.mem (s₀.column j') = entry dir s₀ i j'

/-! ## A row -/

lemma toNat_lt_of_ne_allOnes {x : BitVec 14} (h : x ≠ BitVec.allOnes 14) : x.toNat < 2 ^ 14 - 1 := by
  have hlt := x.isLt
  have hne : x.toNat ≠ 2 ^ 14 - 1 := fun heq => h (BitVec.eq_of_toNat_eq heq)
  omega

/-- The state at the start of a row, with its first symbol read. -/
def started (dir : BitVec 32) (s : HirschB) : HirschB :=
  { s with
    jj := 1
    k0j := 0
    k1j := 0
    aData := s.strA.mem (if dir = 1 then s.aStartReg + s.ii - 1 else s.aStartReg + s.aLenReg - s.ii)
    strA.responses := []
    strB.responses := [s.strB.mem (if dir = 1 then s.bStartReg else s.bStartReg + s.bLenReg - 1)]
    matL.responses := [s.matL.mem (s.rStartReg + 1)] }

/-- No two of the first actions of a row interfere. -/
lemma pairwise_commute_startRow (dir : BitVec 32) : (startRow dir).Pairwise Statement.Commute := by
  simp only [startRow, List.pairwise_cons, List.mem_cons, List.not_mem_nil, or_false, forall_eq_or_imp, forall_eq,
    IsEmpty.forall_iff, implies_true, List.Pairwise.nil, and_true]
  refine ⟨⟨?_, ?_, ?_, ?_, ?_⟩, ⟨?_, ?_, ?_, ?_⟩, ⟨?_, ?_, ?_⟩, ⟨?_, ?_⟩, ?_⟩
  all_goals
    intro s
    by_cases hA : s.strA.responses.length < 3 <;> by_cases hB : s.strB.responses.length < 3 <;>
      by_cases hL : s.matL.responses.length < 3 <;> simp [putA, putB, putL, BramPort.put, hA, hB, hL]

/-- The first actions, one after the other, and the symbol of the row. -/
lemma startRow_takeA (dir : BitVec 32) (hs : s.Idle) :
    (inTurn (startRow dir) s).bind takeA = some (started dir s) := by
  simp [inTurn, startRow, putA, putB, putL, takeA, started, BramPort.put_read, BramPort.get, hs.noA, hs.noB, hs.noL]

/-- The addresses of the symbols. -/
lemma address_aData (start len : BitVec 14) (i : ℕ) :
    (if dir = 1 then start + BitVec.ofNat 14 (i + 1) - 1 else start + len - BitVec.ofNat 14 (i + 1)) =
      if dir = 1 then start + BitVec.ofNat 14 i else start + len - BitVec.ofNat 14 (i + 1) := by
  split
  case isTrue => bv_omega
  case isFalse => rfl

/-- A row starts in its first column. -/
lemma Between.started (h : Between dir s₀ s i) (hii : s.ii = BitVec.ofNat 14 (i + 1)) (hi : i < s₀.aLenReg.toNat) :
    InRow dir s₀ (started dir s) i 0 where
  toKept := ⟨h.aStartReg, h.bStartReg, h.rStartReg, h.aLenReg, h.bLenReg, h.strA, h.strB, h.outside⟩
  ii := hii
  jj := rfl
  le := Nat.zero_le _
  noA := rfl
  aData := by
    rw [stringA, getElem?_inOrder hi, HirschB.started, hii, h.strA, h.aStartReg, h.aLenReg, address_aData]
  nextB := by
    refine ⟨_, rfl, fun hlt => ?_⟩
    rw [stringB, getElem?_inOrder hlt, h.strB, h.bStartReg, h.bLenReg]
    simp
  nextL := by
    refine ⟨_, rfl, fun hlt => ?_⟩
    rw [h.rStartReg]
    exact h.words 1 hlt
  k0j := (entry_zero_right _).symm
  k1j := (entry_zero_right _).symm
  new := fun j' hj' => absurd hj' (Nat.not_lt_zero _)
  old := fun j' _ hj' => h.words j' hj'

/-- The row in place, when the word of column `j` has been written. -/
structure Written (dir : BitVec 32) (s₀ : HirschB) (i j : ℕ) (mem : BitVec 14 → BitVec 16) : Prop where
  new : ∀ j' ≤ j, mem (s₀.column j') = entry dir s₀ (i + 1) j'
  old : ∀ j', j < j' → j' ≤ s₀.bLenReg.toNat → mem (s₀.column j') = entry dir s₀ i j'
  outside : ∀ x, (∀ j ≤ s₀.bLenReg.toNat, x ≠ s₀.column j) → mem x = s₀.matL.mem x

/-- The address at which a word is written. -/
lemma InRow.address_write (h : InRow dir s₀ s i j) : s.rStartReg + (s.jj - 1) = s₀.column j := by
  rw [h.rStartReg, h.jj, column]
  bv_omega

/-- The address from which the next one is read. -/
lemma InRow.address_read (h : InRow dir s₀ s i j) : s.rStartReg + (s.jj + 1) = s₀.column (j + 2) := by
  rw [h.rStartReg, h.jj, column]
  bv_omega

lemma InRow.written (h : InRow dir s₀ s i j) :
    Written dir s₀ i j (Function.update s.matL.mem (s.rStartReg + (s.jj - 1)) s.k1j) := by
  have hlen := s₀.bLenReg.isLt
  have hle := h.le
  rw [h.address_write]
  constructor
  case new =>
    intro j' hj'
    rcases Nat.eq_or_lt_of_le hj' with rfl | hlt
    · rw [Function.update_self, h.k1j]
    · rw [Function.update_of_ne, h.new j' hlt]
      intro heq
      have hcol := column_inj (by omega) (by omega) heq
      omega
  case old =>
    intro j' hlt hj'
    rw [Function.update_of_ne, h.old j' (Nat.le_of_lt hlt) hj']
    intro heq
    have hcol := column_inj (by omega) (by omega) heq
    omega
  case outside =>
    intro x hx
    rw [Function.update_of_ne (hx j hle), h.outside x hx]

/-- The address of the next symbol of the other string. -/
lemma InRow.address_bData (h : InRow dir s₀ s i j) :
    (if dir = 1 then s.bStartReg + s.jj else s.bStartReg + s.bLenReg - s.jj - 1) =
      if dir = 1 then s₀.bStartReg + BitVec.ofNat 14 (j + 1)
      else s₀.bStartReg + s₀.bLenReg - BitVec.ofNat 14 (j + 1 + 1) := by
  rw [h.bStartReg, h.bLenReg, h.jj]
  split
  case isTrue => rfl
  case isFalse => bv_omega

/-- The state with what has been read for a column. -/
def columnRead (b : BitVec 8) (w : BitVec 16) (s : HirschB) : HirschB :=
  { s with
    k0jm1 := s.k0j
    k1jm1 := s.k1j
    bData := b
    k0j := w
    strB.responses := []
    matL := ⟨Function.update s.matL.mem (s.rStartReg + (s.jj - 1)) s.k1j, []⟩ }

/-- The state with the word of a column, and the next one asked for. -/
def columnDone (dir : BitVec 32) (s : HirschB) : HirschB :=
  { s with
    k1j := if s.aData = s.bData then s.k0jm1 + 1 else larger s.k0j s.k1jm1
    jj := s.jj + 1
    strB.responses := [s.strB.mem (if dir = 1 then s.bStartReg + s.jj else s.bStartReg + s.bLenReg - s.jj - 1)]
    matL.responses := [s.matL.mem (s.rStartReg + (s.jj + 1))] }

/-- The state after a row. -/
def rowDone (s : HirschB) : HirschB :=
  { s with
    strB.responses := []
    matL := ⟨Function.update s.matL.mem (s.rStartReg + (s.jj - 1)) s.k1j, []⟩ }

lemma columnIn_eq {b : BitVec 8} {w : BitVec 16} (hb : s.strB.responses = [b]) (hw : s.matL.responses = [w]) :
    columnIn s = some (columnRead b w s) := by
  simp [columnIn, columnRead, BramPort.get_of_cons hb, BramPort.get_of_cons hw]

lemma columnOut_eq (hB : s.strB.responses = []) (hL : s.matL.responses = []) :
    columnOut dir s = some (columnDone dir s) := by
  simp [columnOut, columnDone, BramPort.put_read hB, BramPort.put_read hL]

lemma endRow_eq {b : BitVec 8} {w : BitVec 16} (hb : s.strB.responses = [b]) (hw : s.matL.responses = [w]) :
    endRow s = some (rowDone s) := by
  simp [endRow, rowDone, BramPort.get_of_cons hb, BramPort.get_of_cons hw]

/-- A column. -/
lemma InRow.columnDone {b : BitVec 8} {w : BitVec 16} (h : InRow dir s₀ s i j) (hj : j < s₀.bLenReg.toNat)
    (hb : (stringB dir s₀)[j]? = some b) (hw : w = entry dir s₀ i (j + 1)) :
    InRow dir s₀ (columnDone dir (columnRead b w s)) i (j + 1) := by
  have hmem := h.written
  constructor
  case toKept => exact ⟨h.aStartReg, h.bStartReg, h.rStartReg, h.aLenReg, h.bLenReg, h.strA, h.strB, hmem.outside⟩
  case ii => exact h.ii
  case jj =>
    show s.jj + 1 = _
    rw [h.jj]
    bv_omega
  case le => exact hj
  case noA => exact h.noA
  case aData => exact h.aData
  case nextB =>
    refine ⟨_, rfl, fun hlt => ?_⟩
    simp only [columnRead]
    rw [h.address_bData, stringB, getElem?_inOrder hlt, h.strB]
  case nextL =>
    refine ⟨_, rfl, fun hlt => ?_⟩
    simp only [columnRead]
    rw [h.address_read]
    exact hmem.old (j + 2) (by omega) hlt
  case k0j => exact hw
  case k1j =>
    show (if s.aData = b then s.k0j + 1 else larger w s.k1j) = _
    rw [entry, tableWord_succ (length_stringA dir s₀) h.aData hb, h.k0j, h.k1j, hw]
    rfl
  case new => exact fun j' hlt => hmem.new j' (Nat.le_of_lt_succ hlt)
  case old => exact fun j' hle hj' => hmem.old j' hle hj'

/-- The end of a row. -/
lemma InRow.rowDone (h : InRow dir s₀ s i s₀.bLenReg.toNat) : Between dir s₀ (rowDone s) (i + 1) := by
  have hmem := h.written
  constructor
  case toKept => exact ⟨h.aStartReg, h.bStartReg, h.rStartReg, h.aLenReg, h.bLenReg, h.strA, h.strB, hmem.outside⟩
  case toIdle => exact ⟨h.noA, rfl, rfl⟩
  case words => exact hmem.new

/-- Whether there is a further column. -/
lemma InRow.jj_le_iff (h : InRow dir s₀ s i j) (hlen : s₀.bLenReg ≠ BitVec.allOnes 14) :
    s.jj ≤ s.bLenReg ↔ j < s₀.bLenReg.toNat := by
  rw [h.jj, h.bLenReg]
  exact ofNat_succ_le_iff h.le (toNat_lt_of_ne_allOnes hlen)

/-- The columns of a row. -/
lemma InRow.ends_columns (h : InRow dir s₀ s i j) (hlen : s₀.bLenReg ≠ BitVec.allOnes 14) :
    (columns dir).Ends s fun s' => InRow dir s₀ s' i s₀.bLenReg.toNat := by
  refine ends_count (fun j s' => InRow dir s₀ s' i j) (fun j _ s' h => ?_) (fun j hj s' h => ?_) h.le h
  · rw [decide_eq_true_iff]
    exact h.jj_le_iff hlen
  · obtain ⟨b, hb, hb'⟩ := h.nextB
    obtain ⟨w, hw, hw'⟩ := h.nextL
    refine ends_block_cons (ends_act (columnIn_eq hb hw) ?_)
    refine ends_block_cons (ends_act (columnOut_eq rfl rfl) ?_)
    exact ends_block_nil (h.columnDone hj (hb' hj) (hw' hj))

/-- **A row.** -/
theorem Between.ends_row (h : Between dir s₀ s i) (hlen : s₀.bLenReg ≠ BitVec.allOnes 14)
    (hii : s.ii = BitVec.ofNat 14 (i + 1)) (hi : i < s₀.aLenReg.toNat) :
    (row dir).Ends s fun s' => Between dir s₀ s' (i + 1) ∧ s'.ii = s.ii := by
  obtain ⟨y, hpar, htake⟩ := Option.bind_eq_some_iff.mp (startRow_takeA dir h.toIdle)
  refine ends_block_cons (ends_par (pairwise_commute_startRow dir) hpar ?_)
  refine ends_block_cons (ends_act htake ?_)
  refine ends_block_cons (((h.started hii hi).ends_columns hlen).imp fun s' h' => ?_)
  obtain ⟨b, hb, -⟩ := h'.nextB
  obtain ⟨w, hw, -⟩ := h'.nextL
  refine ends_block_cons (ends_act (endRow_eq hb hw) ?_)
  exact ends_block_nil ⟨h'.rowDone, h'.ii.trans hii.symm⟩

/-! ## The whole statement -/

/-- The words of the row that is set to `0` at the beginning, before column `j`. -/
structure Clearing (s₀ s : HirschB) (j : ℕ) : Prop extends Kept s₀ s, Idle s where
  jj : s.jj = BitVec.ofNat 14 j
  le : j ≤ s₀.bLenReg.toNat + 1
  zero : ∀ j' < j, s.matL.mem (s₀.column j') = 0

lemma Clearing.next (h : Clearing s₀ s j) (hj : j ≤ s₀.bLenReg.toNat) :
    Clearing s₀ { s with matL.mem := Function.update s.matL.mem (s.rStartReg + s.jj) 0, jj := s.jj + 1 } (j + 1) := by
  have hlen := s₀.bLenReg.isLt
  have hcol : s.rStartReg + s.jj = s₀.column j := by rw [h.rStartReg, h.jj, column]
  rw [hcol]
  constructor
  case toKept =>
    refine ⟨h.aStartReg, h.bStartReg, h.rStartReg, h.aLenReg, h.bLenReg, h.strA, h.strB, fun x hx => ?_⟩
    exact (Function.update_of_ne (hx j hj) _ _).trans (h.outside x hx)
  case jj =>
    show s.jj + 1 = _
    rw [h.jj, ofNat_add_one]
  case le => exact Nat.succ_le_succ hj
  case toIdle => exact ⟨h.noA, h.noB, h.noL⟩
  case zero =>
    intro j' hlt
    rcases Nat.eq_or_lt_of_le (Nat.le_of_lt_succ hlt) with rfl | hlt
    · exact Function.update_self _ _ _
    · refine (Function.update_of_ne ?_ _ _).trans (h.zero j' hlt)
      intro heq
      have hinj := column_inj (by omega) (by omega) heq
      omega

/-- Whether there is a further word to be set. -/
lemma Clearing.jj_le_iff (h : Clearing s₀ s j) (hlen : s₀.bLenReg ≠ BitVec.allOnes 14) :
    s.jj ≤ s.bLenReg ↔ j < s₀.bLenReg.toNat + 1 := by
  rw [h.jj, h.bLenReg]
  exact ofNat_le_iff h.le (toNat_lt_of_ne_allOnes hlen)

lemma Clearing.between (h : Clearing s₀ s (s₀.bLenReg.toNat + 1)) : Between dir s₀ s 0 where
  toKept := h.toKept
  noA := h.noA
  noB := h.noB
  noL := h.noL
  words := fun j hj => (h.zero j (Nat.lt_succ_of_le hj)).trans (entry_zero_left j).symm

/-- The first loop. -/
lemma Clearing.ends (dir : BitVec 32) (h : Clearing s₀ s 0) (hlen : s₀.bLenReg ≠ BitVec.allOnes 14) :
    (loop (fun s : HirschB => decide (s.jj ≤ s.bLenReg))
      (seq (act (putL fun s => .write (s.rStartReg + s.jj) 0)) (.set fun s => { s with jj := s.jj + 1 }))).Ends s
      fun s' => Between dir s₀ s' 0 := by
  refine (ends_count (fun j s' => Clearing s₀ s' j) (fun j _ s' h => ?_) (fun j hj s' h => ?_) (Nat.zero_le _) h).imp
    fun s' h => h.between
  · rw [decide_eq_true_iff]
    exact h.jj_le_iff hlen
  · exact ends_seq (ends_act rfl (ends_set (h.next (Nat.le_of_lt_succ hj))))

lemma Between.set_ii (h : Between dir s₀ s i) (n : BitVec 14) : Between dir s₀ { s with ii := n } i where
  toKept := ⟨h.aStartReg, h.bStartReg, h.rStartReg, h.aLenReg, h.bLenReg, h.strA, h.strB, h.outside⟩
  noA := h.noA
  noB := h.noB
  noL := h.noL
  words := h.words

/-- The rows, each from the one before. -/
lemma Between.ends_rows (h : Between dir s₀ s 0) (hlenA : s₀.aLenReg ≠ BitVec.allOnes 14)
    (hlenB : s₀.bLenReg ≠ BitVec.allOnes 14) (hii : s.ii = 1) :
    (loop (fun s => decide (s.ii ≤ s.aLenReg)) (seq (row dir) (.set fun s => { s with ii := s.ii + 1 }))).Ends s
      fun s' => Between dir s₀ s' s₀.aLenReg.toNat := by
  refine (ends_count (fun i s' => Between dir s₀ s' i ∧ s'.ii = BitVec.ofNat 14 (i + 1)) (fun i hi s' h => ?_)
    (fun i hi s' h => ?_) (Nat.zero_le _) ⟨h, hii⟩).imp fun s' h => h.1
  · obtain ⟨h, hii⟩ := h
    rw [decide_eq_true_iff, hii, h.aLenReg]
    exact ofNat_succ_le_iff hi (toNat_lt_of_ne_allOnes hlenA)
  · obtain ⟨h, hii⟩ := h
    refine ends_seq ((h.ends_row hlenB hii hi).imp fun y hy => ends_set ⟨hy.1.set_ii _, ?_⟩)
    show y.ii + 1 = _
    rw [hy.2, hii, ofNat_add_one]

/-- All runs of the statement, in terms of the table. -/
lemma ends_hirschB (hs : s.Idle) (hlenA : s.aLenReg ≠ BitVec.allOnes 14) (hlenB : s.bLenReg ≠ BitVec.allOnes 14) :
    (hirschB dir).Ends s fun s' => Between dir s s' s.aLenReg.toNat := by
  have hclear : Clearing s { s with jj := 0 } 0 :=
    ⟨⟨rfl, rfl, rfl, rfl, rfl, rfl, rfl, fun _ _ => rfl⟩, ⟨hs.noA, hs.noB, hs.noL⟩, rfl, Nat.zero_le _,
      fun j' hj' => absurd hj' (Nat.not_lt_zero _)⟩
  refine ends_block_cons (ends_set (ends_block_cons (ends_seq (ends_set ?_))))
  refine (hclear.ends dir hlenB).imp fun y hy => ends_block_cons (ends_seq (ends_set ?_))
  exact ((hy.set_ii 1).ends_rows hlenA hlenB rfl).imp fun z hz => ends_block_nil hz

lemma inOrder_eq (mem : BitVec 14 → BitVec 8) (start len : BitVec 14) :
    inOrder dir mem start len = if dir = 1 then symbols mem start len else (symbols mem start len).reverse := by
  split
  case isTrue hdir => simp only [inOrder, symbols, if_pos hdir]
  case isFalse hdir =>
    apply List.ext_getElem
    · rw [length_inOrder, List.length_reverse, length_symbols]
    · intro i hi _
      rw [length_inOrder] at hi
      have haddress : start + len - BitVec.ofNat 14 (i + 1) = start + BitVec.ofNat 14 (len.toNat - 1 - i) := by
        bv_omega
      simp only [inOrder, symbols, List.getElem_reverse, List.getElem_map, List.getElem_range, List.length_map,
        List.length_range, if_neg hdir, haddress]

/-- What a word is, in terms of the strings as they are in the memory. -/
lemma toNat_entry_aLenReg (j : ℕ) :
    (entry dir s s.aLenReg.toNat j).toNat = lcs (symbols s.strA.mem s.aStartReg s.aLenReg)
      (if dir = 1 then (symbols s.strB.mem s.bStartReg s.bLenReg).take j
        else (symbols s.strB.mem s.bStartReg s.bLenReg).drop (s.bLenReg.toNat - j)) := by
  have hall : (stringA dir s).take s.aLenReg.toNat = stringA dir s :=
    List.take_of_length_le (Nat.le_of_eq (length_inOrder _ _ _))
  rw [entry, toNat_tableWord (length_stringA dir s), hall, stringA, stringB, inOrder_eq, inOrder_eq]
  split
  case isTrue => rfl
  case isFalse =>
    rw [← lcs_reverse, List.reverse_reverse, List.take_reverse, List.reverse_reverse, length_symbols]

/-- **Every run ends with the lengths of the longest common subsequences.** For strings of up to `2 ^ 14 - 2` symbols, the
machine ends whatever the order in which it does what it does at the same time. The word at `j` is then the length of the
longest common subsequences of the one string and of the first `j` symbols of the other one, or of its last `j` symbols
where the strings are read backwards. No other word is changed, the strings are not, and nothing is left on the way. -/
theorem hirschB_computes (dir : BitVec 32) (s : HirschB) (hs : s.Idle) (hlenA : s.aLenReg ≠ BitVec.allOnes 14)
    (hlenB : s.bLenReg ≠ BitVec.allOnes 14) :
    (hirschB dir).Ends s fun s' =>
      (∀ j ≤ s.bLenReg.toNat,
        IsGreatest {n | ∃ l : List (BitVec 8), l.Sublist (symbols s.strA.mem s.aStartReg s.aLenReg) ∧
            l.Sublist (if dir = 1 then (symbols s.strB.mem s.bStartReg s.bLenReg).take j
              else (symbols s.strB.mem s.bStartReg s.bLenReg).drop (s.bLenReg.toNat - j)) ∧ l.length = n}
          (s'.matL.mem (s.rStartReg + BitVec.ofNat 14 j)).toNat) ∧
      (∀ x, (∀ j ≤ s.bLenReg.toNat, x ≠ s.rStartReg + BitVec.ofNat 14 j) → s'.matL.mem x = s.matL.mem x) ∧
      s'.strA = s.strA ∧ s'.strB = s.strB ∧ s'.Idle := by
  refine (ends_hirschB hs hlenA hlenB).imp fun s' h => ⟨fun j hj => ?_, h.outside, ?_, ?_, h.toIdle⟩
  · have hword := h.words j hj
    rw [column] at hword
    rw [hword, toNat_entry_aLenReg]
    exact isGreatest_lcs _ _
  · exact BramPort.eq_of_responses_nil hs.noA h.noA h.strA
  · exact BramPort.eq_of_responses_nil hs.noB h.noB h.strB

/-- Two strings, one of which is to be read from its end. -/
def twoStrings : HirschB where
  aStartReg := 0
  bStartReg := 0
  rStartReg := 7
  aLenReg := 3
  bLenReg := 3
  ii := 0
  jj := 0
  aData := 0
  bData := 0
  k1j := 0
  k1jm1 := 0
  k0j := 0
  k0jm1 := 0
  strA := ⟨fun x => x.setWidth 8, []⟩
  strB := ⟨fun x => (x + 1).setWidth 8, []⟩
  matL := ⟨fun _ => 0, []⟩

/-- The strings `0, 1, 2` and `1, 2, 3` have `1, 2` in common, and `1, 2` and `2` with the ends of the second one. -/
theorem hirschB_computes_twoStrings : (hirschB 0).Ends twoStrings fun s' =>
    (s'.matL.mem 10).toNat = 2 ∧ (s'.matL.mem 9).toNat = 1 ∧ s'.matL.mem 11 = 0 := by
  have h := hirschB_computes 0 twoStrings ⟨rfl, rfl, rfl⟩ (by decide) (by decide)
  have hA : symbols twoStrings.strA.mem 0 3 = [0, 1, 2] := by decide
  have hB : symbols twoStrings.strB.mem 0 3 = [1, 2, 3] := by decide
  refine h.imp fun s' hs' => ⟨?_, ?_, hs'.2.1 11 (by decide)⟩
  · refine ((hs'.1 3 (by decide)).unique (isGreatest_lcs _ _)).trans ?_
    show lcs (symbols twoStrings.strA.mem 0 3) ((symbols twoStrings.strB.mem 0 3).drop 0) = 2
    rw [hA, hB]
    simp [lcs]
  · refine ((hs'.1 2 (by decide)).unique (isGreatest_lcs _ _)).trans ?_
    show lcs (symbols twoStrings.strA.mem 0 3) ((symbols twoStrings.strB.mem 0 3).drop 1) = 1
    rw [hA, hB]
    simp [lcs]

end HirschB

end Xbsv
