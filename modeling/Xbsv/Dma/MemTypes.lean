import Mathlib.Data.BitVec
import Mathlib.Tactic.Common

set_option relaxedAutoImplicit false
set_option autoImplicit false

/-!
# Requests, data and errors of the DMA subsystem

The records of `MemTypes.bsv` and the error codes of `PortalMemory.bsv` that the modelled
modules exchange. Fields have the widths of the source.

## Main definitions

* `Xbsv.ObjectRequest` — a client's request: object pointer, offset, burst length and tag.
* `Xbsv.MemRequest`, `Xbsv.ObjectData` — a request and a data beat on the memory side.
* `Xbsv.DmaErrorType`, `Xbsv.DmaError` — the reported errors.
* `Xbsv.tlog` — `TLog`, the rounded-up binary logarithm of Bluespec's numeric types.
-/

namespace Xbsv

/-- A request of a client (`ObjectRequest`): `burstLen` counts bytes. -/
@[ext]
structure ObjectRequest where
  pointer : BitVec 32
  offset : BitVec 40
  burstLen : BitVec 8
  tag : BitVec 6
  deriving DecidableEq, Repr

/-- A request to the memory (`MemRequest`), its address translated and its tag renamed. -/
@[ext]
structure MemRequest (addrWidth : ℕ) where
  addr : BitVec addrWidth
  burstLen : BitVec 8
  tag : BitVec 6
  deriving DecidableEq, Repr

/-- One beat of data (`ObjectData`, and `MemData` under its other name). -/
@[ext]
structure ObjectData (dataWidth : ℕ) where
  data : BitVec dataWidth
  tag : BitVec 6
  last : Bool
  deriving DecidableEq, Repr

/-- The error codes of `PortalMemory.bsv`, in the order of their encoding. -/
inductive DmaErrorType
  | none | badPointer1 | badPointer2 | badPointer3 | badPointer4 | badPointer5
  | badAddrTrans | badPageSize | badNumberEntries | badAddr | tagMismatch
  deriving DecidableEq, Repr

/-- An entry of a `dmaErrorFifo`. -/
@[ext]
structure DmaError where
  errorType : DmaErrorType
  pref : BitVec 32
  deriving DecidableEq, Repr

/-- `TLog#(n)`: the least `k` with `n ≤ 2 ^ k`. -/
def tlog (n : ℕ) : ℕ := if n ≤ 1 then 0 else Nat.log2 (n - 1) + 1

/-- `tlog n` bits are enough for `n` values. -/
lemma le_two_pow_tlog (n : ℕ) : n ≤ 2 ^ tlog n := by
  unfold tlog
  split
  · simpa using ‹n ≤ 1›
  · have h := Nat.lt_log2_self (n := n - 1)
    omega

/-- A number that is not a power of two is itself one of the values. -/
lemma lt_two_pow_tlog {n : ℕ} (h : ¬ ∃ k, n = 2 ^ k) : n < 2 ^ tlog n := by
  have hle := le_two_pow_tlog n
  have hne : n ≠ 2 ^ tlog n := fun he => h ⟨_, he⟩
  omega

/-- No smaller power of two would do. -/
lemma two_pow_tlog_lt {n : ℕ} (h : 1 < n) : 2 ^ tlog n < 2 * n := by
  have hle := Nat.log2_self_le (n := n - 1) (by omega)
  rw [tlog, if_neg (by omega), pow_succ]
  omega

/-- On powers of two `tlog` is the exponent. -/
@[simp] lemma tlog_two_pow (k : ℕ) : tlog (2 ^ k) = k := by
  unfold tlog
  cases k with
  | zero => simp
  | succ k =>
    have hpos : 0 < 2 ^ k := Nat.two_pow_pos k
    have hle : ¬ 2 ^ (k + 1) ≤ 1 := by rw [pow_succ]; omega
    rw [if_neg hle]
    congr 1
    rw [Nat.log2_eq_iff (by rw [pow_succ]; omega)]
    rw [pow_succ]
    omega

end Xbsv
