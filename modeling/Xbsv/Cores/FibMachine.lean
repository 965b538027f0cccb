import Mathlib.Data.Nat.Fib.Basic
import Mathlib.Tactic.Common

set_option relaxedAutoImplicit false
set_option autoImplicit false

/-!
# Fibonacci numbers by calls and returns

What the two designs in `examples/fib` do, apart from where they keep their frames: the recursion

```
fib(n):
  if n == 0 return 0
  if n == 1 return 1
  tmp1 = fib(n-1)
  tmp2 = fib(n-2)
  return tmp1 + tmp2
```

with a stack of what is still to be done with the results. The words have 16 bits.

## Main definitions

* `Xbsv.FibConfig`, `Xbsv.FibConfig.step` — a machine that calls and returns.
* `Xbsv.FibConfig.value` — what it is going to return.
* `Xbsv.FibConfig.left` — how many steps it is going to make.
* `Xbsv.FibConfig.Fits` — the stack stays within a depth.

## Main results

* `Xbsv.FibConfig.value_step`, `Xbsv.FibConfig.left_step`, `Xbsv.FibConfig.Fits.step` — what a step does to them.
-/

namespace Xbsv

/-- The Fibonacci number, as a word. -/
def fibWord (n : ℕ) : BitVec 16 := BitVec.ofNat 16 (Nat.fib n)

lemma fibWord_add_two (n : ℕ) : fibWord (n + 1) + fibWord n = fibWord (n + 2) := by
  rw [fibWord, fibWord, fibWord, Nat.fib_add_two, BitVec.ofNat_add, BitVec.add_comm]

/-- The Fibonacci number of the low 16 bits of an argument, as it is indicated. -/
def fibAnswer (v : BitVec 32) : BitVec 32 := (fibWord (v.setWidth 16).toNat).setWidth 32

/-- Arguments above 1 are neither 0 nor 1 as words. -/
lemma ofNat_add_two_ne {n : ℕ} (hn : n + 2 < 2 ^ 16) : BitVec.ofNat 16 (n + 2) ≠ 0 ∧ BitVec.ofNat 16 (n + 2) ≠ 1 := by
  rw [Ne, Ne, ← BitVec.toNat_inj, ← BitVec.toNat_inj, BitVec.toNat_ofNat, Nat.mod_eq_of_lt hn]
  exact ⟨Nat.succ_ne_zero _, fun he => absurd (Nat.succ.inj he) (Nat.succ_ne_zero _)⟩

/-- The argument of the first call. -/
lemma ofNat_add_two_sub_one (n : ℕ) : BitVec.ofNat 16 (n + 2) - 1 = BitVec.ofNat 16 (n + 1) := by
  rw [BitVec.ofNat_add (n + 1) 1]
  exact BitVec.add_sub_cancel _ _

/-- The argument of the second call. -/
lemma ofNat_sub_two {n : ℕ} (hn : 2 ≤ n) : BitVec.ofNat 16 n - 2 = BitVec.ofNat 16 (n - 2) := by
  obtain ⟨m, rfl⟩ : ∃ m, n = m + 2 := ⟨n - 2, by omega⟩
  rw [BitVec.ofNat_add m 2, Nat.add_sub_cancel]
  exact BitVec.add_sub_cancel _ _

/-- What is done with a result: it is `tmp1` of the call for `n`, or it is added to `tmp1`. -/
inductive FibCont
  | first (n : ℕ)
  | second (tmp1 : BitVec 16)

/-- A call, or the return of a value, with what is still to be done. -/
inductive FibConfig
  | call (n : ℕ) (k : List FibCont)
  | ret (x : BitVec 16) (k : List FibCont)

namespace FibConfig

/-- A step of the machine. -/
def step : FibConfig → FibConfig
  | .call 0 k => .ret 0 k
  | .call 1 k => .ret 1 k
  | .call (n + 2) k => .call (n + 1) (.first (n + 2) :: k)
  | .ret x (.first n :: k) => .call (n - 2) (.second x :: k)
  | .ret x (.second tmp1 :: k) => .ret (tmp1 + x) k
  | .ret x [] => .ret x []

/-! ## The value -/

/-- The result of everything that is still to be done with `x`. -/
def resume : List FibCont → BitVec 16 → BitVec 16
  | [], x => x
  | .first n :: k, x => resume k (x + fibWord (n - 2))
  | .second tmp1 :: k, x => resume k (tmp1 + x)

/-- What the machine is going to return. -/
def value : FibConfig → BitVec 16
  | .call n k => resume k (fibWord n)
  | .ret x k => resume k x

/-- **Steps keep the value.** -/
lemma value_step (c : FibConfig) : c.step.value = c.value := by
  match c with
  | .call 0 k | .call 1 k => rfl
  | .call (n + 2) k => simp only [step, value, resume, Nat.add_sub_cancel, fibWord_add_two]
  | .ret x (.first n :: k) | .ret x (.second tmp1 :: k) | .ret x [] => rfl

/-! ## The number of steps -/

/-- The steps from a call to its return. -/
def steps : ℕ → ℕ
  | 0 => 1
  | 1 => 1
  | n + 2 => 1 + steps (n + 1) + 1 + steps n + 1

/-- The steps that are made with a result. -/
def pending : List FibCont → ℕ
  | [] => 0
  | .first n :: k => 1 + steps (n - 2) + 1 + pending k
  | .second _ :: k => 1 + pending k

/-- The steps that are left. -/
def left : FibConfig → ℕ
  | .call n k => steps n + pending k
  | .ret _ k => pending k

/-- A call is never the end. -/
lemma left_call_pos (n : ℕ) (k : List FibCont) : 0 < (call n k).left := by
  match n with
  | 0 | 1 | n + 2 =>
    simp only [left, steps]
    omega

/-- A step is one step less. -/
lemma left_step (c : FibConfig) : c.step.left = c.left - 1 := by
  match c with
  | .call 0 k | .call 1 k =>
    simp only [step, left, steps]
    omega
  | .call (n + 2) k =>
    simp only [step, left, pending, steps, Nat.add_sub_cancel]
    omega
  | .ret x (.first n :: k) =>
    simp only [step, left, pending]
    omega
  | .ret x (.second tmp1 :: k) =>
    simp only [step, left, pending]
    omega
  | .ret x [] => rfl

/-! ## The depth -/

/-- Every call that is waiting for its first result leaves room for its calls. -/
def FitsConts (depth : ℕ) : List FibCont → Prop
  | [] => True
  | .first n :: k => 2 ≤ n ∧ n + k.length ≤ depth ∧ FitsConts depth k
  | .second _ :: k => FitsConts depth k

/-- The stack is going to stay within the depth. -/
def Fits (depth : ℕ) : FibConfig → Prop
  | .call n k => n + k.length ≤ depth ∧ k.length < depth ∧ FitsConts depth k
  | .ret _ k => FitsConts depth k

lemma Fits.step {depth : ℕ} {c : FibConfig} (h : c.Fits depth) : c.step.Fits depth := by
  match c with
  | .call 0 k | .call 1 k => exact h.2.2
  | .call (n + 2) k =>
    obtain ⟨hle, hlt, hk⟩ := h
    refine ⟨?_, ?_, by omega, hle, hk⟩
    all_goals
      rw [List.length_cons]
      omega
  | .ret x (.first n :: k) =>
    obtain ⟨htwo, hle, hk⟩ := h
    refine ⟨?_, ?_, hk⟩
    all_goals
      rw [List.length_cons]
      omega
  | .ret x (.second tmp1 :: k) => exact h
  | .ret x [] => trivial

end FibConfig

end Xbsv
