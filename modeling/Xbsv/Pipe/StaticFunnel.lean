import Mathlib.Logic.Function.Iterate
import Xbsv.Dma.MemTypes
import Xbsv.Rules.Fifo
import Xbsv.Rules.System

set_option relaxedAutoImplicit false
set_option autoImplicit false

/-!
# Funnels with fixed shares

`mkFunnelPipes` joins `m * k` pipes to `m`, and `mkUnfunnelPipes` splits `m` pipes to `m * k`. There is a consumer for each
of the `m` pipes, which takes the next element from, or gives it to, one of `k` others in turn. A register `which` counts
them, and the number of the pipe is computed from `which` and from the number `i` of the consumer.

The funnel shifts `which` by the bits of a number below `k` and adds `i`, so that the strides are right only if `m` is that
power of two; and `which` has as many bits as an element. The unfunnel adds `i * k`, in one bit more than a number below
`k` has. A number that does not fit its type is cut down here; the compiler rejects it.

## Main definitions

* `Xbsv.funnelPipes`, `Xbsv.unfunnelPipes` — the modules.
* `Xbsv.Partitions` — the pipes are shared out among the consumers.

## Main results

* `Xbsv.Visits.visit` — what a consumer does to its register.
* `Xbsv.funnel_shared_iff`, `Xbsv.unfunnel_shared_iff` — when the pipes are shared out.
* `Xbsv.partitions_iff` — the pipes that are used in all runs.
-/

namespace Xbsv

open Rules

/-! ## The source -/

/-- A consumer moves an element from or to one of the `m * k` pipes, and an element leaves. -/
inductive ShareEvent (m : ℕ) (α : Type)
  | visited (i : Fin m) (index : ℕ) (v : α)
  | delivered (j : ℕ) (v : α)

/-- The register after one element. -/
def nextWhich (k : ℕ) {w : ℕ} (which : BitVec w) : BitVec w := (which + 1) % BitVec.ofNat w k

/-- `index` in `mkFunnelPipes`. -/
def funnelIndex (k : ℕ) {asz : ℕ} (which : BitVec asz) (i : ℕ) : BitVec asz := (which <<< tlog k) + BitVec.ofNat asz i

/-- `index` in `mkUnfunnelPipes`. -/
def unfunnelIndex (k : ℕ) (which : BitVec (1 + tlog k)) (i : ℕ) : BitVec (1 + tlog k) :=
  which + BitVec.ofNat _ i * BitVec.ofNat _ k

/-- The state of `mkFunnelPipes`. -/
structure FunnelPipes (m asz : ℕ) (α : Type) where
  which : Fin m → BitVec asz
  fifos : Fin m → Fifo 2 α

/-- The state of `mkUnfunnelPipes`. -/
structure UnfunnelPipes (m k : ℕ) (α : Type) where
  which : Fin m → BitVec (1 + tlog k)
  fifos : Fin (m * k) → Fifo 2 α

namespace FunnelPipes

variable {m asz : ℕ} {α : Type}

/-- A consumer fires, where the pipe that it reads offers `v`, or an element is taken from pipe `j`. -/
inductive Action (m : ℕ) (α : Type)
  | consumer (i : Fin m) (v : α)
  | deq (j : Fin m)

def reset (m asz : ℕ) (α : Type) : FunnelPipes m asz α := ⟨fun _ => 0, fun _ => .empty⟩

/-- Rule `consumer` of number `i`. -/
def consumer (k : ℕ) (s : FunnelPipes m asz α) (i : Fin m) (v : α) :
    Option (FunnelPipes m asz α × List (ShareEvent m α)) := do
  let index := funnelIndex k (s.which i) i
  let fifo ← (s.fifos i).enq v
  return ({
      which := Function.update s.which i (nextWhich k (s.which i))
      fifos := Function.update s.fifos i fifo },
    [.visited i index.toNat v])

def step (k : ℕ) (s : FunnelPipes m asz α) : Action m α → Option (FunnelPipes m asz α × List (ShareEvent m α))
  | .consumer i v => s.consumer k i v
  | .deq j => (s.fifos j).deq.map fun r => ({ s with fifos := Function.update s.fifos j r.2 }, [.delivered j r.1])

end FunnelPipes

namespace UnfunnelPipes

variable {m k : ℕ} {α : Type}

/-- A consumer fires, where its pipe offers `v`, or an element is taken from pipe `j`. -/
inductive Action (m k : ℕ) (α : Type)
  | consumer (i : Fin m) (v : α)
  | deq (j : Fin (m * k))

def reset (m k : ℕ) (α : Type) : UnfunnelPipes m k α := ⟨fun _ => 0, fun _ => .empty⟩

/-- `fifos[index].enq(v)`. An element for a pipe that does not exist is lost. -/
def enqAt (s : UnfunnelPipes m k α) (index : ℕ) (v : α) : Option (Fin (m * k) → Fifo 2 α) :=
  if h : index < m * k then
    ((s.fifos ⟨index, h⟩).enq v).map fun fifo => Function.update s.fifos ⟨index, h⟩ fifo
  else some s.fifos

/-- Rule `consumer` of number `i`. -/
def consumer (s : UnfunnelPipes m k α) (i : Fin m) (v : α) : Option (UnfunnelPipes m k α × List (ShareEvent m α)) := do
  let index := unfunnelIndex k (s.which i) i
  let fifos ← s.enqAt index.toNat v
  return ({ which := Function.update s.which i (nextWhich k (s.which i)), fifos }, [.visited i index.toNat v])

def step (s : UnfunnelPipes m k α) : Action m k α → Option (UnfunnelPipes m k α × List (ShareEvent m α))
  | .consumer i v => s.consumer i v
  | .deq j => (s.fifos j).deq.map fun r => ({ s with fifos := Function.update s.fifos j r.2 }, [.delivered j r.1])

end UnfunnelPipes

/-- The funnel, with elements offered and taken at any times. -/
def funnelPipes (m k asz : ℕ) (α : Type) : RuleSystem (FunnelPipes m asz α) (FunnelPipes.Action m α) (ShareEvent m α) where
  step s a := s.step k a

/-- The unfunnel, with elements offered and taken at any times. -/
def unfunnelPipes (m k : ℕ) (α : Type) :
    RuleSystem (UnfunnelPipes m k α) (UnfunnelPipes.Action m k α) (ShareEvent m α) where
  step s a := s.step a

/-! ## The shares -/

/-- The numbers of the pipes that consumer `i` used. -/
def indices {m : ℕ} {α : Type} (i : Fin m) (tr : List (ShareEvent m α)) : List ℕ :=
  tr.filterMap fun
    | .visited j index _ => if j = i then some index else none
    | .delivered _ _ => none

/-- **The pipes are shared out**: the pipe `index i n`, which consumer `i` uses for its element `n`, exists; in a round a
consumer uses different pipes, and the same in each round; no two consumers use the same pipe; and all are used. -/
structure Partitions (m k : ℕ) (index : ℕ → ℕ → ℕ) : Prop where
  lt : ∀ i < m, ∀ n, index i n < m * k
  round : ∀ i < m, ∀ n n', index i n = index i n' ↔ n % k = n' % k
  disjoint : ∀ i < m, ∀ i' < m, i ≠ i' → ∀ n n', index i n ≠ index i' n'
  cover : ∀ p < m * k, ∃ i < m, ∃ n < k, index i n = p

/-- The register after `n` elements. -/
def whichAt (k w n : ℕ) : BitVec w := (nextWhich k)^[n] 0

variable {m k w asz : ℕ} {α : Type}

/-- **The register counts modulo `k`**, if it has room for `k`. -/
lemma toNat_whichAt (hk : 0 < k) (hw : k < 2 ^ w) (n : ℕ) : (whichAt k w n).toNat = n % k := by
  induction n with
  | zero => simp [whichAt]
  | succ n ih =>
    have hlt := Nat.mod_lt n hk
    have hone : (1 : BitVec w).toNat = 1 := by
      have h1 : 1 < 2 ^ w := by omega
      rw [BitVec.ofNat_eq_ofNat, BitVec.toNat_ofNat]
      exact Nat.mod_eq_of_lt h1
    have hnext : whichAt k w (n + 1) = nextWhich k (whichAt k w n) := Function.iterate_succ_apply' _ _ _
    rw [hnext, nextWhich, BitVec.toNat_umod, BitVec.toNat_add, hone, ih, BitVec.toNat_ofNat, Nat.mod_eq_of_lt hw,
      Nat.mod_eq_of_lt (by omega : n % k + 1 < 2 ^ w), Nat.mod_add_mod]

/-- With one pipe for each consumer the register stays 0. -/
lemma toNat_whichAt_one (n : ℕ) : (whichAt 1 w n).toNat = 0 := by
  rcases Nat.eq_zero_or_pos w with rfl | hw
  · have hlt := (whichAt 1 0 n).isLt
    omega
  · rw [toNat_whichAt Nat.one_pos (Nat.one_lt_two_pow hw.ne'), Nat.mod_one]

/-- The numbers that the funnel computes. -/
def funnelIndexAt (k asz i n : ℕ) : ℕ := (funnelIndex k (whichAt k asz n) i).toNat

/-- The numbers that the unfunnel computes. -/
def unfunnelIndexAt (k i n : ℕ) : ℕ := (unfunnelIndex k (whichAt k (1 + tlog k) n) i).toNat

lemma funnelIndexAt_eq (k asz i n : ℕ) :
    funnelIndexAt k asz i n = ((whichAt k asz n).toNat * 2 ^ tlog k + i) % 2 ^ asz := by
  simp [funnelIndexAt, funnelIndex, Nat.shiftLeft_eq]

lemma unfunnelIndexAt_eq (hk : 0 < k) (i n : ℕ) : unfunnelIndexAt k i n = (n % k + i * k) % 2 ^ (1 + tlog k) := by
  have hle := le_two_pow_tlog k
  have hlt : k < 2 ^ (1 + tlog k) := by
    rw [Nat.pow_add]
    omega
  simp [unfunnelIndexAt, unfunnelIndex, toNat_whichAt hk hlt]

/-- A number with two digits, of which the lower is less than `c`. -/
lemma digits {c a i : ℕ} (hi : i < c) : (a * c + i) / c = a ∧ (a * c + i) % c = i := by
  rw [Nat.add_comm, Nat.add_mul_div_right _ _ (by omega), Nat.div_eq_of_lt hi, Nat.zero_add, Nat.add_mul_mod_self_right,
    Nat.mod_eq_of_lt hi]
  exact ⟨rfl, rfl⟩

/-- A number with two digits is small. -/
lemma digits_lt {b c a i : ℕ} (ha : a < b) (hi : i < c) : a * c + i < b * c := by
  have hle : (a + 1) * c ≤ b * c := Nat.mul_le_mul_right c ha
  rw [Nat.succ_mul] at hle
  omega

/-- Two digits tell the pipes apart. -/
lemma partitions_of_digits {index : ℕ → ℕ → ℕ} (hk : 0 < k) (code : ℕ → ℕ → ℕ)
    (hindex : ∀ i < m, ∀ n, index i n = code (n % k) i) (hlt : ∀ a < k, ∀ i < m, code a i < m * k)
    (hinj : ∀ a < k, ∀ i < m, ∀ a' < k, ∀ i' < m, code a i = code a' i' → a = a' ∧ i = i')
    (hsurj : ∀ p < m * k, ∃ i < m, ∃ a < k, code a i = p) : Partitions m k index := by
  have hmod (n : ℕ) : n % k < k := Nat.mod_lt n hk
  refine ⟨fun i hi n => ?_, fun i hi n n' => ?_, fun i hi i' hi' hne n n' heq => ?_, fun p hp => ?_⟩
  · rw [hindex i hi]
    exact hlt _ (hmod n) i hi
  · rw [hindex i hi, hindex i hi]
    exact ⟨fun heq => (hinj _ (hmod n) i hi _ (hmod n') i hi heq).1, fun heq => by rw [heq]⟩
  · rw [hindex i hi, hindex i' hi'] at heq
    exact hne (hinj _ (hmod n) i hi _ (hmod n') i' hi' heq).2
  · obtain ⟨i, hi, a, ha, hcode⟩ := hsurj p hp
    exact ⟨i, hi, a, ha, by rw [hindex i hi, Nat.mod_eq_of_lt ha, hcode]⟩

/-- The strides of the funnel are right if they are the number of consumers, or if there is no choice. -/
lemma funnel_partitions_of (hm : 0 < m) (hk : 0 < k) (hfit : m * k ≤ 2 ^ asz) (h : k = 1 ∨ m = 2 ^ tlog k) :
    Partitions m k (funnelIndexAt k asz) := by
  refine partitions_of_digits hk (fun a i => a * m + i) (fun i hi n => ?_) (fun a ha i hi => ?_) ?_ (fun p hp => ?_)
  · -- the numbers are not cut down
    have hlt := digits_lt (Nat.mod_lt n hk) hi
    rw [Nat.mul_comm k] at hlt
    rw [funnelIndexAt_eq]
    by_cases hk1 : k = 1
    · subst hk1
      rw [toNat_whichAt_one, Nat.mod_one, Nat.zero_mul, Nat.zero_mul, Nat.mod_eq_of_lt (by omega)]
    · have hpow := h.resolve_left hk1
      have hle := le_two_pow_tlog k
      rw [← hpow] at hle ⊢
      have hdouble : 2 * k ≤ m * k := Nat.mul_le_mul_right k (by omega)
      rw [toNat_whichAt hk (by omega), Nat.mod_eq_of_lt (by omega)]
  · have hlt := digits_lt ha hi
    rwa [Nat.mul_comm k] at hlt
  · intro a _ i hi a' _ i' hi' heq
    have hdigits := digits (a := a) hi
    rw [heq, (digits hi').1, (digits hi').2] at hdigits
    exact ⟨hdigits.1.symm, hdigits.2.symm⟩
  · refine ⟨p % m, Nat.mod_lt p hm, p / m, Nat.div_lt_of_lt_mul hp, ?_⟩
    rw [Nat.mul_comm]
    exact Nat.div_add_mod p m

/-- The unfunnel numbers its pipes consumer by consumer. -/
lemma unfunnel_partitions_of (hk : 0 < k) (hfit : m * k ≤ 2 ^ (1 + tlog k)) : Partitions m k (unfunnelIndexAt k) := by
  refine partitions_of_digits hk (fun a i => i * k + a) (fun i hi n => ?_) (fun a ha i hi => digits_lt hi ha) ?_
    (fun p hp => ?_)
  · have hlt := digits_lt hi (Nat.mod_lt n hk)
    rw [unfunnelIndexAt_eq hk, Nat.add_comm, Nat.mod_eq_of_lt (by omega)]
  · intro a ha i _ a' ha' i' _ heq
    have hdigits := digits (a := i) ha
    rw [heq, (digits ha').1, (digits ha').2] at hdigits
    exact ⟨hdigits.2.symm, hdigits.1.symm⟩
  · rw [Nat.mul_comm] at hp
    refine ⟨p / k, Nat.div_lt_of_lt_mul hp, p % k, Nat.mod_lt p hk, ?_⟩
    rw [Nat.mul_comm]
    exact Nat.div_add_mod p k

/-- Pipes that are all used have numbers of the width of an index. -/
lemma Partitions.le {index : ℕ → ℕ → ℕ} (h : Partitions m k index) (hpos : 0 < m * k) {b : ℕ}
    (hb : ∀ i n, index i n < b) : m * k ≤ b := by
  obtain ⟨i, -, n, -, heq⟩ := h.cover (m * k - 1) (by omega)
  have := hb i n
  omega

/-- **When the pipes of the funnel are shared out.** -/
theorem funnel_shared_iff (hm : 0 < m) (hk : 0 < k) :
    Partitions m k (funnelIndexAt k asz) ↔ m * k ≤ 2 ^ asz ∧ (k = 1 ∨ m = 2 ^ tlog k) := by
  refine ⟨fun h => ?_, fun h => funnel_partitions_of hm hk h.1 h.2⟩
  have hfit : m * k ≤ 2 ^ asz := h.le (Nat.mul_pos hm hk) fun i n => (funnelIndex k (whichAt k asz n) i).isLt
  refine ⟨hfit, ?_⟩
  by_cases hk1 : k = 1
  · exact .inl hk1
  right
  have hle := le_two_pow_tlog k
  have hkk : k ≤ m * k := Nat.le_mul_of_pos_left k hm
  have hmm : m ≤ m * k := Nat.le_mul_of_pos_right m hk
  -- a stride that is cut down to 0, or comes round to 0, uses a pipe twice in a round
  have hround : ∀ n < k, 0 < n → funnelIndexAt k asz 0 n ≠ funnelIndexAt k asz 0 0 := by
    intro n hn hpos heq
    have hmod := (h.round 0 hm n 0).mp heq
    rw [Nat.mod_eq_of_lt hn, Nat.zero_mod] at hmod
    omega
  have hzero : funnelIndexAt k asz 0 0 = 0 := by
    rw [funnelIndexAt_eq]
    simp [whichAt]
  have hstride : 2 ^ tlog k < 2 ^ asz := by
    by_contra hge
    obtain ⟨c, hc⟩ := Nat.pow_dvd_pow 2 ((Nat.pow_le_pow_iff_right (by decide)).mp (Nat.le_of_not_lt hge))
    refine hround 1 (by omega) Nat.one_pos ?_
    rw [hzero, funnelIndexAt_eq, hc, Nat.add_zero, ← Nat.mul_assoc, Nat.mul_right_comm, Nat.mul_mod_left]
  have hindex (i n : ℕ) : funnelIndexAt k asz i n = (n % k * 2 ^ tlog k + i) % 2 ^ asz := by
    rw [funnelIndexAt_eq, toNat_whichAt hk (by omega)]
  have hall : k * 2 ^ tlog k ≤ 2 ^ asz := by
    by_contra hgt
    obtain ⟨c, hc⟩ := Nat.pow_dvd_pow 2 ((Nat.pow_lt_pow_iff_right (by decide)).mp hstride).le
    have hck : c < k := by
      rw [hc, Nat.mul_comm] at hgt
      exact Nat.lt_of_mul_lt_mul_left (Nat.lt_of_not_le hgt)
    have hcpos : 0 < c := by
      by_contra hc0
      obtain rfl : c = 0 := by omega
      rw [Nat.mul_zero] at hc
      omega
    refine hround c hck hcpos ?_
    rw [hzero, hindex, Nat.mod_eq_of_lt hck, Nat.add_zero, hc, Nat.mul_comm, Nat.mod_self]
  -- a consumer whose number reaches into the stride uses a pipe of the first consumer
  have hge : m ≤ 2 ^ tlog k := by
    by_contra hlt
    refine h.disjoint (2 ^ tlog k) (by omega) 0 hm (by omega) 0 1 ?_
    rw [hindex, hindex, Nat.zero_mod, Nat.zero_mul, Nat.zero_add, Nat.mod_eq_of_lt (by omega : 1 < k), Nat.one_mul,
      Nat.add_zero]
  -- with larger strides the last pipe does not exist
  obtain ⟨j, rfl⟩ : ∃ j, k = j + 1 := ⟨k - 1, by omega⟩
  have hlast := h.lt (m - 1) (by omega) j
  rw [Nat.succ_mul] at hall
  rw [hindex, Nat.mod_eq_of_lt (Nat.lt_succ_self j), Nat.mod_eq_of_lt (by omega), Nat.mul_succ] at hlast
  have hle' : 2 ^ tlog (j + 1) * j ≤ m * j := by
    rw [Nat.mul_comm]
    omega
  exact Nat.le_antisymm hge (Nat.le_of_mul_le_mul_right hle' (by omega))

/-- **When the pipes of the unfunnel are shared out.** -/
theorem unfunnel_shared_iff (hm : 0 < m) (hk : 0 < k) : Partitions m k (unfunnelIndexAt k) ↔ m * k ≤ 2 ^ (1 + tlog k) :=
  ⟨fun h => h.le (Nat.mul_pos hm hk) fun i n => (unfunnelIndex k (whichAt k (1 + tlog k) n) i).isLt,
    unfunnel_partitions_of hk⟩

/-! ## Runs -/

/-- The registers after a run, and the pipes that were used in it; `index` are the numbers that a consumer computes. -/
structure Visits (k : ℕ) (index : ℕ → ℕ → ℕ) (tr : List (ShareEvent m α)) (which : Fin m → BitVec w) : Prop where
  which_eq : ∀ i, which i = whichAt k w (indices i tr).length
  indices_eq : ∀ i, indices i tr = (List.range (indices i tr).length).map (index i)

section Runs

variable {index : ℕ → ℕ → ℕ} {tr : List (ShareEvent m α)} {which : Fin m → BitVec w}

lemma indices_visited (tr : List (ShareEvent m α)) (i j : Fin m) (p : ℕ) (v : α) :
    indices i (tr ++ [ShareEvent.visited j p v]) = indices i tr ++ if j = i then [p] else [] := by
  rw [indices, List.filterMap_append]
  split <;> simp [indices, *]

lemma indices_delivered (tr : List (ShareEvent m α)) (i : Fin m) (p : ℕ) (v : α) :
    indices i (tr ++ [ShareEvent.delivered p v]) = indices i tr := by
  rw [indices, List.filterMap_append]
  exact List.append_nil _

lemma visits_reset : Visits k index ([] : List (ShareEvent m α)) fun _ => (0 : BitVec w) :=
  ⟨fun _ => rfl, fun _ => rfl⟩

/-- A consumer uses a pipe. -/
lemma Visits.visit (h : Visits k index tr which) (i : Fin m) {p : ℕ} (hp : p = index i (indices i tr).length) (v : α) :
    Visits k index (tr ++ [ShareEvent.visited i p v]) (Function.update which i (nextWhich k (which i))) := by
  refine ⟨fun j => ?_, fun j => ?_⟩
  · rw [indices_visited, Function.update_apply]
    by_cases hj : i = j
    · subst hj
      rw [if_pos rfl, if_pos rfl, List.length_append, h.which_eq i]
      exact (Function.iterate_succ_apply' _ _ _).symm
    · rw [if_neg hj, if_neg (Ne.symm hj), List.append_nil, h.which_eq j]
  · rw [indices_visited]
    by_cases hj : i = j
    · subst hj
      rw [if_pos rfl, List.length_append, List.length_singleton, List.range_succ, List.map_append, ← h.indices_eq i, hp]
      rfl
    · rw [if_neg hj, List.append_nil]
      exact h.indices_eq j

/-- An element leaves. -/
lemma Visits.deliver (h : Visits k index tr which) (p : ℕ) (v : α) :
    Visits k index (tr ++ [ShareEvent.delivered p v]) which := by
  refine ⟨fun i => ?_, fun i => ?_⟩
  · rw [indices_delivered, h.which_eq i]
  · rw [indices_delivered]
    exact h.indices_eq i

/-- The pipes that the funnel uses. -/
lemma funnel_visits {s : FunnelPipes m asz α} (h : (funnelPipes m k asz α).Reaches (.reset m asz α) tr s) :
    Visits k (funnelIndexAt k asz) tr s.which := by
  refine h.invariant (I := fun tr s => Visits k (funnelIndexAt k asz) tr s.which) visits_reset fun {tr s a s' es} hv hs => ?_
  cases a with
  | consumer i v =>
    simp only [funnelPipes, FunnelPipes.step, FunnelPipes.consumer, bind, pure, Option.bind_eq_some_iff,
      Option.some.injEq, Prod.mk.injEq] at hs
    obtain ⟨fifo, -, rfl, rfl⟩ := hs
    exact hv.visit i (by rw [funnelIndexAt, ← hv.which_eq i]) v
  | deq j =>
    simp only [funnelPipes, FunnelPipes.step, Option.map_eq_some_iff, Prod.mk.injEq] at hs
    obtain ⟨r, -, rfl, rfl⟩ := hs
    exact hv.deliver j r.1

/-- The pipes that the unfunnel uses. -/
lemma unfunnel_visits {s : UnfunnelPipes m k α} (h : (unfunnelPipes m k α).Reaches (.reset m k α) tr s) :
    Visits k (unfunnelIndexAt k) tr s.which := by
  refine h.invariant (I := fun tr s => Visits k (unfunnelIndexAt k) tr s.which) visits_reset fun {tr s a s' es} hv hs => ?_
  cases a with
  | consumer i v =>
    simp only [unfunnelPipes, UnfunnelPipes.step, UnfunnelPipes.consumer, bind, pure, Option.bind_eq_some_iff,
      Option.some.injEq, Prod.mk.injEq] at hs
    obtain ⟨fifos, -, rfl, rfl⟩ := hs
    exact hv.visit i (by rw [unfunnelIndexAt, ← hv.which_eq i]) v
  | deq j =>
    simp only [unfunnelPipes, UnfunnelPipes.step, Option.map_eq_some_iff, Prod.mk.injEq] at hs
    obtain ⟨r, -, rfl, rfl⟩ := hs
    exact hv.deliver j r.1

end Runs

/-- **The pipes that are used in all runs**: consumer `i` uses for its element `n` the pipe of the number that is computed
then, and these numbers share out the pipes exactly when they fit their type, and for the funnel the strides are right. -/
theorem partitions_iff {m k : ℕ} (hm : 0 < m) (hk : 0 < k) (asz : ℕ) (α : Type) :
    ((∀ tr s, (funnelPipes m k asz α).Reaches (.reset m asz α) tr s →
        ∀ i, indices i tr = (List.range (indices i tr).length).map (funnelIndexAt k asz i)) ∧
      (Partitions m k (funnelIndexAt k asz) ↔ m * k ≤ 2 ^ asz ∧ (k = 1 ∨ m = 2 ^ tlog k))) ∧
    (∀ tr s, (unfunnelPipes m k α).Reaches (.reset m k α) tr s →
        ∀ i, indices i tr = (List.range (indices i tr).length).map (unfunnelIndexAt k i)) ∧
      (Partitions m k (unfunnelIndexAt k) ↔ m * k ≤ 2 ^ (1 + tlog k)) :=
  ⟨⟨fun _ _ h => (funnel_visits h).indices_eq, funnel_shared_iff hm hk⟩,
    fun _ _ h => (unfunnel_visits h).indices_eq, unfunnel_shared_iff hm hk⟩

/-- Two pipes for each of two consumers. -/
theorem partitions_iff_two : Partitions 2 2 (funnelIndexAt 2 8) ∧ Partitions 2 2 (unfunnelIndexAt 2) := by
  have hall := partitions_iff (m := 2) (k := 2) (by decide) (by decide) 8 ℕ
  exact ⟨hall.1.2.mpr (by decide), hall.2.2.mpr (by decide)⟩

/-- Two pipes are funnelled to one. -/
def twoToOne := (funnelPipes 1 2 8 ℕ).run (.reset 1 8 ℕ) [.consumer 0 5, .consumer 0 6]

/-- Four pipes are unfunnelled to sixteen. -/
def fourToSixteen := (unfunnelPipes 4 4 ℕ).run (.reset 4 4 ℕ) [.consumer 0 5, .consumer 2 6]

/-- The second of two pipes would have the number 2, and consumer 2 uses the pipe of consumer 0. -/
theorem not_partitions : indices 0 twoToOne.2 = [0, 2] ∧ ¬Partitions 1 2 (funnelIndexAt 2 8) ∧
    indices 0 fourToSixteen.2 = [0] ∧ indices 2 fourToSixteen.2 = [0] ∧ ¬Partitions 4 4 (unfunnelIndexAt 4) := by
  refine ⟨by decide, fun h => ?_, by decide, by decide, fun h => ?_⟩
  · have hlt := h.lt 0 (by decide) 1
    exact absurd hlt (by decide)
  · exact h.disjoint 0 (by decide) 2 (by decide) (by decide) 0 0 (by decide)

end Xbsv
