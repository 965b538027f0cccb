import Mathlib.Tactic.Ring
import Xbsv.Rules.System

set_option relaxedAutoImplicit false
set_option autoImplicit false

/-!
# The pipelined multipliers

`mkPipeMul` and `mkPipeMul2` of `PipeMul.bsv`. The products go through a row of registers, `mul_data`, that move on in
every cycle; the markers go through a row of queues, `mul_ctrl`, that wait while the results are not taken. A marker
that waits loses its product to the one behind it.

Each queue is an `mkLFIFO`, with one place that can be filled in the cycle in which it is emptied: the rules of a cycle
are fired from the output to the input, each one if it finds something to take and room for it.

## Main definitions

* `Xbsv.MulStages` — what the registers compute; `Xbsv.mkPipeMul`, `Xbsv.mkPipeMul2` for the two multipliers.
* `Xbsv.PipeMul`, `Xbsv.pipeMul` — the pipeline and its runs.
* `Xbsv.PipeMul.pending` — the results that come out if nothing waits any more.
* `Xbsv.PipeMul.KeepsProducts` — a marker that waits finds its own product again.

## Main results

* `Xbsv.PipeMul.view_doCtrls` — what a cycle does to the products in the pipeline.
* `Xbsv.PipeMul.step_iff` — what a cycle does to the results that are to come.
* `Xbsv.PipeMul.results_of_keepsProducts` — the runs in which the results are those of the operands.
* `Xbsv.PipeMul.pending_of_prompt` — a consumer that takes each result at once.
-/

namespace Xbsv

open Rules

/-- The rules that compute, of a multiplier for `dsz` bits with registers `ρ` and results `ω`. -/
structure MulStages (dsz : ℕ) (ρ ω : Type) where
  /-- What goes to `mul_data[0]`, from `a` and `b`. -/
  doMul : BitVec dsz → BitVec dsz → ρ
  /-- What goes to `mul_data[i]`, from `mul_data[i-1]`. -/
  doShift : ℕ → ρ → ρ
  /-- What `final_xfer` makes of the last register. -/
  result : ρ → ω

/-- `mkPipeMul`: the whole product, of which the lower half is the result. -/
def mkPipeMul (dsz : ℕ) : MulStages dsz (BitVec (2 * dsz)) (BitVec dsz) where
  doMul a b := b.setWidth _ * a.setWidth _
  doShift _ bits := bits
  result bits := bits.setWidth _

/-- `mkPipeMul2`: two products, with the lower 16 bits of `a` and with the others, which are added in the second stage
(`do_add`). -/
def mkPipeMul2 (dsz : ℕ) : MulStages dsz (BitVec (2 * dsz) × BitVec (2 * dsz)) (BitVec (2 * dsz)) where
  doMul a b := (b.setWidth _ * (a.extractLsb' 0 16).setWidth _, b.setWidth _ * (a.extractLsb' 16 (dsz - 16)).setWidth _)
  doShift _ bits := (0, bits.1 + bits.2 <<< 16)
  result := Prod.snd

namespace MulStages

variable {dsz : ℕ} {ρ ω : Type} (m : MulStages dsz ρ ω)

/-- The result that comes of register `i`, which `d` more registers follow. -/
def worth : ℕ → ℕ → ρ → ω
  | _, 0, bits => m.result bits
  | i, d + 1, bits => worth (i + 1) d (m.doShift (i + 1) bits)

/-- The result that comes of register `i` of `stages`. -/
def value (stages i : ℕ) (bits : ρ) : ω := m.worth i (stages - 1 - i) bits

/-- The result of two operands. -/
def product (stages : ℕ) (x y : BitVec dsz) : ω := m.value stages 0 (m.doMul x y)

variable {m}

lemma value_last {stages : ℕ} (bits : ρ) : m.value stages (stages - 1) bits = m.result bits := by
  rw [value, Nat.sub_self, worth]

/-- To move on does not change what comes out. -/
lemma value_doShift {stages i : ℕ} (hi : i + 1 < stages) (bits : ρ) :
    m.value stages (i + 1) (m.doShift (i + 1) bits) = m.value stages i bits := by
  have hd : stages - 1 - i = stages - 1 - (i + 1) + 1 := by omega
  rw [value, value, hd, worth]

end MulStages

/-- The product of `mkPipeMul` is the lower half. -/
lemma product_mkPipeMul {dsz stages : ℕ} (x y : BitVec dsz) : (mkPipeMul dsz).product stages x y = x * y := by
  have hworth : ∀ d i (bits : BitVec (2 * dsz)), (mkPipeMul dsz).worth i d bits = bits.setWidth dsz := by
    intro d
    induction d with
    | zero => exact fun i bits => rfl
    | succ d ih => exact fun i bits => ih _ _
  rw [MulStages.product, MulStages.value, hworth, mkPipeMul, BitVec.setWidth_mul _ _ (by omega),
    BitVec.setWidth_setWidth_of_le _ (by omega), BitVec.setWidth_setWidth_of_le _ (by omega), BitVec.setWidth_eq,
    BitVec.setWidth_eq, BitVec.mul_comm]

/-- The two parts of `a`. -/
lemma setWidth_eq_add_shiftLeft {w v : ℕ} (hw : w ≤ v) (x : BitVec w) :
    (x.extractLsb' 0 16).setWidth v + (x.extractLsb' 16 (w - 16)).setWidth v <<< 16 = x.setWidth v := by
  apply BitVec.eq_of_toNat_eq
  have hx := x.isLt
  have hlt : x.toNat < 2 ^ v := hx.trans_le (Nat.pow_le_pow_right (by decide) hw)
  have hsplit := Nat.div_add_mod x.toNat (2 ^ 16)
  have hlow : ((x.extractLsb' 0 16).setWidth v).toNat = x.toNat % 2 ^ 16 := by
    rw [BitVec.toNat_setWidth, BitVec.extractLsb'_toNat, Nat.shiftRight_zero, Nat.mod_eq_of_lt]
    exact (Nat.mod_le _ _).trans_lt hlt
  have hhigh : ((x.extractLsb' 16 (w - 16)).setWidth v).toNat = x.toNat / 2 ^ 16 := by
    have hle : x.toNat / 2 ^ 16 < 2 ^ (w - 16) := by
      rw [Nat.div_lt_iff_lt_mul (by decide), ← pow_add]
      exact hx.trans_le (Nat.pow_le_pow_right (by decide) (by omega))
    rw [BitVec.toNat_setWidth, BitVec.extractLsb'_toNat, Nat.shiftRight_eq_div_pow, Nat.mod_eq_of_lt hle,
      Nat.mod_eq_of_lt ((Nat.div_le_self _ _).trans_lt hlt)]
  rw [BitVec.toNat_add, hlow, BitVec.toNat_shiftLeft, hhigh, Nat.shiftLeft_eq, Nat.add_mod_mod, BitVec.toNat_setWidth,
    Nat.add_comm, Nat.mul_comm, hsplit]

/-- The product of `mkPipeMul2` is the whole one. -/
lemma product_mkPipeMul2 {dsz : ℕ} (x y : BitVec dsz) :
    (mkPipeMul2 dsz).product 2 x y = x.setWidth (2 * dsz) * y.setWidth (2 * dsz) := by
  show y.setWidth (2 * dsz) * (x.extractLsb' 0 16).setWidth (2 * dsz) +
    (y.setWidth (2 * dsz) * (x.extractLsb' 16 (dsz - 16)).setWidth (2 * dsz)) <<< 16 = _
  rw [BitVec.shiftLeft_eq_mul_twoPow, BitVec.mul_assoc, ← BitVec.mul_add, ← BitVec.shiftLeft_eq_mul_twoPow,
    setWidth_eq_add_shiftLeft (by omega), BitVec.mul_comm]

/-- A pipeline: the registers and the queues, of which a multiplier with `stages` has `stages` and one more, the
operands, and the queues at both ends. -/
structure PipeMul (dsz : ℕ) (ρ ω μ : Type) where
  mulData : ℕ → ρ
  mulCtrl : ℕ → Option μ
  a : BitVec dsz
  b : BitVec dsz
  inf : Option (BitVec dsz × BitVec dsz × μ)
  outf : Option (ω × μ)

namespace PipeMul

variable {dsz : ℕ} {ρ ω μ : Type}

/-- The registers `a` and `b` have no initial value. -/
def reset (bits : ρ) (a b : BitVec dsz) : PipeMul dsz ρ ω μ where
  mulData _ := bits
  mulCtrl _ := none
  a := a
  b := b
  inf := none
  outf := none

/-- What is done in a cycle: operands are put, and a result is got. -/
structure Cycle (dsz : ℕ) (μ : Type) where
  put : Option (BitVec dsz × BitVec dsz × μ)
  get : Bool

/-- Operands were put with their marker, and a result was got. -/
inductive Event (dsz : ℕ) (ω μ : Type)
  | put (x y : BitVec dsz) (marker : μ)
  | got (result : ω × μ)

/-- Rule `final_xfer`. -/
def finalXfer (m : MulStages dsz ρ ω) (stages : ℕ) (s : PipeMul dsz ρ ω μ) : PipeMul dsz ρ ω μ :=
  match s.mulCtrl stages, s.outf with
  | some marker, none =>
    { s with
      mulCtrl := Function.update s.mulCtrl stages none
      outf := some (m.result (s.mulData (stages - 1)), marker) }
  | _, _ => s

/-- Rule `do_mul`, and `do_add` of `mkPipeMul2`. -/
def doMul (m : MulStages dsz ρ ω) (s : PipeMul dsz ρ ω μ) : ℕ → ρ
  | 0 => m.doMul s.a s.b
  | i + 1 => m.doShift (i + 1) (s.mulData i)

/-- Rule `do_ctrl` of a stage. -/
def doCtrl (i : ℕ) (mulCtrl : ℕ → Option μ) : ℕ → Option μ :=
  match mulCtrl i, mulCtrl (i + 1) with
  | some marker, none => Function.update (Function.update mulCtrl (i + 1) (some marker)) i none
  | _, _ => mulCtrl

/-- The rules `do_ctrl`, from the last stage to the first. -/
def doCtrls : ℕ → (ℕ → Option μ) → ℕ → Option μ
  | 0, mulCtrl => mulCtrl
  | i + 1, mulCtrl => doCtrls i (doCtrl i mulCtrl)

/-- Rule `start`. -/
def start (s : PipeMul dsz ρ ω μ) : PipeMul dsz ρ ω μ :=
  match s.inf, s.mulCtrl 0 with
  | some (x, y, marker), none =>
    { s with inf := none, a := x, b := y, mulCtrl := Function.update s.mulCtrl 0 (some marker) }
  | _, _ => s

/-- Method `get`, if it is called. -/
def get (s : PipeMul dsz ρ ω μ) : Bool → Option (PipeMul dsz ρ ω μ × List (Event dsz ω μ))
  | false => some (s, [])
  | true => s.outf.map fun result => ({ s with outf := none }, [.got result])

/-- Method `put`, if it is called. -/
def put (s : PipeMul dsz ρ ω μ) :
    Option (BitVec dsz × BitVec dsz × μ) → Option (PipeMul dsz ρ ω μ × List (Event dsz ω μ))
  | none => some (s, [])
  | some (x, y, marker) =>
    if s.inf.isNone then some ({ s with inf := some (x, y, marker) }, [.put x y marker]) else none

/-- The rules of a cycle. -/
def rules (m : MulStages dsz ρ ω) (stages : ℕ) (s : PipeMul dsz ρ ω μ) : PipeMul dsz ρ ω μ :=
  let s := finalXfer m stages s
  start { s with mulData := doMul m s, mulCtrl := doCtrls stages s.mulCtrl }

/-- One cycle. -/
def step (m : MulStages dsz ρ ω) (stages : ℕ) (s : PipeMul dsz ρ ω μ) (c : Cycle dsz μ) :
    Option (PipeMul dsz ρ ω μ × List (Event dsz ω μ)) := do
  let (s, got) ← s.get c.get
  let (s, put) ← (s.rules m stages).put c.put
  return (s, got ++ put)

end PipeMul

/-- A multiplier of `stages` stages, with any operands and a consumer that stalls at will. -/
def pipeMul {dsz : ℕ} {ρ ω : Type} (m : MulStages dsz ρ ω) (stages : ℕ) (μ : Type) :
    RuleSystem (PipeMul dsz ρ ω μ) (PipeMul.Cycle dsz μ) (PipeMul.Event dsz ω μ) where
  step s c := s.step m stages c

namespace PipeMul

variable {dsz : ℕ} {ρ ω μ : Type} {m : MulStages dsz ρ ω} {stages : ℕ} {s s' : PipeMul dsz ρ ω μ}
  {tr es : List (Event dsz ω μ)} {c : Cycle dsz μ}

/-! ## What is to come -/

/-- The operands that were put, with their markers. -/
def puts (tr : List (Event dsz ω μ)) : List (BitVec dsz × BitVec dsz × μ) :=
  tr.filterMap fun
    | .put x y marker => some (x, y, marker)
    | .got _ => none

/-- The results that were got. -/
def gots (tr : List (Event dsz ω μ)) : List (ω × μ) :=
  tr.filterMap fun
    | .put _ _ _ => none
    | .got result => some result

@[simp] lemma puts_append : puts (tr ++ es) = puts tr ++ puts es := List.filterMap_append

@[simp] lemma gots_append : gots (tr ++ es) = gots tr ++ gots es := List.filterMap_append

/-- The result that comes of the product at queue `k`: that of the operands at the first one, and that of the register
before it at the others. -/
def worthAt (m : MulStages dsz ρ ω) (stages : ℕ) (s : PipeMul dsz ρ ω μ) : ℕ → ω
  | 0 => m.product stages s.a s.b
  | k + 1 => m.value stages k (s.mulData k)

/-- The markers in the queues up to the `n`-th one, the oldest first, each with the result at its queue. -/
def view (worth : ℕ → ω) (mulCtrl : ℕ → Option μ) : ℕ → List (ω × μ)
  | 0 => ((mulCtrl 0).map fun marker => (worth 0, marker)).toList
  | n + 1 => ((mulCtrl (n + 1)).map fun marker => (worth (n + 1), marker)).toList ++ view worth mulCtrl n

/-- The results that the operands should have. -/
def expected (m : MulStages dsz ρ ω) (stages : ℕ) (operands : List (BitVec dsz × BitVec dsz × μ)) : List (ω × μ) :=
  operands.map fun p => (m.product stages p.1 p.2.1, p.2.2)

/-- The results that come out if nothing waits any more. -/
def pending (m : MulStages dsz ρ ω) (stages : ℕ) (s : PipeMul dsz ρ ω μ) : List (ω × μ) :=
  s.outf.toList ++ view (s.worthAt m stages) s.mulCtrl stages ++ expected m stages s.inf.toList

/-- The marker in queue `k` has to wait: a result is not taken, and the queues behind it are full. -/
def Waits (stages : ℕ) (s : PipeMul dsz ρ ω μ) (c : Cycle dsz μ) (k : ℕ) : Prop :=
  (s.outf.isSome ∧ c.get = false) ∧ ∀ j ≤ stages, k ≤ j → (s.mulCtrl j).isSome

instance (c : Cycle dsz μ) (k : ℕ) : Decidable (s.Waits stages c k) :=
  inferInstanceAs (Decidable (_ ∧ _))

/-- **A marker that waits keeps its result**: the product that comes to its queue is worth the same. -/
def KeepsProducts [DecidableEq ω] (m : MulStages dsz ρ ω) (stages : ℕ) (s : PipeMul dsz ρ ω μ) (c : Cycle dsz μ) :
    Prop :=
  ∀ k < stages, s.Waits stages c (k + 1) → s.worthAt m stages k = s.worthAt m stages (k + 1)

instance [DecidableEq ω] (c : Cycle dsz μ) : Decidable (s.KeepsProducts m stages c) :=
  inferInstanceAs (Decidable (∀ k < stages, _ → _))

/-! ## The pipeline -/

section View

variable {worth worth' : ℕ → ω} {mulCtrl mulCtrl' : ℕ → Option μ}

/-- Only the queues up to the `n`-th one count. -/
lemma view_congr {n : ℕ} (hworth : ∀ k ≤ n, worth k = worth' k) (hctrl : ∀ k ≤ n, mulCtrl k = mulCtrl' k) :
    view worth mulCtrl n = view worth' mulCtrl' n := by
  induction n with
  | zero => rw [view, view, hworth 0 le_rfl, hctrl 0 le_rfl]
  | succ n ih =>
    rw [view, view, hworth _ le_rfl, hctrl _ le_rfl,
      ih (fun k hk => hworth k (by omega)) fun k hk => hctrl k (by omega)]

/-- The last marker comes first. -/
lemma view_eq_append (n : ℕ) :
    view worth mulCtrl n = ((mulCtrl n).map fun marker => (worth n, marker)).toList ++
      view worth (Function.update mulCtrl n none) n := by
  cases n with
  | zero => simp [view]
  | succ n =>
    have hbelow : view worth (Function.update mulCtrl (n + 1) none) n = view worth mulCtrl n :=
      view_congr (fun k _ => rfl) fun k hk => Function.update_of_ne (by omega) _ _
    rw [view, view, hbelow, Function.update_self]
    rfl

/-- A marker in the first queue comes last. -/
lemma view_update_zero {n : ℕ} {x : ω} {marker : μ} (h0 : mulCtrl 0 = none) (hworth : ∀ k, 0 < k → worth' k = worth k)
    (hx : worth' 0 = x) :
    view worth' (Function.update mulCtrl 0 (some marker)) n = view worth mulCtrl n ++ [(x, marker)] := by
  induction n with
  | zero => simp [view, h0, hx]
  | succ n ih =>
    rw [view, view, ih, hworth _ (Nat.succ_pos n), Function.update_of_ne (Nat.succ_ne_zero n), List.append_assoc]

/-- The queues above stay. -/
lemma doCtrl_of_lt {i k : ℕ} (h : i + 1 < k) : doCtrl i mulCtrl k = mulCtrl k := by
  cases hlast : mulCtrl (i + 1) with
  | some marker => rw [doCtrl, hlast]; cases mulCtrl i <;> rfl
  | none =>
    cases hi : mulCtrl i with
    | none => rw [doCtrl, hlast, hi]
    | some marker =>
      rw [doCtrl, hlast, hi]
      exact (Function.update_of_ne (by omega) _ _).trans (Function.update_of_ne (by omega) _ _)

lemma doCtrls_of_lt {n k : ℕ} (h : n < k) : doCtrls n mulCtrl k = mulCtrl k := by
  induction n generalizing mulCtrl with
  | zero => rfl
  | succ n ih => rw [doCtrls, ih (by omega), doCtrl_of_lt h]

/-- If there is room, the marker moves on. -/
lemma doCtrl_of_room {i : ℕ} (h : mulCtrl (i + 1) = none) :
    doCtrl i mulCtrl (i + 1) = mulCtrl i ∧ ∀ k ≤ i, doCtrl i mulCtrl k = Function.update mulCtrl i none k := by
  unfold doCtrl
  cases hi : mulCtrl i with
  | none =>
    simp only [h]
    refine ⟨trivial, fun k hk => ?_⟩
    rw [← hi, Function.update_eq_self]
  | some marker =>
    simp only [h]
    constructor
    · rw [Function.update_of_ne (by omega), Function.update_self]
    · intro k hk
      by_cases hki : k = i
      · rw [hki, Function.update_self, Function.update_self]
      · rw [Function.update_of_ne hki, Function.update_of_ne (by omega), Function.update_of_ne hki]

/-- If there is none, nothing happens. -/
lemma doCtrl_of_full {i : ℕ} (h : (mulCtrl (i + 1)).isSome) : doCtrl i mulCtrl = mulCtrl := by
  obtain ⟨marker, hmarker⟩ := Option.isSome_iff_exists.mp h
  unfold doCtrl
  rw [hmarker]
  cases mulCtrl i <;> rfl

/-- If the last queue has room, all the markers move on with their products. -/
lemma view_doCtrls_of_room {n : ℕ} (hworth : ∀ k < n, worth' (k + 1) = worth k) (hroom : mulCtrl n = none) :
    view worth' (doCtrls n mulCtrl) n = view worth mulCtrl n := by
  induction n generalizing mulCtrl with
  | zero => rw [doCtrls, view, view, hroom]; rfl
  | succ n ih =>
    obtain ⟨hlast, hbelow⟩ := doCtrl_of_room hroom
    rw [doCtrls, view, view, doCtrls_of_lt (Nat.lt_succ_self n), hlast, hroom, hworth n (Nat.lt_succ_self n),
      ih (fun k hk => hworth k (by omega)) ((hbelow n le_rfl).trans (Function.update_self _ _ _)),
      view_congr (fun k _ => rfl) hbelow]
    exact (view_eq_append n).symm

/-- **The products in the pipeline**: those before and after a cycle are the same exactly if the markers that wait keep
their results. -/
theorem view_doCtrls {n : ℕ} (h0 : worth' 0 = worth 0) (hworth : ∀ k < n, worth' (k + 1) = worth k) :
    view worth' (doCtrls n mulCtrl) n = view worth mulCtrl n ↔
      ∀ k < n, (∀ j ≤ n, k + 1 ≤ j → (mulCtrl j).isSome) → worth k = worth (k + 1) := by
  induction n generalizing mulCtrl with
  | zero => simp [doCtrls, view, h0]
  | succ n ih =>
    cases hlast : mulCtrl (n + 1) with
    | none =>
      -- Nothing waits.
      rw [eq_true (view_doCtrls_of_room hworth hlast), true_iff]
      intro k hk hfull
      have hsome := hfull (n + 1) le_rfl (by omega)
      rw [hlast] at hsome
      cases hsome
    | some marker =>
      have hfull : (mulCtrl (n + 1)).isSome := by rw [hlast]; rfl
      have hih := @ih mulCtrl fun k hk => hworth k (by omega)
      rw [doCtrls, doCtrl_of_full hfull, view, view, doCtrls_of_lt (Nat.lt_succ_self n), hlast,
        hworth n (Nat.lt_succ_self n)]
      simp only [Option.map_some, Option.toList_some, List.cons_append, List.nil_append, List.cons.injEq, Prod.mk.injEq,
        and_true, hih]
      constructor
      · rintro ⟨hn, hbelow⟩ k hk hwaits
        rcases Nat.lt_succ_iff_lt_or_eq.mp hk with hk | rfl
        · exact hbelow k hk fun j hj hkj => hwaits j (by omega) hkj
        · exact hn
      · intro hall
        refine ⟨hall n (Nat.lt_succ_self n) fun j hj hnj => ?_, fun k hk hwaits => hall k (by omega) fun j hj hkj => ?_⟩
        · obtain rfl : j = n + 1 := by omega
          exact hfull
        · rcases Nat.le_succ_iff.mp hj with hj | rfl
          · exact hwaits j hj hkj
          · exact hfull

end View

/-! ## A cycle -/

/-- What a call of `get` does. -/
lemma get_eq_some {b : Bool} (h : s.get b = some (s', es)) :
    gots es ++ s'.pending m stages = s.pending m stages ∧ puts es = [] ∧
      s' = { s with outf := if b then none else s.outf } := by
  cases b with
  | false =>
    cases h
    exact ⟨rfl, rfl, rfl⟩
  | true =>
    obtain ⟨result, hresult, heq⟩ := Option.map_eq_some_iff.mp h
    cases heq
    refine ⟨?_, rfl, rfl⟩
    rw [pending, pending, hresult]
    rfl

/-- What a call of `put` does. -/
lemma put_eq_some {operands : Option (BitVec dsz × BitVec dsz × μ)} (h : s.put operands = some (s', es)) :
    s'.pending m stages = s.pending m stages ++ expected m stages (puts es) ∧ gots es = [] := by
  cases operands with
  | none =>
    cases h
    exact ⟨(List.append_nil _).symm, rfl⟩
  | some p =>
    obtain ⟨x, y, marker⟩ := p
    cases hinf : s.inf with
    | some q => simp [put, hinf] at h
    | none =>
      simp only [put, hinf, Option.isNone_none, if_true, Option.some.injEq, Prod.mk.injEq] at h
      obtain ⟨rfl, rfl⟩ := h
      refine ⟨?_, rfl⟩
      rw [pending, pending, hinf]
      simp only [expected, Option.toList_none, Option.toList_some, List.map_nil, List.append_nil]
      rfl

/-- The last rule takes the result that was to come. -/
lemma pending_finalXfer (hstages : 0 < stages) : (s.finalXfer m stages).pending m stages = s.pending m stages := by
  unfold finalXfer
  cases hlast : s.mulCtrl stages with
  | none => rfl
  | some marker =>
    cases hout : s.outf with
    | some result => rfl
    | none =>
      obtain ⟨n, rfl⟩ := Nat.exists_eq_succ_of_ne_zero hstages.ne'
      have hresult : s.worthAt m (n + 1) (n + 1) = m.result (s.mulData n) :=
        @MulStages.value_last _ _ _ m (n + 1) (s.mulData n)
      simp only [pending, hout, Option.toList_none, Option.toList_some, List.nil_append]
      have hsplit : view (s.worthAt m (n + 1)) s.mulCtrl (n + 1) = _ := view_eq_append (n + 1)
      rw [hsplit, hlast, Option.map_some, Option.toList_some, hresult]
      rfl

/-- The operands go to the first queue. -/
lemma pending_start : s.start.pending m stages = s.pending m stages := by
  unfold start
  cases hinf : s.inf with
  | none => rfl
  | some p =>
    obtain ⟨x, y, marker⟩ := p
    cases h0 : s.mulCtrl 0 with
    | some marker' => rfl
    | none =>
      have hview := @view_update_zero ω μ (s.worthAt m stages) (worthAt m stages { s with a := x, b := y }) s.mulCtrl
        stages (m.product stages x y) marker h0 (fun k hk => ?_) rfl
      · simp only [pending, hinf]
        rw [List.append_assoc, List.append_assoc]
        refine congrArg _ (Eq.trans ?_ (congrArg (· ++ []) hview |>.trans ?_))
        · rfl
        · simp [expected]
      · obtain ⟨k, rfl⟩ := Nat.exists_eq_succ_of_ne_zero hk.ne'
        rfl

/-- What waits after the last rule: nothing, if the result could be taken. -/
lemma waits_finalXfer {k : ℕ} (hk : k < stages) :
    (∀ j ≤ stages, k + 1 ≤ j → ((s.finalXfer m stages).mulCtrl j).isSome) ↔
      s.outf.isSome ∧ ∀ j ≤ stages, k + 1 ≤ j → (s.mulCtrl j).isSome := by
  cases hlast : s.mulCtrl stages with
  | none =>
    have hsame : s.finalXfer m stages = s := by rw [finalXfer, hlast]
    have hnot : ¬∀ j ≤ stages, k + 1 ≤ j → (s.mulCtrl j).isSome := by
      intro hall
      have hsome := hall stages le_rfl hk
      rw [hlast] at hsome
      cases hsome
    rw [hsame, eq_false hnot, and_false]
  | some marker =>
    cases hout : s.outf with
    | some result =>
      have hsame : s.finalXfer m stages = s := by rw [finalXfer, hlast, hout]
      rw [hsame]
      exact (and_iff_right rfl).symm
    | none =>
      have hgone : (s.finalXfer m stages).mulCtrl stages = none := by
        rw [finalXfer, hlast, hout]
        exact Function.update_self _ _ _
      constructor
      · intro hall
        have hsome := hall stages le_rfl hk
        rw [hgone] at hsome
        cases hsome
      · rintro ⟨hsome, -⟩
        cases hsome

lemma worthAt_finalXfer : (s.finalXfer m stages).worthAt m stages = s.worthAt m stages := by
  unfold finalXfer
  cases s.mulCtrl stages with
  | none => rfl
  | some marker =>
    cases s.outf with
    | none => funext k; cases k <;> rfl
    | some result => rfl

/-- The rules keep the results that are to come exactly if the markers that wait keep theirs. -/
lemma pending_rules (hstages : 0 < stages) :
    (s.rules m stages).pending m stages = s.pending m stages ↔
      ∀ k < stages, (s.outf.isSome ∧ ∀ j ≤ stages, k + 1 ≤ j → (s.mulCtrl j).isSome) →
        s.worthAt m stages k = s.worthAt m stages (k + 1) := by
  rw [rules, pending_start, ← @pending_finalXfer _ _ _ _ m stages s hstages, pending, pending, List.append_left_inj,
    List.append_right_inj, view_doCtrls]
  · refine forall₂_congr fun k hk => ?_
    rw [waits_finalXfer hk, worthAt_finalXfer]
  · rfl
  · intro k hk
    cases k with
    | zero => rfl
    | succ k => exact MulStages.value_doShift hk _

/-- **A cycle keeps the results that are to come**, apart from the one that is got and with the one of new operands,
exactly if the markers that wait keep theirs. -/
theorem step_iff [DecidableEq ω] (hstages : 0 < stages) (h : (pipeMul m stages μ).step s c = some (s', es)) :
    gots es ++ s'.pending m stages = s.pending m stages ++ expected m stages (puts es) ↔
      s.KeepsProducts m stages c := by
  simp only [pipeMul, step, Option.bind_eq_bind, Option.bind_eq_some_iff, Option.pure_def, Option.some.injEq,
    Prod.mk.injEq] at h
  obtain ⟨⟨s₁, got⟩, hget, ⟨s₂, put⟩, hput, rfl, rfl⟩ := h
  obtain ⟨hgot, hnoput, rfl⟩ := @get_eq_some _ _ _ _ m stages _ _ _ _ hget
  obtain ⟨hpending, hnogot⟩ := @put_eq_some _ _ _ _ m stages _ _ _ _ hput
  rw [gots_append, hnogot, List.append_nil, puts_append, hnoput, List.nil_append, hpending, ← hgot, ← List.append_assoc,
    List.append_left_inj, List.append_right_inj, pending_rules hstages]
  refine forall₂_congr fun k hk => ?_
  have hout : (if c.get then none else s.outf).isSome ↔ s.outf.isSome ∧ c.get = false := by
    cases c.get <;> simp
  rw [Waits, ← hout]
  rfl

/-! ## The runs -/

/-- **The invariant**: the results that were got and those that are to come are those of the operands, in order. -/
def Right (m : MulStages dsz ρ ω) (stages : ℕ) (tr : List (Event dsz ω μ)) (s : PipeMul dsz ρ ω μ) : Prop :=
  gots tr ++ s.pending m stages = expected m stages (puts tr)

lemma right_reset (bits : ρ) (a b : BitVec dsz) : Right m stages [] (reset bits a b : PipeMul dsz ρ ω μ) := by
  have hview : ∀ n (worth : ℕ → ω), view worth (fun _ => (none : Option μ)) n = [] := by
    intro n worth
    induction n with
    | zero => rfl
    | succ n ih => rw [view, ih]; rfl
  exact congrArg (· ++ []) (hview stages _)

/-- A cycle keeps the invariant exactly if the markers that wait keep their results. -/
lemma Right.step_iff [DecidableEq ω] (hstages : 0 < stages) (h : Right m stages tr s)
    (hstep : (pipeMul m stages μ).step s c = some (s', es)) :
    Right m stages (tr ++ es) s' ↔ s.KeepsProducts m stages c := by
  rw [← PipeMul.step_iff hstages hstep, Right, gots_append, puts_append, expected, List.map_append, ← expected,
    ← expected, ← h, List.append_assoc, List.append_assoc, List.append_right_inj]

/-- The invariant holds along the runs in which it is kept. -/
theorem right_of_keepsProducts [DecidableEq ω] (hstages : 0 < stages) {bits : ρ} {a b : BitVec dsz}
    (h : ((pipeMul m stages μ).guard (KeepsProducts m stages)).Reaches (reset bits a b) tr s) :
    Right m stages tr s := by
  refine h.invariant (right_reset bits a b) fun hs hstep => ?_
  obtain ⟨hkeeps, hstep⟩ := RuleSystem.guard_step.mp hstep
  exact (hs.step_iff hstages hstep).mpr hkeeps

/-- A consumer that takes each result at once: nothing waits, so in any state the results come out that are to come, and
then those of the operands that are put. -/
theorem pending_of_prompt [DecidableEq ω] (hstages : 0 < stages) {s₀ : PipeMul dsz ρ ω μ}
    (h : ((pipeMul m stages μ).guard fun s c => s.outf.isSome → c.get).Reaches s₀ tr s) :
    gots tr ++ s.pending m stages = s₀.pending m stages ++ expected m stages (puts tr) := by
  refine h.invariant
    (I := fun tr s => gots tr ++ s.pending m stages = s₀.pending m stages ++ expected m stages (puts tr))
    (List.append_nil _).symm fun {tr s c s' es} hs hstep => ?_
  obtain ⟨hprompt, hstep⟩ := RuleSystem.guard_step.mp hstep
  have hkeeps : s.KeepsProducts m stages c := by
    rintro k - ⟨⟨hsome, hget⟩, -⟩
    rw [hprompt hsome] at hget
    cases hget
  have hnew := (PipeMul.step_iff hstages hstep).mpr hkeeps
  rw [gots_append, puts_append, expected, List.map_append, ← expected, ← expected, ← List.append_assoc, ← hs,
    List.append_assoc, List.append_assoc, hnew]

/-- **The multipliers are right in all runs in which the markers that wait keep their results**: the results come out in
the order of the operands, each with its marker, and none is lost. The first cycle in which a marker loses its result
makes one wrong. -/
theorem results_of_keepsProducts {dsz : ℕ} {μ : Type} {a b : BitVec dsz} :
    (∀ {stages : ℕ} {tr : List (Event dsz (BitVec dsz) μ)} {s : PipeMul dsz (BitVec (2 * dsz)) (BitVec dsz) μ},
      0 < stages →
      ((pipeMul (mkPipeMul dsz) stages μ).guard (KeepsProducts (mkPipeMul dsz) stages)).Reaches (reset 0 a b) tr s →
      (gots tr ++ s.pending (mkPipeMul dsz) stages = (puts tr).map fun p => (p.1 * p.2.1, p.2.2)) ∧
      ∀ c s' es, (pipeMul (mkPipeMul dsz) stages μ).step s c = some (s', es) →
        (Right (mkPipeMul dsz) stages (tr ++ es) s' ↔ s.KeepsProducts (mkPipeMul dsz) stages c)) ∧
    ∀ {tr : List (Event dsz (BitVec (2 * dsz)) μ)}
      {s : PipeMul dsz (BitVec (2 * dsz) × BitVec (2 * dsz)) (BitVec (2 * dsz)) μ},
      ((pipeMul (mkPipeMul2 dsz) 2 μ).guard (KeepsProducts (mkPipeMul2 dsz) 2)).Reaches (reset (0, 0) a b) tr s →
      (gots tr ++ s.pending (mkPipeMul2 dsz) 2 =
        (puts tr).map fun p => (p.1.setWidth (2 * dsz) * p.2.1.setWidth (2 * dsz), p.2.2)) ∧
      ∀ c s' es, (pipeMul (mkPipeMul2 dsz) 2 μ).step s c = some (s', es) →
        (Right (mkPipeMul2 dsz) 2 (tr ++ es) s' ↔ s.KeepsProducts (mkPipeMul2 dsz) 2 c) := by
  constructor
  · intro stages tr s hstages h
    have hright := right_of_keepsProducts hstages h
    refine ⟨hright.trans ?_, fun c s' es hstep => hright.step_iff hstages hstep⟩
    exact List.map_congr_left fun p _ => by rw [product_mkPipeMul]
  · intro tr s h
    have hright := right_of_keepsProducts Nat.two_pos h
    refine ⟨hright.trans ?_, fun c s' es hstep => hright.step_iff Nat.two_pos hstep⟩
    exact List.map_congr_left fun p _ => by rw [product_mkPipeMul2]

/-- Three products, and a consumer that waits once the last operands are on their way. -/
def lastWaits : List (Cycle 16 ℕ) :=
  [⟨some (2, 3, 0), false⟩, ⟨some (4, 5, 1), false⟩, ⟨some (6, 7, 2), false⟩, ⟨none, false⟩, ⟨none, true⟩,
    ⟨none, true⟩, ⟨none, false⟩, ⟨none, false⟩, ⟨none, true⟩]

/-- A run of `mkPipeMul` with one stage. -/
def oneStage := (pipeMul (mkPipeMul 16) 1 ℕ).guard (KeepsProducts (mkPipeMul 16) 1) |>.run (reset 0 0 0) lastWaits

/-- A run of `mkPipeMul2`. -/
def twoStages :=
  (pipeMul (mkPipeMul2 16) 2 ℕ).guard (KeepsProducts (mkPipeMul2 16) 2) |>.run (reset (0, 0) 0 0)
    [⟨some (3, 0xffff, 0), false⟩, ⟨none, false⟩, ⟨none, false⟩, ⟨none, false⟩, ⟨none, false⟩, ⟨none, true⟩]

/-- Their results. -/
theorem results_of_keepsProducts_lastWaits :
    (gots oneStage.2 = [(6, 0), (20, 1), (42, 2)] ∧
      gots oneStage.2 ++ oneStage.1.pending (mkPipeMul 16) 1 =
        (puts oneStage.2).map fun p => (p.1 * p.2.1, p.2.2)) ∧
    gots twoStages.2 = [(0x2fffd, 0)] ∧
      gots twoStages.2 ++ twoStages.1.pending (mkPipeMul2 16) 2 =
        (puts twoStages.2).map fun p => (p.1.setWidth 32 * p.2.1.setWidth 32, p.2.2) := by
  have hone : ((pipeMul (mkPipeMul 16) 1 ℕ).guard (KeepsProducts (mkPipeMul 16) 1)).Reaches (reset 0 0 0)
      oneStage.2 oneStage.1 := RuleSystem.reaches_run _ _
  have htwo : ((pipeMul (mkPipeMul2 16) 2 ℕ).guard (KeepsProducts (mkPipeMul2 16) 2)).Reaches (reset (0, 0) 0 0)
      twoStages.2 twoStages.1 := RuleSystem.reaches_run _ _
  exact ⟨⟨by decide +kernel, (results_of_keepsProducts.1 Nat.one_pos hone).1⟩, by decide +kernel,
    (results_of_keepsProducts.2 htwo).1⟩

/-- The same operands, and a consumer that waits for the first result too. -/
def firstWaits : List (Cycle 16 Unit) :=
  [⟨some (2, 3, ()), false⟩, ⟨some (4, 5, ()), false⟩, ⟨some (6, 7, ()), false⟩, ⟨none, false⟩, ⟨none, false⟩,
    ⟨none, true⟩, ⟨none, true⟩, ⟨none, true⟩]

/-- A run of `mkPipeMul` with one stage. -/
def stalled := (pipeMul (mkPipeMul 16) 1 Unit).run (reset 0 0 0) firstWaits

/-- The result of the third operands comes out twice. -/
theorem not_results_stalled :
    (pipeMul (mkPipeMul 16) 1 Unit).Reaches (reset 0 0 0) stalled.2 stalled.1 ∧
      puts stalled.2 = [(2, 3, ()), (4, 5, ()), (6, 7, ())] ∧ gots stalled.2 = [(6, ()), (42, ()), (42, ())] ∧
      ¬gots stalled.2 <+: (puts stalled.2).map fun p => (p.1 * p.2.1, p.2.2) := by
  have hputs : puts stalled.2 = [(2, 3, ()), (4, 5, ()), (6, 7, ())] := by decide +kernel
  have hgots : gots stalled.2 = [(6, ()), (42, ()), (42, ())] := by decide +kernel
  refine ⟨RuleSystem.reaches_run _ _, hputs, hgots, ?_⟩
  rw [hputs, hgots]
  decide

end PipeMul

end Xbsv
