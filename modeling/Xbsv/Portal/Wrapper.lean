import Xbsv.Portal.Packing

set_option relaxedAutoImplicit false
set_option autoImplicit false

/-!
# The fields that a wrapper reads

The code for a word takes every piece from its place. The piece at which a field ends is assigned and the
others are added; the words are read from the most significant one on, so the piece that is assigned comes
first.

## Main definitions

* `Xbsv.assignWord` — the fields after a word has been read.
* `Xbsv.Holds` — fields have the bits of a message.

## Main results

* `Xbsv.holds_accumWords` — the fields after all words have been read.
* `Xbsv.Exact.exists_demarshall` — what a wrapper reads.
-/

namespace Xbsv

open Bits

variable [MathLog]

/-- The number of bits in which a field is stored. -/
def fieldBits (name : Name) (datatype : BsvType) : ℕ :=
  match datatype.cName.bind CName.ty with
  | some ty => fieldWidth name datatype ty
  | none => 0

/-- A piece of a field, taken from a word. -/
def ParamInfo.piece (e : ParamInfo) (off : ℕ) (x : BitVec 32) : BitVec 64 :=
  ((x >>> off).setWidth (e.width - e.shifted)).setWidth 64 <<< e.shifted

/-- The fields after a piece has been read. -/
def assignPiece (off : ℕ) (x : BitVec 32) (fields : Fields) (e : ParamInfo) : Fields :=
  Function.update fields e.name (match e.assignOp with
    | .set => e.piece off x
    | .or => ((fields e.name).setWidth (fieldBits e.name e.datatype)).setWidth 64 ||| e.piece off x)

/-- The fields after a word has been read. -/
def assignWord : ℕ → BitVec 32 → Fields → List ParamInfo → Fields
  | _, _, fields, [] => fields
  | off, x, fields, e :: w =>
    assignWord (off + (e.width - e.shifted)) x (assignPiece off x fields e) w

/-! ## The code for a word -/

variable {off : ℕ} {e : ParamInfo}

omit [MathLog] in
lemma getLsbD_piece (he : e.width ≤ 64) (x : BitVec 32) (i : ℕ) :
    (e.piece off x).getLsbD i =
      (decide (e.shifted ≤ i) && (decide (i < e.width) && x.getLsbD (off + (i - e.shifted)))) := by
  unfold ParamInfo.piece
  rw [BitVec.getLsbD_shiftLeft, BitVec.getLsbD_setWidth, BitVec.getLsbD_setWidth, BitVec.getLsbD_ushiftRight]
  by_cases hs : e.shifted ≤ i
  · by_cases hw : i < e.width
    · rw [decide_eq_true (show i < 64 by omega), decide_eq_false (show ¬ i < e.shifted by omega),
        decide_eq_true (show i - e.shifted < 64 by omega),
        decide_eq_true (show i - e.shifted < e.width - e.shifted by omega), decide_eq_true hs,
        decide_eq_true hw]
      simp
    · rw [decide_eq_false (show ¬ i - e.shifted < e.width - e.shifted by omega), decide_eq_false hw]
      simp
  · rw [decide_eq_true (show i < e.shifted by omega), decide_eq_false hs]
    simp

/-- A type is wide enough for a piece. -/
lemma Fits.width_le_of {ty : C.Ty} (he : Fits off e) (hle : e.datatype.bitWidth ≤ ty.width) :
    e.width ≤ ty.width ∧ ty.width ≤ 64 :=
  ⟨Nat.le_trans he.width_le hle, by cases ty <;> decide⟩

/-- The value that is assigned for a piece. -/
lemma eval_value (he : Fits off e) {c : CName} {ty : C.Ty} (hc : c.ty = some ty)
    (hle : e.datatype.bitWidth ≤ ty.width) (m : Machine) :
    ∃ v, (e.value c off).eval m = some v ∧ v.ty = ty ∧ ∀ i, i < ty.width →
      v.bit i = (e.piece off m.tmp).getLsbD i := by
  obtain ⟨hwidth, h64⟩ := he.width_le_of hle
  have hoff := he.off_lt
  have hshift := he.shifted_lt
  -- `tmp`, shifted down
  obtain ⟨v₁, hv₁, hty₁, hbit₁⟩ : ∃ v₁, (if off ≠ 0 then Expr.shr .tmp off else .tmp).eval m = some v₁ ∧
      v₁.ty = .uint ∧ ∀ i, v₁.bit i = m.tmp.getLsbD (off + i) := by
    have hbit : ∀ i, (⟨.uint, m.tmp⟩ : C.Val).bit i = m.tmp.getLsbD i := by
      intro i
      rcases Nat.lt_or_ge i 32 with hi | hi
      · exact if_pos hi
      · rw [BitVec.getLsbD_of_ge _ _ hi]
        exact C.Val.bit_of_le (by simp) hi
    split
    · obtain ⟨v₁, hv₁⟩ : ∃ v₁, (⟨.uint, m.tmp⟩ : C.Val).shiftRight off = some v₁ :=
        ⟨_, if_pos (show off < C.Ty.uint.width from hoff)⟩
      refine ⟨v₁, hv₁, (C.Val.bit_shiftRight (i := 0) hv₁).1, fun i => ?_⟩
      rw [(C.Val.bit_shiftRight hv₁).2, hbit, Nat.add_comm]
    · rename_i h0
      rw [not_not] at h0
      exact ⟨_, rfl, rfl, fun i => by rw [h0, Nat.zero_add, hbit]⟩
  -- the mask
  obtain ⟨v₂, hv₂, hbit₂⟩ : ∃ v₂, (Expr.mask (if off ≠ 0 then Expr.shr .tmp off else .tmp)
      (2 ^ (e.datatype.bitWidth - e.shifted) - 1)).eval m = some v₂ ∧ ∀ i, i < 64 →
        v₂.bit i = (m.tmp.getLsbD (off + i) && decide (i < e.datatype.bitWidth - e.shifted)) := by
    refine ⟨v₁.and ⟨.ulong, BitVec.ofNat 64 (2 ^ (e.datatype.bitWidth - e.shifted) - 1)⟩, ?_, fun i hi => ?_⟩
    · simp only [Expr.eval, hv₁, bind, pure, Option.bind_some]
    · rw [C.Val.bit_and (by rw [hty₁]; exact hi), hbit₁, C.Val.bit_of_lt (show i < C.Ty.ulong.width from hi)]
      show (_ && (BitVec.ofNat 64 _).getLsbD i) = _
      rw [BitVec.getLsbD_ofNat, decide_eq_true hi, Bool.true_and, Nat.testBit_two_pow_sub_one]
  -- the bits above the piece are cut off by the mask or by the word
  have hpiece : ∀ i, i < ty.width → (e.piece off m.tmp).getLsbD i = (decide (e.shifted ≤ i) &&
      (m.tmp.getLsbD (off + (i - e.shifted)) && decide (i - e.shifted < e.datatype.bitWidth - e.shifted))) := by
    intro i _
    rw [getLsbD_piece (by omega)]
    by_cases hs : e.shifted ≤ i
    · rw [decide_eq_true hs, Bool.true_and, Bool.true_and]
      by_cases hw : i < e.width
      · have hwl := he.width_le
        rw [decide_eq_true hw, decide_eq_true (show i - e.shifted < e.datatype.bitWidth - e.shifted by omega),
          Bool.true_and, Bool.and_true]
      · rw [decide_eq_false hw, Bool.false_and]
        rcases he.ends with ⟨hend, -⟩ | ⟨hend, -⟩
        · rw [decide_eq_false (by omega), Bool.and_false]
        · rw [BitVec.getLsbD_of_ge _ _ (by omega), Bool.false_and]
    · rw [decide_eq_false hs, Bool.false_and, Bool.false_and]
  -- shifted up
  obtain ⟨v₃, hv₃, hbit₃⟩ : ∃ v₃, (if e.shifted ≠ 0 then Expr.shl (.cast c (Expr.mask (if off ≠ 0 then
      Expr.shr .tmp off else .tmp) (2 ^ (e.datatype.bitWidth - e.shifted) - 1))) e.shifted else
      Expr.mask (if off ≠ 0 then Expr.shr .tmp off else .tmp)
        (2 ^ (e.datatype.bitWidth - e.shifted) - 1)).eval m = some v₃ ∧ ∀ i, i < ty.width →
          v₃.bit i = (e.piece off m.tmp).getLsbD i := by
    split
    · obtain ⟨v₃, hv₃⟩ : ∃ v₃, (v₂.cast ty).shiftLeft e.shifted = some v₃ :=
        ⟨_, if_pos (show e.shifted < ty.width by omega)⟩
      refine ⟨v₃, ?_, fun i hi => ?_⟩
      · rw [Expr.eval, Expr.eval, hv₂, hc]
        exact hv₃
      · rw [(C.Val.bit_shiftLeft hv₃ hi).2, C.Val.bit_cast (by omega), hbit₂ _ (by omega), hpiece i hi]
    · rename_i h0
      rw [not_not] at h0
      refine ⟨v₂, hv₂, fun i hi => ?_⟩
      rw [hbit₂ _ (by omega), hpiece i hi, h0]
      simp
  refine ⟨v₃.cast ty, ?_, rfl, fun i hi => ?_⟩
  · simp only [ParamInfo.value, Expr.eval, bind, pure] at hv₃ ⊢
    rw [hv₃, hc]
    rfl
  · rw [C.Val.bit_cast hi, hbit₃ i hi]

/-- A field of an integer type has room for its width and not more than the type. -/
lemma bitWidth_le_fieldWidth {t : BsvType} {ty : C.Ty} (hle : t.bitWidth ≤ ty.width) (name : Name) :
    t.bitWidth ≤ fieldWidth name t ty ∧ fieldWidth name t ty ≤ ty.width := by
  unfold fieldWidth
  split
  · exact ⟨le_rfl, hle⟩
  · exact ⟨hle, le_rfl⟩

/-- What is stored in a field. -/
lemma store_eq {fields : Fields} {name : Name} {t : BsvType} {c : CName} {ty : C.Ty} (hcn : t.cName = some c)
    (hc : c.ty = some ty) (hle : t.bitWidth ≤ ty.width) {v : C.Val} {y : BitVec 64}
    (hy : ∀ i, y.getLsbD i = (decide (i < fieldWidth name t ty) && v.bit i)) :
    fields.store name t v = some (Function.update fields name y) := by
  have hw := (bitWidth_le_fieldWidth hle name).2
  have hval : ((v.conv ty).setWidth (fieldWidth name t ty)).setWidth 64 = y := by
    refine BitVec.eq_of_getLsbD_eq fun i hi => ?_
    rw [hy, BitVec.getLsbD_setWidth, decide_eq_true hi, Bool.true_and, BitVec.getLsbD_setWidth]
    by_cases hlt : i < fieldWidth name t ty
    · rw [decide_eq_true hlt, Bool.true_and, Bool.true_and, C.Val.getLsbD_conv (by omega)]
    · rw [decide_eq_false hlt, Bool.false_and, Bool.false_and]
  simp only [Fields.store, hcn, hc, bind, pure, Option.bind_some, hval]

/-- A field that is read has the bits that were stored. -/
lemma exists_read_bits (fields : Fields) (name : Name) {t : BsvType} {c : CName} {ty : C.Ty} (hcn : t.cName = some c)
    (hc : c.ty = some ty) (hle : t.bitWidth ≤ ty.width) :
    ∃ v, fields.read name t = some v ∧
      ∀ i, i < fieldWidth name t ty → v.bit i = (fields name).getLsbD i := by
  have hw := (bitWidth_le_fieldWidth hle name).2
  refine ⟨_, Fields.read_eq hcn hc fields name, fun i hi => ?_⟩
  have hlt : i < (if fieldWidth name t ty < 32 then C.Ty.int else ty).width := by
    split
    · rename_i h32
      exact Nat.lt_trans hi h32
    · omega
  rw [C.Val.bit_of_lt hlt, BitVec.getLsbD_setWidth, BitVec.getLsbD_setWidth, decide_eq_true hlt,
    decide_eq_true hi, Bool.true_and, Bool.true_and]

/-- The statement for a piece. -/
lemma exec_assign (he : Fits off e) {c : CName} {ty : C.Ty} (hcn : e.datatype.cName = some c)
    (hc : c.ty = some ty) (hle : e.datatype.bitWidth ≤ ty.width) (m : Machine) :
    (Stmt.assign e.name e.datatype e.assignOp (e.value c off)).exec m =
      some { m with fields := assignPiece off m.tmp m.fields e } := by
  obtain ⟨v, hv, hty, hbit⟩ := eval_value he hc hle m
  obtain ⟨hwidth, h64⟩ := he.width_le_of hle
  have hfw := bitWidth_le_fieldWidth hle e.name
  have hbits : fieldBits e.name e.datatype = fieldWidth e.name e.datatype ty := by
    rw [fieldBits, hcn, Option.bind_some, hc]
  have hset : ∀ i, (e.piece off m.tmp).getLsbD i =
      (decide (i < fieldWidth e.name e.datatype ty) && v.bit i) := by
    intro i
    by_cases hi : i < fieldWidth e.name e.datatype ty
    · rw [decide_eq_true hi, Bool.true_and, hbit i (by omega)]
    · have hwl := he.width_le
      rw [decide_eq_false hi, Bool.false_and, getLsbD_piece (by omega),
        decide_eq_false (show ¬ i < e.width by omega), Bool.false_and, Bool.and_false]
  simp only [Stmt.exec, hv, bind, pure, Option.bind_some]
  cases hop : e.assignOp with
  | set =>
    simp only
    rw [store_eq hcn hc hle hset, assignPiece, hop]
    rfl
  | or =>
    obtain ⟨old, hold, hobit⟩ := exists_read_bits m.fields e.name hcn hc hle
    have hor : ∀ i, (((m.fields e.name).setWidth (fieldBits e.name e.datatype)).setWidth 64 |||
        e.piece off m.tmp).getLsbD i =
          (decide (i < fieldWidth e.name e.datatype ty) && (old.or v).bit i) := by
      intro i
      rw [BitVec.getLsbD_or, hset, BitVec.getLsbD_setWidth, BitVec.getLsbD_setWidth, hbits]
      by_cases hi : i < fieldWidth e.name e.datatype ty
      · have hcommon : i < (old.ty.common v.ty).width := by
          have := C.Ty.le_common old.ty v.ty
          rw [hty] at this ⊢
          omega
        rw [decide_eq_true hi, decide_eq_true (show i < 64 by omega), Bool.true_and, Bool.true_and,
          Bool.true_and, Bool.true_and, C.Val.bit_or hcommon, hobit i hi]
      · rw [decide_eq_false hi]
        simp
    simp only [hold, Option.bind_some]
    rw [store_eq hcn hc hle hor, assignPiece, hop]
    rfl

/-- The statements for the pieces of a word. -/
lemma exec_demarshallFrom {w : List ParamInfo} (hp : Placed off w) (ht : ∀ e ∈ w, Integral e.datatype) :
    ∃ code, demarshallFrom off w = some code ∧ ∀ m, code.foldlM Stmt.exec m =
      some { m with fields := assignWord off m.tmp m.fields w } := by
  induction w generalizing off with
  | nil => exact ⟨[], rfl, fun m => rfl⟩
  | cons e w ih =>
    obtain ⟨c, ty, hcn, hc, hle⟩ := ht e List.mem_cons_self
    have hfloat : c ≠ .float := by
      rintro rfl
      cases hc
    have hoff : off + e.width - e.shifted = off + (e.width - e.shifted) := by
      have := hp.1.shifted_lt
      omega
    obtain ⟨code, hcode, hexec⟩ := ih hp.2 fun x hx => ht x (List.mem_cons_of_mem _ hx)
    refine ⟨.assign e.name e.datatype e.assignOp (e.value c off) :: code, ?_, fun m => ?_⟩
    · simp only [demarshallFrom, hcn, bind, pure, Option.bind_some, if_neg hfloat, hoff, hcode]
    · rw [List.foldlM_cons, exec_assign hp.1 hcn hc hle]
      simp only [bind, Option.bind_some]
      rw [hexec, assignWord]

/-- The statements for some words. The words that are read stand beside their pieces. -/
lemma exec_demarshalls {ws : List (List ParamInfo × BitVec 32)}
    (h : ∀ w ∈ ws.map Prod.fst, Placed 0 w ∧ ∀ e ∈ w, Integral e.datatype) :
    ∃ code, (ws.map Prod.fst).mapM generateDemarshall = some code ∧ ∀ m rest,
      m.input = ws.map Prod.snd ++ rest → ∃ m', code.flatten.foldlM Stmt.exec m = some m' ∧
        m'.fields = ws.foldl (fun fields w => assignWord 0 w.2 fields w.1) m.fields ∧ m'.input = rest := by
  induction ws with
  | nil => exact ⟨[], rfl, fun m rest hm => ⟨m, rfl, rfl, hm⟩⟩
  | cons w ws ih =>
    rw [List.map_cons] at h
    obtain ⟨hp, ht⟩ := h w.1 List.mem_cons_self
    obtain ⟨stmts, hstmts, hexec⟩ := exec_demarshallFrom hp ht
    obtain ⟨code, hcode, hexecs⟩ := ih fun x hx => h x (List.mem_cons_of_mem _ hx)
    refine ⟨(.readl :: stmts) :: code, ?_, fun m rest hm => ?_⟩
    · rw [List.map_cons, List.mapM_cons, hcode]
      simp only [generateDemarshall, hstmts, bind, pure, Option.bind_some]
    · rw [List.map_cons, List.cons_append] at hm
      obtain ⟨m', hm', hfields, hrest⟩ := hexecs { m with
        tmp := w.2
        input := ws.map Prod.snd ++ rest
        fields := assignWord 0 w.2 m.fields w.1 } rest rfl
      refine ⟨m', ?_, hfields, hrest⟩
      rw [List.flatten_cons, List.cons_append, List.foldlM_cons]
      simp only [Stmt.exec, hm, bind, Option.bind_some]
      rw [List.foldlM_append, hexec]
      exact hm'

/-! ## Frames -/

section Frames

variable {x : BitVec 32} {fields fields' : Fields} {name : Name} {w : List ParamInfo}

/-- A piece of another field changes nothing. -/
lemma assignPiece_of_ne (h : name ≠ e.name) : assignPiece off x fields e name = fields name :=
  Function.update_of_ne h _ _

/-- What is assigned to a field depends on this field only. -/
lemma assignPiece_congr (h : fields name = fields' name) :
    assignPiece off x fields e name = assignPiece off x fields' e name := by
  by_cases hn : name = e.name
  · subst hn
    rw [assignPiece, assignPiece, Function.update_self, Function.update_self, h]
  · rw [assignPiece_of_ne hn, assignPiece_of_ne hn, h]

lemma assignWord_congr (h : fields name = fields' name) :
    assignWord off x fields w name = assignWord off x fields' w name := by
  induction w generalizing off fields fields' with
  | nil => exact h
  | cons e w ih =>
    rw [assignWord, assignWord]
    exact ih (assignPiece_congr h)

lemma assignWord_of_notMem (h : ∀ e ∈ w, name ≠ e.name) :
    assignWord off x fields w name = fields name := by
  induction w generalizing off fields with
  | nil => rfl
  | cons e w ih =>
    rw [assignWord, ih fun e' he' => h e' (List.mem_cons_of_mem _ he'),
      assignPiece_of_ne (h e List.mem_cons_self)]

lemma assignWord_concat (w : List ParamInfo) (e : ParamInfo) :
    assignWord off x fields (w ++ [e]) = assignPiece (off + binWidth w) x (assignWord off x fields w) e := by
  induction w generalizing off fields with
  | nil => rfl
  | cons y w ih =>
    have hbin : binWidth (y :: w) = y.width - y.shifted + binWidth w := by simp [binWidth]
    rw [List.cons_append, assignWord, ih, assignWord, hbin, Nat.add_assoc]

end Frames

/-! ## Messages -/

/-- The fields have the bits `g`, one after the other from `p` on; of the first field the lowest `pro` bits
are missing. -/
def Holds (fields : Fields) (g : ℕ → Bool) : ℕ → ℕ → List (Name × BsvType) → Prop
  | _, _, [] => True
  | p, pro, a :: atoms =>
    (∀ i, (fields a.1).getLsbD i =
      (decide (pro ≤ i) && (decide (i < a.2.bitWidth) && g (p + (i - pro))))) ∧
      Holds fields g (p + (a.2.bitWidth - pro)) 0 atoms

section Holds

variable {fields fields' : Fields} {g : ℕ → Bool} {p pro : ℕ} {atoms : List (Name × BsvType)}

lemma Holds.congr (h : Holds fields g p pro atoms) (hf : ∀ a ∈ atoms, fields' a.1 = fields a.1) :
    Holds fields' g p pro atoms := by
  induction atoms generalizing p pro with
  | nil => trivial
  | cons a atoms ih =>
    refine ⟨fun i => ?_, ih h.2 fun b hb => hf b (List.mem_cons_of_mem _ hb)⟩
    rw [hf a List.mem_cons_self, h.1]

/-- A message that begins a word later. -/
lemma Holds.add (h : Holds fields (fun j => g (j + 32)) p pro atoms) : Holds fields g (p + 32) pro atoms := by
  induction atoms generalizing p pro with
  | nil => trivial
  | cons a atoms ih =>
    refine ⟨fun i => ?_, ?_⟩
    · rw [h.1, show p + 32 + (i - pro) = p + (i - pro) + 32 by omega]
    · rw [show p + 32 + (a.2.bitWidth - pro) = p + (a.2.bitWidth - pro) + 32 by omega]
      exact ih h.2

/-- The fields with their places. -/
lemma Holds.getLsbD (h : Holds fields g p 0 atoms) {q : ℕ × Name × BsvType} (hq : q ∈ places p atoms)
    (i : ℕ) : (fields q.2.1).getLsbD i = (decide (i < q.2.2.bitWidth) && g (q.1 + i)) := by
  induction atoms generalizing p with
  | nil => cases hq
  | cons a atoms ih =>
    rw [places, List.mem_cons] at hq
    rcases hq with rfl | hq
    · simpa using h.1 i
    · have hrest := h.2
      rw [Nat.sub_zero] at hrest
      exact ih hrest hq

end Holds

/-- The bits of words, the least significant word first. -/
def wordsBit (xs : List (BitVec 32)) (j : ℕ) : Bool := (xs.getD (j / 32) 0).getLsbD (j % 32)

omit [MathLog] in
lemma wordsBit_cons (x : BitVec 32) (xs : List (BitVec 32)) (j : ℕ) :
    wordsBit (x :: xs) (j + 32) = wordsBit xs j := by
  rw [wordsBit, wordsBit, show (j + 32) / 32 = j / 32 + 1 by omega, List.getD_cons_succ,
    Nat.add_mod_right]

omit [MathLog] in
lemma wordsBit_of_lt (xs : List (BitVec 32)) {j : ℕ} (hj : j < 32) :
    wordsBit xs j = (xs.headD 0).getLsbD j := by
  rw [wordsBit, Nat.div_eq_of_lt hj, Nat.mod_eq_of_lt hj]
  cases xs <;> rfl

/-- The fields after the words `xs` have been read. The first of them is the least significant one, and is
read last. -/
def readWords (fields : Fields) (ws : List (List ParamInfo)) (xs : List (BitVec 32)) : Fields :=
  (ws.zip xs).foldr (fun w fields => assignWord 0 w.2 fields w.1) fields

/-- The bits of a piece at which its field ends. -/
lemma getLsbD_assignPiece_set {p pro : ℕ} {a : Name × BsvType} {x : BitVec 32} {fields : Fields} {g : ℕ → Bool}
    (ha : a.2.bitWidth ≤ 64) (hend : p + (a.2.bitWidth - pro) ≤ 32) (hg : ∀ j, j < 32 → g j = x.getLsbD j)
    (i : ℕ) : (assignPiece p x fields ⟨a.1, a.2.bitWidth, pro, a.2, .set⟩ a.1).getLsbD i =
      (decide (pro ≤ i) && (decide (i < a.2.bitWidth) && g (p + (i - pro)))) := by
  rw [assignPiece, Function.update_self]
  show (ParamInfo.piece _ p x).getLsbD i = _
  rw [getLsbD_piece ha]
  show (decide (pro ≤ i) && (decide (i < a.2.bitWidth) && x.getLsbD (p + (i - pro)))) = _
  by_cases hlo : pro ≤ i
  · by_cases hhi : i < a.2.bitWidth
    · rw [hg _ (by omega)]
    · rw [decide_eq_false hhi, Bool.false_and, Bool.false_and]
  · rw [decide_eq_false hlo, Bool.false_and, Bool.false_and]

/-- A piece whose field goes on is added to the bits that the words after it have left in the field. -/
lemma getLsbD_assignPiece_or {p pro : ℕ} {a : Name × BsvType} {x : BitVec 32} {xs : List (BitVec 32)}
    {fields : Fields} (hp : p < 32) (hgt : 32 < a.2.bitWidth - pro + p) (hpro : pro < a.2.bitWidth)
    (hst : a.2.bitWidth ≤ 64 ∧ a.2.bitWidth ≤ fieldBits a.1 a.2)
    (hlater : ∀ i, (fields a.1).getLsbD i = (decide (pro + (32 - p) ≤ i) &&
      (decide (i < a.2.bitWidth) && wordsBit xs (i - (pro + (32 - p)))))) (i : ℕ) :
    (assignPiece p x fields ⟨a.1, pro + (32 - p), pro, a.2, .or⟩ a.1).getLsbD i =
      (decide (pro ≤ i) && (decide (i < a.2.bitWidth) && wordsBit (x :: xs) (p + (i - pro)))) := by
  obtain ⟨h64, hbits⟩ := hst
  rw [assignPiece, Function.update_self]
  show ((BitVec.setWidth _ _).setWidth 64 ||| ParamInfo.piece _ _ _).getLsbD i = _
  rw [BitVec.getLsbD_or, getLsbD_piece (by show pro + (32 - p) ≤ 64; omega), BitVec.getLsbD_setWidth,
    BitVec.getLsbD_setWidth, hlater]
  show (_ || decide (pro ≤ i) && (decide (i < pro + (32 - p)) && x.getLsbD (p + (i - pro)))) = _
  -- below the end of the word the piece, above it what was read before
  by_cases hlow : i < pro + (32 - p)
  · rw [decide_eq_false (show ¬ pro + (32 - p) ≤ i by omega), decide_eq_true hlow]
    by_cases hpro : pro ≤ i
    · have hg := wordsBit_of_lt (x :: xs) (show p + (i - pro) < 32 by omega)
      rw [decide_eq_true (show i < a.2.bitWidth by omega), hg]
      simp
    · rw [decide_eq_false hpro]
      simp
  · rw [decide_eq_false hlow, decide_eq_true (show pro + (32 - p) ≤ i by omega),
      decide_eq_true (show pro ≤ i by omega)]
    by_cases hhi : i < a.2.bitWidth
    · have hg : wordsBit (x :: xs) (p + (i - pro)) = wordsBit xs (i - (pro + (32 - p))) := by
        rw [← wordsBit_cons x xs]
        congr 1
        omega
      rw [decide_eq_true hhi, decide_eq_true (show i < 64 by omega),
        decide_eq_true (show i < fieldBits a.1 a.2 by omega), hg]
      simp
    · rw [decide_eq_false hhi]
      simp

/-- A word that has no pieces of the fields is read after the others. -/
lemma Holds.next {fields : Fields} {xs : List (BitVec 32)} {p : ℕ} {atoms : List (Name × BsvType)}
    (h : Holds fields (wordsBit xs) p 0 atoms) {s : List ParamInfo} {off : ℕ} {x : BitVec 32}
    (hne : ∀ b ∈ atoms, b.1 ≠ e.name) (hdis : ∀ y ∈ s, ∀ b ∈ atoms, b.1 ≠ y.name) :
    Holds (assignPiece off x (assignWord 0 x fields s) e) (wordsBit (x :: xs)) (p + 32) 0 atoms := by
  have hlater : Holds fields (fun j => wordsBit (x :: xs) (j + 32)) p 0 atoms := by
    simpa only [wordsBit_cons] using h
  refine (hlater.congr fun b hb => ?_).add
  rw [assignPiece_of_ne (hne b hb), assignWord_of_notMem fun y hy => hdis y hy b hb]

/-- Every field is at most 64 bits wide and is stored in as many bits as it has, at least. -/
def Stored (atoms : List (Name × BsvType)) : Prop :=
  ∀ a ∈ atoms, a.2.bitWidth ≤ 64 ∧ a.2.bitWidth ≤ fieldBits a.1 a.2

/-- **The fields after all words have been read** are those that the words were put together from.

**Proof sketch.** Induction along `accumWords`. The first word is read last: the pieces in it that end their
fields are assigned, and a piece whose field goes on is added to the bits that the words after it have left in
the field. -/
theorem holds_accumWords (s : List ParamInfo) (pro : ℕ) (atoms : List (Name × BsvType))
    (hs : binWidth s < 32) (hst : Stored atoms) (hnodup : (atoms.map Prod.fst).Nodup)
    (hdis : ∀ e ∈ s, ∀ a ∈ atoms, a.1 ≠ e.name) (hp : Proper pro atoms) (xs : List (BitVec 32))
    (hlen : xs.length = (accumWords s pro atoms).length) (fields : Fields) :
    (∀ name, name ∉ atoms.map Prod.fst →
      readWords fields (accumWords s pro atoms) xs name = assignWord 0 (xs.headD 0) fields s name) ∧
    Holds (readWords fields (accumWords s pro atoms) xs) (wordsBit xs) (binWidth s) pro atoms := by
  revert hst hnodup hdis hp xs
  refine accumWords_induction (P := fun s pro atoms => Stored atoms → (atoms.map Prod.fst).Nodup →
    (∀ e ∈ s, ∀ a ∈ atoms, a.1 ≠ e.name) → Proper pro atoms → ∀ xs : List (BitVec 32),
      xs.length = (accumWords s pro atoms).length →
      (∀ name, name ∉ atoms.map Prod.fst →
        readWords fields (accumWords s pro atoms) xs name = assignWord 0 (xs.headD 0) fields s name) ∧
      Holds (readWords fields (accumWords s pro atoms) xs) (wordsBit xs) (binWidth s) pro atoms)
    ?_ ?_ ?_ ?_ s pro atoms hs
  · intro s pro _ _ _ _ _ xs hlen
    refine ⟨fun name _ => ?_, trivial⟩
    rw [accumWords_nil] at hlen ⊢
    cases s with
    | nil => rfl
    | cons y s =>
      simp only [List.isEmpty_cons, Bool.false_eq_true, if_false, List.length_singleton] at hlen ⊢
      obtain ⟨x, rfl⟩ := List.length_eq_one_iff.mp hlen
      rfl
  · intro s pro a atoms hs heq ih hst hnodup hdis hp xs hlen
    rw [List.map_cons, List.nodup_cons] at hnodup
    rw [accumWords_of_eq heq] at hlen ⊢
    obtain ⟨x, xs, rfl⟩ := List.exists_cons_of_length_eq_add_one hlen
    rw [List.length_cons, List.length_cons, Nat.add_right_cancel_iff] at hlen
    obtain ⟨hframe, hholds⟩ := ih (fun b hb => hst b (List.mem_cons_of_mem _ hb)) hnodup.2
      (fun e he => by cases he) (proper_zero hp.2) xs hlen
    have hread : readWords fields ((s ++ [⟨a.1, a.2.bitWidth, pro, a.2, .set⟩]) :: accumWords [] 0 atoms)
        (x :: xs) = assignPiece (0 + binWidth s) x
          (assignWord 0 x (readWords fields (accumWords [] 0 atoms) xs) s)
          ⟨a.1, a.2.bitWidth, pro, a.2, .set⟩ := assignWord_concat s _
    rw [hread, Nat.zero_add]
    refine ⟨fun name hname => ?_, getLsbD_assignPiece_set (hst a List.mem_cons_self).1 (by omega)
      (fun j hj => wordsBit_of_lt (x :: xs) hj), ?_⟩
    · rw [List.map_cons, List.mem_cons, not_or] at hname
      rw [assignPiece_of_ne hname.1]
      exact assignWord_congr (hframe name hname.2)
    · rw [show binWidth s + (a.2.bitWidth - pro) = 0 + 32 by omega]
      exact hholds.next (fun b hb (he : b.1 = a.1) => hnodup.1 (he ▸ List.mem_map_of_mem hb))
        fun e he b hb => hdis e he b (List.mem_cons_of_mem _ hb)
  · intro s pro a atoms hs hlt ih hst hnodup hdis hp xs hlen
    rw [List.map_cons, List.nodup_cons] at hnodup
    rw [accumWords_of_lt hlt] at hlen ⊢
    obtain ⟨hframe, hholds⟩ := ih (fun b hb => hst b (List.mem_cons_of_mem _ hb)) hnodup.2 (by
        intro e he b hb
        rw [List.mem_append, List.mem_singleton] at he
        rcases he with he | rfl
        · exact hdis e he b (List.mem_cons_of_mem _ hb)
        · show b.1 ≠ a.1
          exact fun heq => hnodup.1 (heq ▸ List.mem_map_of_mem hb)) (proper_zero hp.2) xs hlen
    rw [binWidth_concat] at hholds
    refine ⟨fun name hname => ?_, fun i => ?_, hholds⟩
    · rw [List.map_cons, List.mem_cons, not_or] at hname
      rw [hframe name hname.2, assignWord_concat, assignPiece_of_ne hname.1]
    · rw [hframe a.1 hnodup.1, assignWord_concat, Nat.zero_add]
      exact getLsbD_assignPiece_set (hst a List.mem_cons_self).1 (by omega)
        (fun j hj => wordsBit_of_lt xs hj) i
  · intro s pro a atoms hs hgt ih hst hnodup hdis hp xs hlen
    have hnodup' := hnodup
    rw [List.map_cons, List.nodup_cons] at hnodup
    rw [accumWords_of_gt hs hgt] at hlen ⊢
    obtain ⟨x, xs, rfl⟩ := List.exists_cons_of_length_eq_add_one hlen
    rw [List.length_cons, List.length_cons, Nat.add_right_cancel_iff] at hlen
    obtain ⟨hframe, hfirst, hholds⟩ := ih hst hnodup' (fun e he => by cases he) ⟨by omega, hp.2⟩ xs hlen
    have hread : readWords fields ((s ++ [⟨a.1, pro + (32 - binWidth s), pro, a.2, .or⟩]) ::
        accumWords [] (pro + (32 - binWidth s)) (a :: atoms)) (x :: xs) = assignPiece (0 + binWidth s) x
          (assignWord 0 x (readWords fields (accumWords [] (pro + (32 - binWidth s)) (a :: atoms)) xs) s)
          ⟨a.1, pro + (32 - binWidth s), pro, a.2, .or⟩ := assignWord_concat s _
    rw [hread, Nat.zero_add]
    refine ⟨fun name hname => ?_, fun i => ?_, ?_⟩
    · have hname' := hname
      rw [List.map_cons, List.mem_cons, not_or] at hname'
      rw [assignPiece_of_ne hname'.1]
      exact assignWord_congr (hframe name hname)
    · rw [getLsbD_assignPiece_or hs hgt hp.1 (hst a List.mem_cons_self) (fun j => ?_) i]
      rw [assignWord_of_notMem fun e he => hdis e he a List.mem_cons_self, hfirst, binWidth_nil, Nat.zero_add]
    · rw [show binWidth s + (a.2.bitWidth - pro) =
        0 + (a.2.bitWidth - (pro + (32 - binWidth s))) + 32 by omega]
      exact hholds.next (fun b hb (he : b.1 = a.1) => hnodup.1 (he ▸ List.mem_map_of_mem hb))
        fun e he b hb => hdis e he b (List.mem_cons_of_mem _ hb)

variable {sig : Signature}

/-- Integers are stored in as many bits as they have, at least. -/
lemma Integers.stored {params : List Param} (h : Integers params) :
    Stored (collectParams params).reverse := by
  intro a ha
  obtain ⟨c, ty, hcn, hc, hle⟩ := (h a (List.mem_reverse.mp ha)).1
  have h64 : ty.width ≤ 64 := by cases ty <;> decide
  refine ⟨Nat.le_trans hle h64, ?_⟩
  rw [fieldBits, hcn, Option.bind_some, hc]
  exact (bitWidth_le_fieldWidth hle a.1).1

/-- **What a wrapper reads**: the fields have the bits of the words, one after the other from the least
significant end. -/
theorem Exact.exists_demarshall (h : Exact sig.params) (fields : Fields) {ws : List (BitVec 32)}
    (hlen : ws.length = nwords 32 (requestBits sig.params)) :
    ∃ fields', demarshall sig.params fields ws = some fields' ∧
      ∀ q ∈ places 0 (collectParams sig.params).reverse, ∀ i, (fields' q.2.1).getLsbD i =
        (decide (i < q.2.2.bitWidth) && (ofWords ws).testBit (q.1 + i)) := by
  by_cases hne : sig.params = []
  · rw [hne] at hlen ⊢
    have hone : ws.length = 1 := by simpa [requestBits, nwords] using hlen
    obtain ⟨x, rfl⟩ := List.length_eq_one_iff.mp hone
    exact ⟨fields, rfl, fun q hq => by cases hq⟩
  · have hsize := h.requestBits_eq hne
    have hargs := h.integers.length_argWords
    have hcount : ws.reverse.length = (argWords sig.params).length := by
      rw [List.length_reverse, hlen, hargs, ← hsize]
      rfl
    have hempty : (argWords sig.params).isEmpty = false := by
      rw [Bool.eq_false_iff, ne_eq, List.isEmpty_iff]
      intro hnil
      have hpos := sig.sized
      rw [hnil, List.length_nil, ← hsize] at hargs
      omega
    -- the words in the order in which they are read
    have hfst : ((argWords sig.params).zip ws.reverse).reverse.map Prod.fst = (argWords sig.params).reverse := by
      rw [List.map_reverse, List.map_fst_zip (by omega)]
    have hsnd : ((argWords sig.params).zip ws.reverse).reverse.map Prod.snd = ws := by
      rw [List.map_reverse, List.map_snd_zip (by omega), List.reverse_reverse]
    have hwords : ∀ w ∈ ((argWords sig.params).zip ws.reverse).reverse.map Prod.fst,
        Placed 0 w ∧ ∀ e ∈ w, Integral e.datatype := by
      intro w hw
      rw [hfst] at hw
      exact (h.integers.placed w (List.mem_reverse.mp hw)).2
    obtain ⟨code, hcode, hexec⟩ := exec_demarshalls hwords
    obtain ⟨m, hm, hfields, -⟩ := hexec ⟨fields, 0, ws, []⟩ [] (by rw [hsnd, List.append_nil])
    rw [hfst] at hcode
    rw [List.foldl_reverse] at hfields
    refine ⟨m.fields, ?_, fun q hq i => ?_⟩
    · simp only [demarshall, paramStructDemarshall, hempty, Bool.false_eq_true, if_false, hcode, bind, pure,
        Option.bind_some, hm]
    · have hnodup : ((collectParams sig.params).reverse.map Prod.fst).Nodup := by
        rw [List.map_reverse]
        exact List.nodup_reverse.mpr (nodup_collectParams sig.names sig.members)
      have hholds := (holds_accumWords [] 0 (collectParams sig.params).reverse (by decide)
        h.integers.stored hnodup (fun e he => by cases he) h.integers.proper ws.reverse hcount fields).2
      rw [hfields]
      refine (hholds.getLsbD hq i).trans ?_
      rw [testBit_ofWords, wordsBit, List.getD_eq_getElem?_getD]

end Xbsv
