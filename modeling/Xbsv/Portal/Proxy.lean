import Mathlib.Data.List.GetD
import Xbsv.Bits.Words
import Xbsv.Portal.Layout

set_option relaxedAutoImplicit false
set_option autoImplicit false

/-!
# The words that a proxy writes

The code for a word shifts every piece to its place and takes them together. Nothing is masked, so the
words are the fields laid over each other, with the bits that the C type of a field has above its width.

## Main definitions

* `Xbsv.Integral` — the types of fields that are integers in C.
* `Xbsv.fieldBit` — a bit of a field, as the code sees it.
* `Xbsv.wordOf` — the word that is put together from pieces.

## Main results

* `Xbsv.proxyWords_eq` — what a proxy writes.
* `Xbsv.testBit_proxyWords` — the number that the words make up.
-/

namespace Xbsv

open Bits

variable [MathLog]

/-- A field of this type is an integer in C, of a type that has room for it. -/
def Integral (t : BsvType) : Prop := ∃ c ty, t.cName = some c ∧ c.ty = some ty ∧ t.bitWidth ≤ ty.width

/-- A bit of a field, as the code sees it. -/
def fieldBit (fields : Fields) (name : Name) (datatype : BsvType) (i : ℕ) : Bool :=
  match fields.read name datatype with
  | some v => v.bit i
  | none => false

/-- The word that is put together from pieces. -/
def wordOf (fields : Fields) (w : List ParamInfo) : BitVec 32 :=
  (BitVec.ofBoolListLE ((List.range 32).map (wordBit (fieldBit fields) 0 w))).setWidth 32

lemma getLsbD_wordOf (fields : Fields) (w : List ParamInfo) {b : ℕ} (hb : b < 32) :
    (wordOf fields w).getLsbD b = wordBit (fieldBit fields) 0 w b := by
  rw [wordOf, BitVec.getLsbD_setWidth, decide_eq_true hb, Bool.true_and, BitVec.getLsbD_ofBoolListLE,
    List.getD_eq_getElem _ _ (by simpa using hb), List.getElem_map, List.getElem_range]

/-- What is read of a field. -/
lemma Fields.read_eq {t : BsvType} {c : CName} {ty : C.Ty} (hc : t.cName = some c) (hty : c.ty = some ty)
    (fields : Fields) (name : Name) :
    fields.read name t = some ⟨if fieldWidth name t ty < 32 then .int else ty,
      ((fields name).setWidth (fieldWidth name t ty)).setWidth _⟩ := by
  simp only [Fields.read, hc, hty, bind, pure, Option.bind_some]

/-- An integer can be read, and shifted by less than its width. -/
lemma Integral.exists_read {t : BsvType} (ht : Integral t) (fields : Fields) (name : Name) :
    ∃ v, fields.read name t = some v ∧ ∀ k, k < t.bitWidth → k < v.ty.width := by
  obtain ⟨c, ty, hc, hty, hle⟩ := ht
  refine ⟨_, Fields.read_eq hc hty fields name, fun k hk => ?_⟩
  simp only
  split
  · rename_i hlt
    -- only a bit field is that narrow, and it has the width of its type
    unfold fieldWidth at hlt
    split at hlt
    · exact Nat.lt_trans hk hlt
    · have h32 := ty.le_width
      omega
  · omega

/-- The value of the expression for a piece. -/
lemma eval_field {off : ℕ} {e : ParamInfo} (he : Fits off e) (ht : Integral e.datatype) (m : Machine) :
    ∃ v, (e.field off).eval m = some v ∧ ∀ b, b < 32 →
      v.bit b = (decide (off ≤ b) && fieldBit m.fields e.name e.datatype (b - off + e.shifted)) := by
  obtain ⟨v, hread, hlt⟩ := ht.exists_read m.fields e.name
  have hwide : ¬ e.datatype.bitWidth > 64 := by
    obtain ⟨-, ty, -, -, hle⟩ := ht
    have h64 : ty.width ≤ 64 := by cases ty <;> decide
    omega
  have hshift : e.shifted < v.ty.width := hlt _ (Nat.lt_of_lt_of_le he.shifted_lt he.width_le)
  have hbit : ∀ i, fieldBit m.fields e.name e.datatype i = v.bit i := by
    intro i
    rw [fieldBit, hread]
  -- the piece at the low end
  obtain ⟨v₁, hv₁, hbit₁⟩ : ∃ v₁, (if e.shifted ≠ 0 then Expr.shr (.field e.name e.datatype) e.shifted
      else .field e.name e.datatype).eval m = some v₁ ∧ v₁.ty = v.ty ∧ ∀ i, v₁.bit i = v.bit (i + e.shifted) := by
    split
    · obtain ⟨v₁, hv₁⟩ : ∃ v₁, v.shiftRight e.shifted = some v₁ := ⟨_, if_pos hshift⟩
      refine ⟨v₁, ?_, (C.Val.bit_shiftRight (i := 0) hv₁).1, fun i => (C.Val.bit_shiftRight hv₁).2⟩
      simp only [Expr.eval, hread, bind, Option.bind_some, hv₁]
    · rename_i h0
      rw [not_not] at h0
      exact ⟨v, hread, rfl, fun i => by rw [h0, Nat.add_zero]⟩
  obtain ⟨v₂, hv₂, hbit₂⟩ : ∃ v₂, (if off ≠ 0 then Expr.shl (if e.shifted ≠ 0 then
      Expr.shr (.field e.name e.datatype) e.shifted else .field e.name e.datatype) off
      else if e.shifted ≠ 0 then Expr.shr (.field e.name e.datatype) e.shifted
      else .field e.name e.datatype).eval m = some v₂ ∧
        ∀ b, b < 32 → v₂.bit b = (decide (off ≤ b) && v₁.bit (b - off)) := by
    have h32 := v₁.ty.le_width
    have hoff := he.off_lt
    split
    · obtain ⟨v₂, hv₂⟩ : ∃ v₂, v₁.shiftLeft off = some v₂ := ⟨_, if_pos (by omega)⟩
      refine ⟨v₂, ?_, fun b hb => (C.Val.bit_shiftLeft hv₂ (by omega)).2⟩
      rw [Expr.eval, hv₁]
      exact hv₂
    · rename_i h0
      rw [not_not] at h0
      exact ⟨v₁, hv₁, fun b _ => by simp [h0]⟩
  refine ⟨v₂, ?_, fun b hb => ?_⟩
  · simp only [ParamInfo.field, if_neg hwide]
    exact hv₂
  · rw [hbit₂ b hb, hbit₁.2, hbit]

/-- The expressions for the pieces of a word. -/
def wordExprs : ℕ → List ParamInfo → List Expr
  | _, [] => []
  | off, e :: w => e.field off :: wordExprs (off + (e.width - e.shifted)) w

/-- Without a `float` all pieces of a word are written. -/
lemma marshallFrom_eq {off : ℕ} {w : List ParamInfo} (hp : Placed off w)
    (ht : ∀ e ∈ w, Integral e.datatype) (word : List Expr) :
    marshallFrom off word w = some (.writel (word ++ wordExprs off w)) := by
  induction w generalizing off word with
  | nil => rw [marshallFrom, wordExprs, List.append_nil]
  | cons e w ih =>
    obtain ⟨c, ty, hc, hty, -⟩ := ht e List.mem_cons_self
    have hfloat : c ≠ .float := by
      rintro rfl
      cases hty
    have hoff : off + e.width - e.shifted = off + (e.width - e.shifted) := by
      have := hp.1.shifted_lt
      omega
    simp only [marshallFrom, hc, bind, Option.bind_some, if_neg hfloat]
    rw [hoff, ih hp.2 (fun x hx => ht x (List.mem_cons_of_mem _ hx)), wordExprs, List.append_assoc,
      List.singleton_append]

/-- The pieces of a word are taken together. -/
lemma foldlM_wordExprs {off : ℕ} {w : List ParamInfo} (hp : Placed off w)
    (ht : ∀ e ∈ w, Integral e.datatype) (m : Machine) (v₀ : C.Val) :
    ∃ v, (wordExprs off w).foldlM (fun v e => do return v.or (← e.eval m)) v₀ = some v ∧
      ∀ b, b < 32 → v.bit b = (v₀.bit b || wordBit (fieldBit m.fields) off w b) := by
  induction w generalizing off v₀ with
  | nil => exact ⟨v₀, rfl, fun b _ => by rw [wordBit, Bool.or_false]⟩
  | cons e w ih =>
    obtain ⟨v₁, hv₁, hbit₁⟩ := eval_field hp.1 (ht e List.mem_cons_self) m
    obtain ⟨v, hv, hbit⟩ := ih hp.2 (fun x hx => ht x (List.mem_cons_of_mem _ hx)) (v₀.or v₁)
    refine ⟨v, ?_, fun b hb => ?_⟩
    · rw [wordExprs, List.foldlM_cons, hv₁]
      exact hv
    · rw [hbit b hb, C.Val.bit_or (Nat.lt_of_lt_of_le hb (C.Ty.le_width _)), hbit₁ b hb, wordBit, Bool.or_assoc]

/-- The statement for a word writes the word that `f` makes of the fields. -/
def Writes (f : Fields → List ParamInfo → BitVec 32) (w : List ParamInfo) : Prop :=
  ∃ stmt, generateMarshall w = some stmt ∧
    ∀ m, stmt.exec m = some { m with output := m.output ++ [f m.fields w] }

/-- The statement for a word writes the word that is put together from its pieces. -/
lemma writes_wordOf {w : List ParamInfo} (hne : w ≠ []) (hp : Placed 0 w)
    (ht : ∀ e ∈ w, Integral e.datatype) : Writes wordOf w := by
  refine ⟨_, marshallFrom_eq hp ht [], fun m => ?_⟩
  cases w with
  | nil => exact absurd rfl hne
  | cons e w =>
    obtain ⟨v₁, hv₁, hbit₁⟩ := eval_field hp.1 (ht e List.mem_cons_self) m
    obtain ⟨v, hv, hbit⟩ := foldlM_wordExprs hp.2 (fun x hx => ht x (List.mem_cons_of_mem _ hx)) m v₁
    have heval : evalWord m ([] ++ wordExprs 0 (e :: w)) = some v := by
      simp only [List.nil_append, wordExprs, evalWord, hv₁, bind, Option.bind_some]
      exact hv
    have hword : (v.conv .uint : BitVec 32) = wordOf m.fields (e :: w) := by
      refine BitVec.eq_of_getLsbD_eq fun b hb => ?_
      refine (C.Val.getLsbD_conv hb).trans (Eq.trans ?_ (getLsbD_wordOf m.fields (e :: w) hb).symm)
      rw [hbit b hb, hbit₁ b hb, wordBit]
    simp only [Stmt.exec, heval, bind, pure, Option.bind_some, hword]

/-- The statements for some words, one after the other. -/
lemma exec_marshalls {f : Fields → List ParamInfo → BitVec 32} {ws : List (List ParamInfo)}
    (h : ∀ w ∈ ws, Writes f w) :
    ∃ code, ws.mapM generateMarshall = some code ∧ ∀ m, code.foldlM Stmt.exec m =
      some { m with output := m.output ++ ws.map (f m.fields) } := by
  induction ws with
  | nil => exact ⟨[], rfl, fun m => by simp⟩
  | cons w ws ih =>
    obtain ⟨stmt, hstmt, hexec⟩ := h w List.mem_cons_self
    obtain ⟨code, hcode, hexecs⟩ := ih fun x hx => h x (List.mem_cons_of_mem _ hx)
    refine ⟨stmt :: code, ?_, fun m => ?_⟩
    · rw [List.mapM_cons, hstmt, hcode]
      rfl
    · rw [List.foldlM_cons, hexec]
      simp only [bind, Option.bind_some]
      rw [hexecs, List.map_cons, List.append_assoc, List.singleton_append]

/-- What a proxy writes, word by word. -/
lemma proxyWords_of_writes {f : Fields → List ParamInfo → BitVec 32} {params : List Param}
    (h : ∀ w ∈ argWords params, Writes f w) (hne : argWords params ≠ []) (args : Fields) :
    proxyWords params args = some ((argWords params).reverse.map (f args)) := by
  have hwrites : ∀ w ∈ (argWords params).reverse, Writes f w := fun w hw => h w (List.mem_reverse.mp hw)
  obtain ⟨code, hcode, hexec⟩ := exec_marshalls hwrites
  have hempty : (argWords params).isEmpty = false := by
    rw [Bool.eq_false_iff]
    exact fun he => hne (List.isEmpty_iff.mp he)
  simp only [proxyWords, paramStructMarshall, hempty, Bool.false_eq_true, if_false, hcode, bind, pure,
    Option.bind_some, hexec, List.nil_append]

/-! ## Messages -/

/-- The fields of a method are integers in C and have bits. -/
def Integers (params : List Param) : Prop :=
  ∀ a ∈ collectParams params, Integral a.2 ∧ 0 < a.2.bitWidth

variable {params : List Param}

lemma Integers.proper (h : Integers params) : Proper 0 (collectParams params).reverse :=
  proper_zero fun a ha => (h a (List.mem_reverse.mp ha)).2

/-- The pieces of a message are integers. -/
lemma Integers.placed (h : Integers params) :
    ∀ w ∈ argWords params, w ≠ [] ∧ Placed 0 w ∧ ∀ e ∈ w, Integral e.datatype := by
  intro w hw
  obtain ⟨hne, hp, hmem⟩ := placed_accumWords [] 0 _ (by decide) trivial h.proper w hw
  refine ⟨hne, hp, fun e he => ?_⟩
  rcases hmem e he with he | he
  · cases he
  · exact (h _ (List.mem_reverse.mp he)).1

/-- The number of words of a message. -/
lemma Integers.length_argWords (h : Integers params) :
    (argWords params).length = (atomsWidth (collectParams params) + 31) / 32 := by
  have hsum : atomsWidth (collectParams params).reverse = atomsWidth (collectParams params) := by
    rw [atomsWidth, atomsWidth, List.map_reverse, List.sum_reverse]
  rw [argWords, length_accumWords [] 0 _ (by decide) (fun hne => absurd rfl hne) h.proper, bitsLeft_zero,
    hsum, binWidth_nil, Nat.zero_add]

/-- **What a proxy writes.** -/
theorem proxyWords_eq (h : Integers params) (hne : argWords params ≠ []) (args : Fields) :
    proxyWords params args = some ((argWords params).reverse.map (wordOf args)) := by
  refine proxyWords_of_writes (fun w hw => ?_) hne args
  obtain ⟨hword, hp, ht⟩ := h.placed w hw
  exact writes_wordOf hword hp ht

/-- **The number that the words make up**: the fields laid over each other. -/
theorem testBit_proxyWords (h : Integers params) (args : Fields) (j : ℕ) :
    (ofWords ((argWords params).reverse.map (wordOf args))).testBit j =
      overlay (fieldBit args) 0 0 (collectParams params).reverse j := by
  have hb : j % 32 < 32 := Nat.mod_lt _ (by decide)
  have hlay := wordBit_accumWords (f := fieldBit args) [] 0 _ (by decide) h.proper (j / 32) (j % 32) hb
  rw [wordBit, Bool.and_false, Bool.false_or, Nat.div_add_mod, binWidth_nil] at hlay
  rw [testBit_ofWords, ← List.map_reverse, List.reverse_reverse, ← hlay]
  rcases Nat.lt_or_ge (j / 32) (argWords params).length with hlt | hge
  · rw [List.getElem?_map, List.getElem?_eq_getElem hlt, Option.map_some, Option.getD_some,
      getLsbD_wordOf _ _ hb]
    unfold argWords at hlt
    rw [List.getD_eq_getElem _ _ hlt]
    rfl
  · rw [List.getElem?_map, List.getElem?_eq_none hge, Option.map_none, Option.getD_none]
    unfold argWords at hge
    rw [List.getD_eq_default _ _ hge]
    simp [wordBit]

end Xbsv
