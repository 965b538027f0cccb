import Xbsv.Portal.Marshalling

set_option relaxedAutoImplicit false
set_option autoImplicit false

/-!
# Fields of type Float

A word with a piece of a `Float` is written as the whole `Float`, and what was in the word besides is lost. So
a `Float` is laid out as a field of 32 bits when it begins with a word, and only then.

## Main definitions

* `Xbsv.unfloat` — the method with `Bit#(32)` in place of `Float`.
* `Xbsv.AsBits` — the method is marshalled as if it had `Bit#(32)` in place of `Float`.

## Main results

* `Xbsv.asBits_iff` — this is so when every `Float` begins with a word.
-/

namespace Xbsv

open Bits

section Generators

variable [MathLog]

/-- The parameters of a method are of type `Bit#(w)` or `Float`. -/
def FloatsAndBits (params : List Param) : Prop := ∀ p ∈ params, IsBits p.type ∨ p.type = .float

/-- `Bit#(32)` in place of `Float`. -/
def BsvType.unfloat : BsvType → BsvType
  | .float => .bit 32
  | t => t

/-- The parameters with `Bit#(32)` in place of `Float`. -/
def unfloat (params : List Param) : List Param := params.map fun p => ⟨p.name, p.type.unfloat⟩

/-- The arguments are in the ranges of their parameters. -/
def InFloatRange (params : List Param) (args : Fields) : Prop :=
  ∀ p ∈ params, (args [p.name]).toNat < 2 ^ p.type.bitWidth

/-- A method is marshalled as if it had `Bit#(32)` in place of `Float`, and what is written is read as it
was. -/
def AsBits (params : List Param) : Prop :=
  ∀ args, InFloatRange params args → proxyWords params args = proxyWords (unfloat params) args ∧
    ∀ fields, ∃ ws fields', proxyWords params args = some ws ∧ demarshall params fields ws = some fields' ∧
      ∀ p ∈ params, fields' [p.name] = args [p.name]

/-- Every `Float` begins with a word. -/
def FloatsAligned (params : List Param) : Prop :=
  ∀ q ∈ fieldPlaces params, q.2.2 = .float → q.1 % 32 = 0

/-! ## Types -/

lemma bitWidth_unfloat (t : BsvType) : t.unfloat.bitWidth = t.bitWidth := by
  cases t <;> rfl

omit [MathLog] in
lemma unfloat_of_ne {t : BsvType} (h : t ≠ .float) : t.unfloat = t := by
  cases t with
  | float => exact absurd rfl h
  | _ => rfl

/-- A piece of the same bits. -/
def ParamInfo.unfloat (e : ParamInfo) : ParamInfo := { e with datatype := e.datatype.unfloat }

omit [MathLog] in
lemma binWidth_unfloat (s : List ParamInfo) : binWidth (s.map ParamInfo.unfloat) = binWidth s := by
  rw [binWidth, List.map_map]
  rfl

/-- The fields of the same bits. -/
def unfloatAtom (a : Name × BsvType) : Name × BsvType := (a.1, a.2.unfloat)

/-- The words have the same pieces. -/
lemma accumWords_unfloat (s : List ParamInfo) (pro : ℕ) (atoms : List (Name × BsvType))
    (hs : binWidth s < 32) :
    accumWords (s.map ParamInfo.unfloat) pro (atoms.map unfloatAtom) =
      (accumWords s pro atoms).map (List.map ParamInfo.unfloat) := by
  refine accumWords_induction (P := fun s pro atoms =>
    accumWords (s.map ParamInfo.unfloat) pro (atoms.map unfloatAtom) =
      (accumWords s pro atoms).map (List.map ParamInfo.unfloat)) ?_ ?_ ?_ ?_ s pro atoms hs
  · intro s pro _
    rw [List.map_nil, accumWords_nil, accumWords_nil, List.isEmpty_map]
    split <;> rfl
  · intro s pro a atoms _ heq ih
    have hw : (unfloatAtom a).2.bitWidth = a.2.bitWidth := bitWidth_unfloat a.2
    rw [List.map_cons, accumWords_of_eq (by rw [hw, binWidth_unfloat]; exact heq), accumWords_of_eq heq,
      List.map_cons, ← ih, List.map_append, hw]
    rfl
  · intro s pro a atoms _ hlt ih
    have hw : (unfloatAtom a).2.bitWidth = a.2.bitWidth := bitWidth_unfloat a.2
    rw [List.map_cons, accumWords_of_lt (by rw [hw, binWidth_unfloat]; exact hlt), accumWords_of_lt hlt,
      ← ih, List.map_append, hw]
    rfl
  · intro s pro a atoms hs hgt ih
    have hw : (unfloatAtom a).2.bitWidth = a.2.bitWidth := bitWidth_unfloat a.2
    rw [List.map_cons, accumWords_of_gt (by rw [binWidth_unfloat]; exact hs)
      (by rw [hw, binWidth_unfloat]; exact hgt), accumWords_of_gt hs hgt, List.map_cons, ← ih, List.map_append,
      binWidth_unfloat]
    rfl

variable {params : List Param}

omit [MathLog] in
/-- The fields of a method without structs are its parameters. -/
lemma FloatsAndBits.collect (h : FloatsAndBits params) :
    collectParams params = params.map fun p => ([p.name], p.type) := by
  induction params with
  | nil => rfl
  | cons p params ih =>
    have hrest := ih fun q hq => h q (List.mem_cons_of_mem _ hq)
    rw [collectParams, List.flatMap_cons, List.map_cons]
    have hp : collectMembers [] p.name p.type = [([p.name], p.type)] := by
      rcases h p List.mem_cons_self with ⟨w, -, -, hw⟩ | hw
      · rw [hw, collectMembers, List.nil_append]
      · rw [hw, collectMembers, List.nil_append]
    rw [hp, List.singleton_append]
    exact congrArg _ hrest

omit [MathLog] in
lemma FloatsAndBits.onlyBits (h : FloatsAndBits params) : OnlyBits (unfloat params) := by
  intro q hq
  obtain ⟨p, hp, rfl⟩ := List.mem_map.mp hq
  rcases h p hp with ⟨w, h1, h64, hw⟩ | hw
  · exact ⟨w, h1, h64, by simp only [hw]; rfl⟩
  · exact ⟨32, by decide, by decide, by simp only [hw]; rfl⟩

omit [MathLog] in
lemma FloatsAndBits.collect_unfloat (h : FloatsAndBits params) :
    collectParams (unfloat params) = (collectParams params).map unfloatAtom := by
  have hbits : FloatsAndBits (unfloat params) := fun p hp => .inl (h.onlyBits p hp)
  rw [hbits.collect, h.collect, unfloat, List.map_map, List.map_map]
  rfl

lemma FloatsAndBits.argWords_unfloat (h : FloatsAndBits params) :
    argWords (unfloat params) = (argWords params).map (List.map ParamInfo.unfloat) := by
  rw [argWords, argWords, h.collect_unfloat, ← List.map_reverse]
  exact accumWords_unfloat [] 0 _ (by decide)

lemma FloatsAndBits.pos (h : FloatsAndBits params) {a : Name × BsvType} (ha : a ∈ collectParams params) :
    0 < a.2.bitWidth ∧ (Integral a.2 ∨ a.2 = .float) ∧ ∃ p ∈ params, a = ([p.name], p.type) := by
  rw [h.collect] at ha
  obtain ⟨p, hp, rfl⟩ := List.mem_map.mp ha
  refine ⟨?_, ?_, p, hp, rfl⟩
  · rcases h p hp with ⟨w, h1, -, hw⟩ | hw
    · rw [hw]
      exact h1
    · rw [hw]
      show 0 < 32
      decide
  · rcases h p hp with hw | hw
    · obtain ⟨c, ty, hc, hty, -, hle, -, -⟩ := cName_of_plain (.inl hw)
      exact .inl ⟨c, ty, hc, hty, hle⟩
    · exact .inr hw

lemma FloatsAndBits.proper (h : FloatsAndBits params) : Proper 0 (collectParams params).reverse :=
  proper_zero fun _ ha => (h.pos (List.mem_reverse.mp ha)).1

/-! ## What a proxy writes -/

/-- The type is `Float`. -/
def BsvType.isFloat : BsvType → Bool
  | .float => true
  | _ => false

omit [MathLog] in
lemma isFloat_iff {t : BsvType} : t.isFloat = true ↔ t = .float := by
  cases t <;> simp [BsvType.isFloat]

/-- What is written for a word: the first `Float` in it, if there is one. -/
def written (fields : Fields) (w : List ParamInfo) : BitVec 32 :=
  match w.find? fun e => e.datatype.isFloat with
  | some e => (fields e.name).setWidth 32
  | none => wordOf fields w

/-- The statement for a word ends with the first `Float`. -/
lemma marshallFrom_eq_float {off : ℕ} {w : List ParamInfo} {e : ParamInfo} (word : List Expr)
    (ht : ∀ x ∈ w, Integral x.datatype ∨ x.datatype = .float)
    (he : w.find? (fun x => x.datatype.isFloat) = some e) :
    marshallFrom off word w = some (.writelFloat e.name) := by
  induction w generalizing off word with
  | nil => cases he
  | cons x w ih =>
    rw [List.find?_cons] at he
    by_cases hx : x.datatype = .float
    · rw [isFloat_iff.mpr hx] at he
      cases he
      simp only [marshallFrom, hx, BsvType.cName, bind, pure, Option.bind_some, if_true]
    · have hfalse : x.datatype.isFloat = false := by
        rw [Bool.eq_false_iff, ne_eq, isFloat_iff]
        exact hx
      rw [hfalse] at he
      obtain ⟨c, ty, hc, hty, -⟩ := (ht x List.mem_cons_self).resolve_right hx
      have hfloat : c ≠ .float := by
        rintro rfl
        cases hty
      simp only [marshallFrom, hc, bind, Option.bind_some, if_neg hfloat]
      exact ih _ (fun y hy => ht y (List.mem_cons_of_mem _ hy)) he

/-- What the statement for a word writes. -/
lemma writes_written {w : List ParamInfo} (hne : w ≠ []) (hp : Placed 0 w)
    (ht : ∀ e ∈ w, Integral e.datatype ∨ e.datatype = .float) : Writes written w := by
  cases hfind : w.find? fun e => e.datatype.isFloat with
  | some e =>
    refine ⟨_, marshallFrom_eq_float [] ht hfind, fun m => ?_⟩
    rw [written, hfind]
    rfl
  | none =>
    have hint : ∀ e ∈ w, Integral e.datatype := by
      intro e he
      refine (ht e he).resolve_right fun hfloat => ?_
      exact List.find?_eq_none.mp hfind e he (isFloat_iff.mpr hfloat)
    obtain ⟨stmt, hstmt, hexec⟩ := writes_wordOf hne hp hint
    refine ⟨stmt, hstmt, fun m => ?_⟩
    rw [hexec, written, hfind]

lemma FloatsAndBits.placed (h : FloatsAndBits params) :
    ∀ w ∈ argWords params, w ≠ [] ∧ Placed 0 w ∧
      ∀ e ∈ w, (Integral e.datatype ∨ e.datatype = .float) ∧ ∃ name, e.name = [name] := by
  intro w hw
  obtain ⟨hne, hp, hmem⟩ := placed_accumWords [] 0 _ (by decide) trivial h.proper w hw
  refine ⟨hne, hp, fun e he => ?_⟩
  rcases hmem e he with he | he
  · cases he
  · obtain ⟨-, ht, p, -, heq⟩ := h.pos (List.mem_reverse.mp he)
    exact ⟨ht, p.name, congrArg Prod.fst heq⟩

/-- What a proxy writes for a method with a `Float`, and for the one with `Bit#(32)` in its place. -/
lemma FloatsAndBits.proxyWords_eq (h : FloatsAndBits params) (hne : argWords params ≠ []) (args : Fields) :
    proxyWords params args = some ((argWords params).reverse.map (written args)) ∧
      proxyWords (unfloat params) args =
        some ((argWords params).reverse.map fun w => wordOf args (w.map ParamInfo.unfloat)) := by
  constructor
  · refine proxyWords_of_writes (fun w hw => ?_) hne args
    obtain ⟨hword, hp, ht⟩ := h.placed w hw
    exact writes_written hword hp fun e he => (ht e he).1
  · have hargs := h.argWords_unfloat
    have hne' : argWords (unfloat params) ≠ [] := by
      rw [hargs, ne_eq, List.map_eq_nil_iff]
      exact hne
    rw [Xbsv.proxyWords_eq h.onlyBits.intsAndBits.exact.integers hne' args, hargs, ← List.map_reverse,
      List.map_map]
    rfl

/-! ## A Float that does not begin with a word -/

/-- The fields with their places, without the first one if bits of it have been taken. -/
def placesFrom (p pro : ℕ) : List (Name × BsvType) → List (ℕ × Name × BsvType)
  | [] => []
  | a :: atoms => (if pro = 0 then [(p, a)] else []) ++ places (p + (a.2.bitWidth - pro)) atoms

lemma placesFrom_zero (p : ℕ) (atoms : List (Name × BsvType)) : placesFrom p 0 atoms = places p atoms := by
  cases atoms with
  | nil => rfl
  | cons a atoms => rfl

/-- Places that are a word further on. -/
lemma places_add (p : ℕ) (atoms : List (Name × BsvType)) :
    places (p + 32) atoms = (places p atoms).map fun q => (q.1 + 32, q.2) := by
  induction atoms generalizing p with
  | nil => rfl
  | cons a atoms ih =>
    rw [places, places, List.map_cons, ← ih, show p + 32 + a.2.bitWidth = p + a.2.bitWidth + 32 by omega]

/-- A word that has been begun is a word of the message. -/
lemma exists_begun (e : ParamInfo) (s : List ParamInfo) (pro : ℕ) (atoms : List (Name × BsvType))
    (hs : binWidth (e :: s) < 32) : ∃ rest, e :: rest ∈ accumWords (e :: s) pro atoms := by
  have hall : ∀ s' pro atoms, binWidth s' < 32 → ∀ s, s' = e :: s →
      ∃ rest, e :: rest ∈ accumWords s' pro atoms := by
    intro s' pro atoms hs'
    refine accumWords_induction (P := fun s' pro atoms => ∀ s, s' = e :: s →
      ∃ rest, e :: rest ∈ accumWords s' pro atoms) ?_ ?_ ?_ ?_ s' pro atoms hs'
    · rintro _ pro _ s rfl
      exact ⟨s, by rw [accumWords_nil]; exact List.mem_cons_self⟩
    · rintro _ pro a atoms _ heq - s rfl
      exact ⟨_, by rw [accumWords_of_eq heq]; exact List.mem_cons_self⟩
    · rintro _ pro a atoms _ hlt ih s rfl
      rw [accumWords_of_lt hlt]
      exact ih _ rfl
    · rintro _ pro a atoms hs hgt - s rfl
      exact ⟨_, by rw [accumWords_of_gt hs hgt]; exact List.mem_cons_self⟩
  exact hall (e :: s) pro atoms hs s rfl

/-- A `Float` that does not begin with a word reaches into the next one, which begins with the rest of it. -/
lemma exists_rest (s : List ParamInfo) (pro : ℕ) (atoms : List (Name × BsvType)) (hs : binWidth s < 32)
    {q : ℕ × Name × BsvType} (hq : q ∈ placesFrom (binWidth s) pro atoms) (hfloat : q.2.2 = .float)
    (hmod : q.1 % 32 ≠ 0) :
    ∃ e rest, e :: rest ∈ accumWords s pro atoms ∧ e.name = q.2.1 ∧ e.datatype = .float ∧ 0 < e.shifted := by
  revert q
  refine accumWords_induction (P := fun s pro atoms => ∀ {q : ℕ × Name × BsvType},
    q ∈ placesFrom (binWidth s) pro atoms → q.2.2 = .float → q.1 % 32 ≠ 0 →
    ∃ e rest, e :: rest ∈ accumWords s pro atoms ∧ e.name = q.2.1 ∧ e.datatype = .float ∧ 0 < e.shifted)
    ?_ ?_ ?_ ?_ s pro atoms hs
  · intro s pro _ q hq
    cases hq
  · intro s pro a atoms _ heq ih q hq hfloat hmod
    rw [placesFrom, List.mem_append] at hq
    rw [accumWords_of_eq heq]
    rcases hq with hq | hq
    · -- a whole word at its beginning
      split at hq
      · rename_i hpro
        rw [List.mem_singleton] at hq
        subst hq
        have h32 : a.2.bitWidth = 32 := by
          rw [hfloat]
          rfl
        simp only at hmod
        omega
      · cases hq
    · rw [show binWidth s + (a.2.bitWidth - pro) = 0 + 32 by omega] at hq
      rw [places_add] at hq
      obtain ⟨q', hq', rfl⟩ := List.mem_map.mp hq
      rw [Nat.add_mod_right] at hmod
      obtain ⟨e, rest, hmem, hname, hdata, hpos⟩ := ih (q := q')
        (by rw [placesFrom_zero]; exact hq') hfloat hmod
      exact ⟨e, rest, List.mem_cons_of_mem _ hmem, hname, hdata, hpos⟩
  · intro s pro a atoms _ hlt ih q hq hfloat hmod
    rw [placesFrom, List.mem_append] at hq
    rw [accumWords_of_lt hlt]
    rcases hq with hq | hq
    · split at hq
      · rename_i hpro
        rw [List.mem_singleton] at hq
        subst hq
        have h32 : a.2.bitWidth = 32 := by
          rw [hfloat]
          rfl
        omega
      · cases hq
    · refine ih ?_ hfloat hmod
      rw [placesFrom_zero, binWidth_concat]
      exact hq
  · intro s pro a atoms hs hgt ih q hq hfloat hmod
    rw [placesFrom, List.mem_append] at hq
    rw [accumWords_of_gt hs hgt]
    rcases hq with hq | hq
    · split at hq
      · rename_i hpro
        rw [List.mem_singleton] at hq
        subst hq hpro
        simp only at hmod hfloat
        have h32 : a.2.bitWidth = 32 := by
          rw [hfloat]
          rfl
        have hlt : a.2.bitWidth - (0 + (32 - binWidth s)) + binWidth [] < 32 := by
          rw [binWidth_nil]
          omega
        rw [accumWords_of_lt hlt, List.nil_append]
        obtain ⟨rest, hrest⟩ := exists_begun ⟨a.1, a.2.bitWidth, 0 + (32 - binWidth s), a.2, .set⟩ [] 0 atoms
          (by rw [← List.nil_append [_], binWidth_concat, binWidth_nil]; simp only; omega)
        exact ⟨_, rest, List.mem_cons_of_mem _ hrest, rfl, hfloat, by simp only; omega⟩
      · cases hq
    · have hshift : binWidth s + (a.2.bitWidth - pro) =
          0 + (a.2.bitWidth - (pro + (32 - binWidth s))) + 32 := by omega
      rw [hshift, places_add] at hq
      obtain ⟨q', hq', rfl⟩ := List.mem_map.mp hq
      rw [Nat.add_mod_right] at hmod
      obtain ⟨e, rest, hmem, hname, hdata, hpos⟩ := ih (q := q')
        (by rw [placesFrom, List.mem_append]; exact .inr hq') hfloat hmod
      exact ⟨e, rest, List.mem_cons_of_mem _ hmem, hname, hdata, hpos⟩

omit [MathLog] in
/-- A piece has no bits below its place. -/
lemma wordBit_of_lt {f : Name → BsvType → ℕ → Bool} {off b : ℕ} {w : List ParamInfo} (hb : b < off) :
    wordBit f off w b = false := by
  induction w generalizing off with
  | nil => rfl
  | cons e w ih => rw [wordBit, ih (by omega), decide_eq_false (by omega), Bool.false_and, Bool.false_or]

/-- The rest of a `Float` that holds 1 is 0, and what is written is 1. -/
lemma written_ne {e : ParamInfo} {rest : List ParamInfo} {name : String} (hname : e.name = [name])
    (hfloat : e.datatype = .float) (hshift : 0 < e.shifted) (hwidth : e.shifted < e.width) :
    written (Function.update (fun _ => 0) e.name 1) (e :: rest) ≠
      wordOf (Function.update (fun _ => 0) e.name 1) ((e :: rest).map ParamInfo.unfloat) := by
  intro heq
  have hbit := congrArg (fun x => x.getLsbD 0) heq
  simp only at hbit
  have hfind : (e :: rest).find? (fun x => x.datatype.isFloat) = some e := by
    rw [List.find?_cons, isFloat_iff.mpr hfloat]
  have hone : written (Function.update (fun _ => 0) e.name 1) (e :: rest) = 1 := by
    rw [written, hfind]
    simp only [Function.update_self]
    rfl
  have hfield : fieldBit (Function.update (fun _ => 0) e.name 1) e.name (.bit 32) e.shifted = false := by
    rw [hname, fieldBit_bit _ _ (by decide), Function.update_self]
    show (_ && (1#64).getLsbD e.shifted) = false
    rw [BitVec.getLsbD_one, decide_eq_false (show ¬ e.shifted = 0 by omega), Bool.and_false, Bool.and_false]
  have hdata : e.unfloat.datatype = .bit 32 := by
    show e.datatype.unfloat = _
    rw [hfloat]
    rfl
  rw [hone, getLsbD_wordOf _ _ (by decide), List.map_cons, wordBit, hdata, Nat.sub_self, Nat.zero_add,
    show fieldBit (Function.update (fun _ => 0) e.name 1) e.unfloat.name (.bit 32) e.unfloat.shifted = false
      from hfield, wordBit_of_lt (show 0 < 0 + (e.unfloat.width - e.unfloat.shifted) by
        show 0 < 0 + (e.width - e.shifted)
        omega), Bool.and_false, Bool.or_false] at hbit
  exact absurd hbit (by decide)

/-! ## Floats that begin with a word -/

/-- A `Float` that begins with a word finds an empty bin. -/
lemma beginsWord {s : List ParamInfo} {pro : ℕ} {a : Name × BsvType} {atoms : List (Name × BsvType)}
    (hs : binWidth s < 32) (hne : s ≠ [] → 0 < binWidth s)
    (hfirst : pro ≠ 0 → ∀ b ∈ (a :: atoms).head?, b.2 ≠ .float)
    (hal : ∀ q ∈ placesFrom (binWidth s) pro (a :: atoms), q.2.2 = .float → q.1 % 32 = 0)
    (hfloat : a.2 = .float) : pro = 0 ∧ s = [] := by
  have hpro : pro = 0 := by
    by_contra hpro
    exact hfirst hpro a rfl hfloat
  refine ⟨hpro, ?_⟩
  by_contra hcon
  have hpos := hne hcon
  have hmod := hal (binWidth s, a) (by rw [placesFrom, if_pos hpro]; exact List.mem_cons_self) hfloat
  simp only at hmod
  omega

/-- A field that does not end with the word it begins in is no `Float`. -/
lemma not_float_of_ne {s : List ParamInfo} {pro : ℕ} {a : Name × BsvType} {atoms : List (Name × BsvType)}
    (hs : binWidth s < 32) (hne : s ≠ [] → 0 < binWidth s)
    (hfirst : pro ≠ 0 → ∀ b ∈ (a :: atoms).head?, b.2 ≠ .float)
    (hal : ∀ q ∈ placesFrom (binWidth s) pro (a :: atoms), q.2.2 = .float → q.1 % 32 = 0)
    (h : binWidth s + (a.2.bitWidth - pro) ≠ 32) : a.2 ≠ .float := by
  intro hfloat
  obtain ⟨rfl, rfl⟩ := beginsWord hs hne hfirst hal hfloat
  rw [hfloat] at h
  exact h rfl

omit [MathLog] in
/-- A word without a `Float`, with one more piece. -/
lemma not_float_concat {s : List ParamInfo} {x : ParamInfo} (hs : ∀ e ∈ s, e.datatype ≠ .float)
    (hx : x.datatype ≠ .float) : ∀ e ∈ s ++ [x], e.datatype ≠ .float := by
  intro e he
  rw [List.mem_append, List.mem_singleton] at he
  rcases he with he | rfl
  · exact hs e he
  · exact hx

/-- Where a `Float` begins does not depend on the words before. -/
lemma aligned_next {p pro off : ℕ} {a : Name × BsvType} {atoms : List (Name × BsvType)}
    (hal : ∀ q ∈ placesFrom p pro (a :: atoms), q.2.2 = .float → q.1 % 32 = 0)
    (hoff : p + (a.2.bitWidth - pro) = off + 32) :
    ∀ q ∈ places off atoms, q.2.2 = .float → q.1 % 32 = 0 := by
  intro q hq hfloat
  have hmem : (q.1 + 32, q.2) ∈ placesFrom p pro (a :: atoms) := by
    rw [placesFrom, List.mem_append, hoff, places_add]
    exact .inr (List.mem_map_of_mem hq)
  have hmod := hal _ hmem hfloat
  rwa [Nat.add_mod_right] at hmod

/-- Where every `Float` begins with a word, it is alone in it. -/
lemma alone_accumWords (s : List ParamInfo) (pro : ℕ) (atoms : List (Name × BsvType)) (hs : binWidth s < 32)
    (hno : ∀ e ∈ s, e.datatype ≠ .float) (hne : s ≠ [] → 0 < binWidth s) (hp : Proper pro atoms)
    (hfirst : pro ≠ 0 → ∀ a ∈ atoms.head?, a.2 ≠ .float)
    (hal : ∀ q ∈ placesFrom (binWidth s) pro atoms, q.2.2 = .float → q.1 % 32 = 0) :
    ∀ w ∈ accumWords s pro atoms, (∀ e ∈ w, e.datatype ≠ .float) ∨
      ∃ name, w = [⟨name, 32, 0, .float, .set⟩] := by
  revert hno hne hp hfirst hal
  refine accumWords_induction (P := fun s pro atoms => (∀ e ∈ s, e.datatype ≠ .float) →
    (s ≠ [] → 0 < binWidth s) → Proper pro atoms → (pro ≠ 0 → ∀ a ∈ atoms.head?, a.2 ≠ .float) →
    (∀ q ∈ placesFrom (binWidth s) pro atoms, q.2.2 = .float → q.1 % 32 = 0) →
    ∀ w ∈ accumWords s pro atoms, (∀ e ∈ w, e.datatype ≠ .float) ∨
      ∃ name, w = [⟨name, 32, 0, .float, .set⟩]) ?_ ?_ ?_ ?_ s pro atoms hs
  · intro s pro _ hno _ _ _ _ w hw
    rw [accumWords_nil] at hw
    split at hw
    · cases hw
    · rw [List.mem_singleton] at hw
      exact .inl (hw ▸ hno)
  · intro s pro a atoms hs heq ih hno hne hp hfirst hal w hw
    rw [accumWords_of_eq heq, List.mem_cons] at hw
    rcases hw with rfl | hw
    · by_cases hfloat : a.2 = .float
      · obtain ⟨rfl, hnil⟩ := beginsWord hs hne hfirst hal hfloat
        refine .inr ⟨a.1, ?_⟩
        rw [hnil, hfloat]
        rfl
      · exact .inl (not_float_concat hno hfloat)
    · refine ih (fun e he => by cases he) (fun h => absurd rfl h) (proper_zero hp.2) (fun h => absurd rfl h)
        ?_ w hw
      rw [placesFrom_zero, binWidth_nil]
      exact aligned_next hal (by omega)
  · intro s pro a atoms hs hlt ih hno hne hp hfirst hal w hw
    rw [accumWords_of_lt hlt] at hw
    have hfloat := not_float_of_ne hs hne hfirst hal (by omega)
    have hpos := hp.1
    refine ih (not_float_concat hno hfloat) (fun _ => ?_) (proper_zero hp.2) (fun h => absurd rfl h)
      (fun q hq => ?_) w hw
    · rw [binWidth_concat]
      show 0 < binWidth s + (a.2.bitWidth - pro)
      omega
    · rw [placesFrom_zero, binWidth_concat] at hq
      refine hal q ?_
      rw [placesFrom, List.mem_append]
      exact .inr hq
  · intro s pro a atoms hs hgt ih hno hne hp hfirst hal w hw
    have hfloat := not_float_of_ne hs hne hfirst hal (by omega)
    rw [accumWords_of_gt hs hgt, List.mem_cons] at hw
    rcases hw with rfl | hw
    · exact .inl (not_float_concat hno hfloat)
    · refine ih (fun e he => by cases he) (fun h => absurd rfl h) ⟨by omega, hp.2⟩ (fun _ b hb => ?_)
        (fun q hq hfl => ?_) w hw
      · rw [List.head?_cons, Option.mem_some_iff] at hb
        rw [← hb]
        exact hfloat
      · rw [placesFrom, if_neg (by omega), List.nil_append, binWidth_nil] at hq
        exact aligned_next hal (by omega) q hq hfl

/-- A word without a `Float`, or with nothing else in it. -/
def Alone (w : List ParamInfo) : Prop :=
  (∀ e ∈ w, e.datatype ≠ .float) ∨ ∃ name : String, w = [⟨[name], 32, 0, .float, .set⟩]

omit [MathLog] in
/-- A word without a `Float` stays as it is. -/
lemma map_unfloat {w : List ParamInfo} (h : ∀ e ∈ w, e.datatype ≠ .float) :
    w.map ParamInfo.unfloat = w := by
  refine (List.map_congr_left fun e he => ?_).trans (List.map_id w)
  show { e with datatype := e.datatype.unfloat } = e
  rw [unfloat_of_ne (h e he)]

/-- What is written for such a word is what is put together with `Bit#(32)` in place of `Float`. -/
lemma Alone.written_eq {w : List ParamInfo} (h : Alone w) (args : Fields) :
    written args w = wordOf args (w.map ParamInfo.unfloat) := by
  rcases h with hno | ⟨name, rfl⟩
  · have hfind : w.find? (fun e => e.datatype.isFloat) = none := by
      rw [List.find?_eq_none]
      exact fun e he hfloat => hno e he (isFloat_iff.mp hfloat)
    rw [written, hfind, map_unfloat hno]
  · refine BitVec.eq_of_getLsbD_eq fun b hb => ?_
    rw [getLsbD_wordOf _ _ hb]
    show ((args [name]).setWidth 32).getLsbD b =
      (decide (0 ≤ b) && fieldBit args [name] (.bit 32) (b - 0 + 0) || false)
    rw [BitVec.getLsbD_setWidth, fieldBit_bit _ _ (by decide)]
    simp [cWidth]

/-- The code that reads such a word does the same as the code with `Bit#(32)` in place of `Float`. -/
lemma Alone.exec_eq {w : List ParamInfo} (h : Alone w) (hp : Placed 0 w)
    (ht : ∀ e ∈ w, Integral e.datatype ∨ e.datatype = .float) :
    ∃ code code', generateDemarshall w = some code ∧
      generateDemarshall (w.map ParamInfo.unfloat) = some code' ∧
      ∀ m, code.foldlM Stmt.exec m = code'.foldlM Stmt.exec m := by
  rcases h with hno | ⟨name, rfl⟩
  · obtain ⟨code, hcode, -⟩ := exec_demarshallFrom hp fun e he => (ht e he).resolve_right (hno e he)
    have hgen : generateDemarshall w = some (.readl :: code) := by
      simp only [generateDemarshall, hcode, bind, pure, Option.bind_some]
    exact ⟨_, _, hgen, by rw [map_unfloat hno]; exact hgen, fun m => rfl⟩
  · refine ⟨[.readl, .assignFloat [name]], [.readl, .assign [name] (.bit 32) .set
      (.cast .uint32 (.mask .tmp (2 ^ 32 - 1)))], rfl, rfl, fun m => ?_⟩
    have hfits : Fits 0 ⟨[name], 32, 0, .bit 32, .set⟩ :=
      ⟨by decide, Nat.zero_lt_succ 31, le_rfl, le_rfl, .inl ⟨rfl, rfl⟩⟩
    cases hin : m.input with
    | nil => simp only [List.foldlM_cons, Stmt.exec, hin, bind, Option.bind_none]
    | cons x input =>
      simp only [List.foldlM_cons, Stmt.exec, hin, bind, Option.bind_some]
      have hcn : BsvType.cName (.bit 32) = some .uint32 := rfl
      have hty : CName.ty .uint32 = some .uint := rfl
      have hassign := exec_assign hfits hcn hty le_rfl { m with tmp := x, input }
      have hpiece : x.setWidth 64 = ParamInfo.piece ⟨[name], 32, 0, .bit 32, .set⟩ 0 x := by
        simp [ParamInfo.piece]
      rw [hpiece]
      exact congrArg (fun o => Option.bind o fun m => some m) hassign.symm

/-- The code that reads such words. -/
lemma execs_eq {ws : List (List ParamInfo)}
    (h : ∀ w ∈ ws, Alone w ∧ Placed 0 w ∧ ∀ e ∈ w, Integral e.datatype ∨ e.datatype = .float) :
    ∃ code code', ws.mapM generateDemarshall = some code ∧
      (ws.map (List.map ParamInfo.unfloat)).mapM generateDemarshall = some code' ∧
      ∀ m, code.flatten.foldlM Stmt.exec m = code'.flatten.foldlM Stmt.exec m := by
  induction ws with
  | nil => exact ⟨[], [], rfl, rfl, fun m => rfl⟩
  | cons w ws ih =>
    obtain ⟨halone, hp, ht⟩ := h w List.mem_cons_self
    obtain ⟨code, code', hcode, hcode', hexec⟩ := halone.exec_eq hp ht
    obtain ⟨codes, codes', hcodes, hcodes', hexecs⟩ := ih fun x hx => h x (List.mem_cons_of_mem _ hx)
    refine ⟨code :: codes, code' :: codes', ?_, ?_, fun m => ?_⟩
    · rw [List.mapM_cons, hcode, hcodes]
      rfl
    · rw [List.map_cons, List.mapM_cons, hcode', hcodes']
      rfl
    · rw [List.flatten_cons, List.flatten_cons, List.foldlM_append, List.foldlM_append, hexec]
      exact bind_congr fun m' => hexecs m'

/-- Where every `Float` begins with a word, the words are of this kind. -/
lemma FloatsAligned.alone (hal : FloatsAligned params) (h : FloatsAndBits params) :
    ∀ w ∈ argWords params, Alone w := by
  intro w hw
  have hall := alone_accumWords [] 0 (collectParams params).reverse (by decide) (fun e he => by cases he)
    (fun hne => absurd rfl hne) h.proper (fun hne => absurd rfl hne)
    (by rw [placesFrom_zero]; exact hal) w hw
  rcases hall with hno | ⟨name, rfl⟩
  · exact .inl hno
  · obtain ⟨-, -, hpieces⟩ := h.placed _ hw
    obtain ⟨-, name', hname⟩ := hpieces _ List.mem_cons_self
    exact .inr ⟨name', by rw [show name = [name'] from hname]⟩

/-- What is read is what would be read with `Bit#(32)` in place of `Float`. -/
lemma FloatsAligned.demarshall_eq (hal : FloatsAligned params) (h : FloatsAndBits params) (fields : Fields)
    (ws : List (BitVec 32)) : demarshall params fields ws = demarshall (unfloat params) fields ws := by
  have hargs := h.argWords_unfloat
  have hwords : ∀ w ∈ (argWords params).reverse,
      Alone w ∧ Placed 0 w ∧ ∀ e ∈ w, Integral e.datatype ∨ e.datatype = .float := by
    intro w hw
    have hmem := List.mem_reverse.mp hw
    obtain ⟨-, hp, ht⟩ := h.placed w hmem
    exact ⟨hal.alone h w hmem, hp, fun e he => (ht e he).1⟩
  obtain ⟨code, code', hcode, hcode', hexec⟩ := execs_eq hwords
  unfold demarshall paramStructDemarshall
  rw [hargs, List.isEmpty_map]
  split
  · rfl
  · rw [← List.map_reverse, hcode, hcode']
    simp only [bind, pure, Option.bind_some, hexec]

/-- What is written is what would be written with `Bit#(32)` in place of `Float`. -/
lemma FloatsAligned.proxyWords_eq (hal : FloatsAligned params) (h : FloatsAndBits params) (args : Fields) :
    proxyWords params args = proxyWords (unfloat params) args := by
  by_cases hne : argWords params = []
  · have hne' : argWords (unfloat params) = [] := by rw [h.argWords_unfloat, hne, List.map_nil]
    simp only [proxyWords, paramStructMarshall, hne, hne']
  · obtain ⟨hwords, hwords'⟩ := h.proxyWords_eq hne args
    rw [hwords, hwords']
    congr 1
    exact List.map_congr_left fun w hw => (hal.alone h w (List.mem_reverse.mp hw)).written_eq args

/-- The method with `Bit#(32)` in place of `Float` has the same size. -/
lemma requestBits_unfloat (params : List Param) : requestBits (unfloat params) = requestBits params := by
  have hsize : ∀ t : BsvType, t.unfloat.numBitsBSV = t.numBitsBSV := by
    intro t
    cases t <;> simp only [BsvType.unfloat, BsvType.numBitsBSV]
  unfold requestBits paramsBits unfloat
  rw [List.isEmpty_map, List.map_map]
  simp only [Function.comp_def, hsize]

variable {sig : Signature}

/-- The method with `Bit#(32)` in place of `Float`. -/
def Signature.unfloat (sig : Signature) (h : FloatsAndBits sig.params) : Signature where
  params := Xbsv.unfloat sig.params
  names := by
    rw [Xbsv.unfloat, List.map_map]
    exact sig.names
  members := by
    intro p hp
    obtain ⟨w, -, -, hw⟩ := h.onlyBits p hp
    rw [hw]
    trivial
  sized := by
    rw [requestBits_unfloat]
    exact sig.sized
  counted := by
    rw [requestBits_unfloat]
    exact sig.counted

/-- **Floats.** A method is marshalled as if it had `Bit#(32)` in place of `Float`, and is read as it was
written, exactly when every `Float` begins with a word.

**Proof sketch.** A `Float` that begins with a word is alone in it, and a whole word is written and read in
the same way. One that does not reaches into the next word, which begins with the rest of it; there the whole
`Float` is written, and 1 in place of 0 if it holds 1. -/
theorem asBits_iff (h : FloatsAndBits sig.params) : AsBits sig.params ↔ FloatsAligned sig.params := by
  constructor
  · intro has q hq hfloat
    by_contra hmod
    obtain ⟨e, rest, hmem, hname, hdata, hshift⟩ := exists_rest [] 0 (collectParams sig.params).reverse
      (by decide) (q := q) (by rw [placesFrom_zero]; exact hq) hfloat hmod
    have hargs : e :: rest ∈ argWords sig.params := hmem
    obtain ⟨-, hp, hpieces⟩ := h.placed _ hargs
    obtain ⟨-, name, hsingle⟩ := hpieces e List.mem_cons_self
    have hrange : InFloatRange sig.params (Function.update (fun _ => 0) e.name 1) := by
      intro p hp'
      have hmem' : ([p.name], p.type) ∈ collectParams sig.params := by
        rw [h.collect]
        exact List.mem_map.mpr ⟨p, hp', rfl⟩
      have hpos : 0 < p.type.bitWidth := (h.pos hmem').1
      have hone : 1 < 2 ^ p.type.bitWidth := Nat.one_lt_two_pow (by omega)
      by_cases hn : [p.name] = e.name
      · rw [hn, Function.update_self]
        exact hone
      · rw [Function.update_of_ne hn]
        exact Nat.two_pow_pos _
    have heq := (has _ hrange).1
    obtain ⟨hwords, hwords'⟩ := h.proxyWords_eq (List.ne_nil_of_mem hargs)
      (Function.update (fun _ => 0) e.name 1)
    rw [hwords, hwords', Option.some.injEq] at heq
    have hword := List.map_inj_left.mp heq _ (List.mem_reverse.mpr hargs)
    exact written_ne hsingle hdata hshift hp.1.shifted_lt hword
  · intro hal args hrange
    have heq := hal.proxyWords_eq h args
    refine ⟨heq, fun fields => ?_⟩
    have hplain : Plain (sig.unfloat h).params := by
      intro a ha
      obtain ⟨p, hp, rfl⟩ := h.onlyBits.intsAndBits.mem ha
      exact .inl (h.onlyBits p hp)
    have hbounded : Bounded (sig.unfloat h).params args := by
      intro a ha
      obtain ⟨p', hp', rfl⟩ := h.onlyBits.intsAndBits.mem ha
      obtain ⟨p, hp, rfl⟩ := List.mem_map.mp hp'
      rw [bitWidth_unfloat]
      exact hrange p hp
    obtain ⟨ws, hws, hlen, hbits⟩ := hplain.exists_proxyWords hbounded
    obtain ⟨fields', hread, hfields⟩ := hplain.exists_demarshall hbounded fields hlen hbits
    refine ⟨ws, fields', heq.trans hws, (hal.demarshall_eq h fields ws).trans hread, fun p hp => ?_⟩
    refine hfields ([p.name], p.type.unfloat) ?_
    show _ ∈ collectParams (Xbsv.unfloat sig.params)
    rw [h.collect_unfloat, h.collect, List.map_map]
    exact List.mem_map.mpr ⟨p, hp, rfl⟩

end Generators

/-- A method with a `Float` after a parameter of 8 bits. -/
def alignedFloat : Signature where
  params := [⟨"a", .bit 8⟩, ⟨"f", .float⟩]
  names := by decide
  members := by simp [BsvType.Distinct]
  sized := by decide +kernel
  counted := by decide +kernel

/-- Here the `Float` begins with a word. -/
theorem asBits_alignedFloat : AsBits alignedFloat.params := by
  refine (asBits_iff (by simp [FloatsAndBits, alignedFloat, IsBits])).mpr ?_
  intro q hq hfloat
  have hmem : q = (0, ["f"], .float) ∨ q = (32, ["a"], .bit 8) := by
    simpa [fieldPlaces, alignedFloat, collectParams, collectMembers, places, BsvType.bitWidth] using hq
  rcases hmem with rfl | rfl
  · rfl
  · cases hfloat

/-- A method with a `Float` before a parameter of 8 bits. -/
def crossingFloat : Signature where
  params := [⟨"f", .float⟩, ⟨"a", .bit 8⟩]
  names := by decide
  members := by simp [BsvType.Distinct]
  sized := by decide +kernel
  counted := by decide +kernel

/-- With 1.0 and `a = 0x55` both words are those of 1.0, and `a` is lost. -/
theorem not_asBits_crossingFloat :
    proxyWords crossingFloat.params (fun name => if name = ["f"] then 0x3F800000 else 0x55) =
        some [0x3F800000, 0x3F800000] ∧
      proxyWords (unfloat crossingFloat.params) (fun name => if name = ["f"] then 0x3F800000 else 0x55) =
        some [0x3F, 0x80000055] ∧
      ¬ AsBits crossingFloat.params := by
  refine ⟨by decide +kernel, by decide +kernel, fun has => ?_⟩
  have hrange : InFloatRange crossingFloat.params
      (fun name => if name = ["f"] then 0x3F800000 else 0x55) := by
    simp [InFloatRange, crossingFloat, BsvType.bitWidth]
  exact absurd (has _ hrange).1 (by decide +kernel)

end Xbsv
