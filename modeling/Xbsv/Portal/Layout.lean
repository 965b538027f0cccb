import Xbsv.Portal.CppGen

set_option relaxedAutoImplicit false
set_option autoImplicit false

/-!
# The layout of messages

The words into which the generator cuts a message hold the fields one after the other, from the least
significant end. Where a field has bits above its width, they reach into the fields after it, as far as the
word goes in which the field ends.

## Main definitions

* `Xbsv.wordBit` — a bit of a word that is put together from the pieces in it.
* `Xbsv.overlay` — a bit of a message in which every field goes on to the end of its last word.
* `Xbsv.Placed` — the pieces of a word lie one after the other.

## Main results

* `Xbsv.wordBit_accumWords` — the words put together are the fields laid over each other.
* `Xbsv.length_accumWords` — the number of words.
-/

namespace Xbsv

@[simp] lemma binWidth_nil : binWidth [] = 0 := rfl

@[simp] lemma binWidth_concat (s : List ParamInfo) (e : ParamInfo) :
    binWidth (s ++ [e]) = binWidth s + (e.width - e.shifted) := by
  simp [binWidth]

variable [MathLog]

/-! ## The recursion of the generator -/

@[simp] lemma atomsWidth_cons (a : Name × BsvType) (atoms : List (Name × BsvType)) :
    atomsWidth (a :: atoms) = a.2.bitWidth + atomsWidth atoms := by
  simp [atomsWidth]

/-- The bits that are left when `pro` bits of the first field have been taken. -/
def bitsLeft (pro : ℕ) : List (Name × BsvType) → ℕ
  | [] => 0
  | a :: atoms => a.2.bitWidth - pro + atomsWidth atoms

@[simp] lemma bitsLeft_zero (atoms : List (Name × BsvType)) : bitsLeft 0 atoms = atomsWidth atoms := by
  cases atoms with
  | nil => rfl
  | cons a atoms => simp [bitsLeft]

/-- Every call takes bits or a field, so more calls than these change nothing. -/
lemma accumWordsAux_eq (fuel fuel' : ℕ) (s : List ParamInfo) (pro : ℕ) (atoms : List (Name × BsvType))
    (hs : binWidth s < 32) (h : bitsLeft pro atoms + atoms.length < fuel)
    (h' : bitsLeft pro atoms + atoms.length < fuel') :
    accumWordsAux fuel s pro atoms = accumWordsAux fuel' s pro atoms := by
  induction fuel generalizing fuel' s pro atoms with
  | zero => omega
  | succ fuel ih =>
    obtain ⟨fuel', rfl⟩ : ∃ k, fuel' = k + 1 := ⟨fuel' - 1, by omega⟩
    cases atoms with
    | nil => simp only [accumWordsAux]
    | cons a atoms =>
      rw [bitsLeft, List.length_cons] at h h'
      simp only [accumWordsAux]
      split
      · rw [ih fuel' [] 0 atoms (by decide) (by rw [bitsLeft_zero]; omega) (by rw [bitsLeft_zero]; omega)]
      · split
        · rename_i hlt
          refine ih fuel' _ 0 atoms ?_ (by rw [bitsLeft_zero]; omega) (by rw [bitsLeft_zero]; omega)
          rw [binWidth_concat]
          show binWidth s + (a.2.bitWidth - pro) < 32
          omega
        · rw [ih fuel' [] (pro + (32 - binWidth s)) (a :: atoms) (by decide)
            (by rw [bitsLeft, List.length_cons]; omega) (by rw [bitsLeft, List.length_cons]; omega)]

section Recursion

variable {s : List ParamInfo} {pro : ℕ} {a : Name × BsvType} {atoms : List (Name × BsvType)}

lemma accumWords_nil (s : List ParamInfo) (pro : ℕ) :
    accumWords s pro [] = if s.isEmpty then [] else [s] := rfl

/-- The first field fills the bin. -/
lemma accumWords_of_eq (h : a.2.bitWidth - pro + binWidth s = 32) :
    accumWords s pro (a :: atoms) =
      (s ++ [⟨a.1, a.2.bitWidth, pro, a.2, .set⟩]) :: accumWords [] 0 atoms := by
  unfold accumWords
  rw [List.length_cons, atomsWidth_cons, accumWordsAux]
  simp only [h, if_true]
  rw [accumWordsAux_eq _ (atomsWidth atoms + atoms.length + 1) [] 0 atoms (by decide)
    (by rw [bitsLeft_zero]; omega) (by rw [bitsLeft_zero]; omega)]

/-- The first field leaves room in the bin. -/
lemma accumWords_of_lt (h : a.2.bitWidth - pro + binWidth s < 32) :
    accumWords s pro (a :: atoms) =
      accumWords (s ++ [⟨a.1, a.2.bitWidth, pro, a.2, .set⟩]) 0 atoms := by
  unfold accumWords
  rw [List.length_cons, atomsWidth_cons, accumWordsAux]
  simp only [h, Nat.ne_of_lt h, if_true, if_false]
  refine accumWordsAux_eq _ _ _ 0 atoms ?_ (by rw [bitsLeft_zero]; omega) (by rw [bitsLeft_zero]; omega)
  rw [binWidth_concat]
  show binWidth s + (a.2.bitWidth - pro) < 32
  omega

/-- The first field reaches into the next bin. -/
lemma accumWords_of_gt (hs : binWidth s < 32) (h : 32 < a.2.bitWidth - pro + binWidth s) :
    accumWords s pro (a :: atoms) =
      (s ++ [⟨a.1, pro + (32 - binWidth s), pro, a.2, .or⟩]) ::
        accumWords [] (pro + (32 - binWidth s)) (a :: atoms) := by
  unfold accumWords
  rw [List.length_cons, atomsWidth_cons, accumWordsAux]
  simp only [Nat.ne_of_gt h, show ¬ a.2.bitWidth - pro + binWidth s < 32 by omega, if_false]
  rw [accumWordsAux_eq _ (a.2.bitWidth + atomsWidth atoms + (atoms.length + 1) + 1) [] _ (a :: atoms)
    (by decide) (by rw [bitsLeft, List.length_cons]; omega) (by rw [bitsLeft, List.length_cons]; omega)]

/-- Induction along `accumWords`. -/
lemma accumWords_induction {P : List ParamInfo → ℕ → List (Name × BsvType) → Prop}
    (nil : ∀ s pro, binWidth s < 32 → P s pro [])
    (eq : ∀ s pro a atoms, binWidth s < 32 → a.2.bitWidth - pro + binWidth s = 32 →
      P [] 0 atoms → P s pro (a :: atoms))
    (lt : ∀ s pro a atoms, binWidth s < 32 → a.2.bitWidth - pro + binWidth s < 32 →
      P (s ++ [⟨a.1, a.2.bitWidth, pro, a.2, .set⟩]) 0 atoms → P s pro (a :: atoms))
    (gt : ∀ s pro a atoms, binWidth s < 32 → 32 < a.2.bitWidth - pro + binWidth s →
      P [] (pro + (32 - binWidth s)) (a :: atoms) → P s pro (a :: atoms))
    (s : List ParamInfo) (pro : ℕ) (atoms : List (Name × BsvType)) (hs : binWidth s < 32) :
    P s pro atoms := by
  -- the bits and fields that are left
  induction hm : bitsLeft pro atoms + atoms.length using Nat.strong_induction_on
    generalizing s pro atoms with
  | _ m ih =>
    subst hm
    cases atoms with
    | nil => exact nil s pro hs
    | cons a atoms =>
      rw [bitsLeft, List.length_cons] at ih
      rcases Nat.lt_trichotomy (a.2.bitWidth - pro + binWidth s) 32 with h | h | h
      · refine lt s pro a atoms hs h (ih _ ?_ _ 0 atoms ?_ rfl)
        · rw [bitsLeft_zero]
          omega
        · rw [binWidth_concat]
          show binWidth s + (a.2.bitWidth - pro) < 32
          omega
      · exact eq s pro a atoms hs h (ih _ (by rw [bitsLeft_zero]; omega) [] 0 atoms (by decide) rfl)
      · refine gt s pro a atoms hs h (ih _ ?_ [] _ (a :: atoms) (by decide) rfl)
        rw [bitsLeft, List.length_cons]
        omega

end Recursion

/-- Bits are left of the first field, and the other fields have bits. -/
def Proper (pro : ℕ) : List (Name × BsvType) → Prop
  | [] => True
  | a :: atoms => pro < a.2.bitWidth ∧ ∀ b ∈ atoms, 0 < b.2.bitWidth

lemma proper_zero {atoms : List (Name × BsvType)} (h : ∀ a ∈ atoms, 0 < a.2.bitWidth) : Proper 0 atoms := by
  cases atoms with
  | nil => trivial
  | cons a atoms => exact ⟨h a List.mem_cons_self, fun b hb => h b (List.mem_cons_of_mem _ hb)⟩

/-! ## The bits of words -/

section Bits

variable (f : Name → BsvType → ℕ → Bool)

/-- A bit of a word: some piece has it. The pieces are not cut off at their widths. -/
def wordBit : ℕ → List ParamInfo → ℕ → Bool
  | _, [], _ => false
  | off, e :: w, b =>
    (decide (off ≤ b) && f e.name e.datatype (b - off + e.shifted)) ||
      wordBit (off + (e.width - e.shifted)) w b

/-- A bit of a message: some field has it, and the word is not after the one in which the field ends. The
first field is at `p`, and `pro` bits of it have been taken. -/
def overlay : ℕ → ℕ → List (Name × BsvType) → ℕ → Bool
  | _, _, [], _ => false
  | p, pro, a :: atoms, j =>
    (decide (p ≤ j) && (decide (32 * (j / 32) < p + (a.2.bitWidth - pro)) && f a.1 a.2 (j - p + pro))) ||
      overlay (p + (a.2.bitWidth - pro)) 0 atoms j

variable {f}

omit [MathLog] in
lemma wordBit_concat (off : ℕ) (s : List ParamInfo) (e : ParamInfo) (b : ℕ) :
    wordBit f off (s ++ [e]) b = (wordBit f off s b ||
      (decide (off + binWidth s ≤ b) && f e.name e.datatype (b - (off + binWidth s) + e.shifted))) := by
  induction s generalizing off with
  | nil => simp [wordBit, binWidth]
  | cons x s ih =>
    have hbin : binWidth (x :: s) = x.width - x.shifted + binWidth s := by simp [binWidth]
    rw [List.cons_append, wordBit, wordBit, ih, hbin, Bool.or_assoc, Nat.add_assoc]

/-- No field has bits below its place. -/
lemma overlay_of_lt {p pro j : ℕ} {atoms : List (Name × BsvType)} (h : j < p) :
    overlay f p pro atoms j = false := by
  induction atoms generalizing p pro with
  | nil => rfl
  | cons a atoms ih =>
    rw [overlay, decide_eq_false (by omega), Bool.false_and, ih (by omega), Bool.false_or]

/-- A message that begins a word later. -/
lemma overlay_add (p pro j : ℕ) (atoms : List (Name × BsvType)) :
    overlay f (p + 32) pro atoms (j + 32) = overlay f p pro atoms j := by
  induction atoms generalizing p pro with
  | nil => rfl
  | cons a atoms ih =>
    have hword : 32 * ((j + 32) / 32) = 32 * (j / 32) + 32 := by omega
    have hcomm : p + 32 + (a.2.bitWidth - pro) = p + (a.2.bitWidth - pro) + 32 := by omega
    rw [overlay, overlay, hcomm, ih, hword, Nat.add_sub_add_right]
    simp only [Nat.add_le_add_iff_right, Nat.add_lt_add_iff_right]

/-- **The words of a message are the fields laid over each other.**

**Proof sketch.** Induction along `accumWords`. A bin that is full is the first word, and the rest is a
message that begins a word later. -/
theorem wordBit_accumWords (s : List ParamInfo) (pro : ℕ) (atoms : List (Name × BsvType))
    (hs : binWidth s < 32) (hp : Proper pro atoms) (k b : ℕ) (hb : b < 32) :
    wordBit f 0 ((accumWords s pro atoms).getD k []) b =
      ((decide (k = 0) && wordBit f 0 s b) || overlay f (binWidth s) pro atoms (32 * k + b)) := by
  revert hp k
  refine accumWords_induction (P := fun s pro atoms => Proper pro atoms → ∀ k,
    wordBit f 0 ((accumWords s pro atoms).getD k []) b =
      ((decide (k = 0) && wordBit f 0 s b) || overlay f (binWidth s) pro atoms (32 * k + b)))
    ?_ ?_ ?_ ?_ s pro atoms hs
  · intro s pro _ _ k
    rw [accumWords_nil, overlay, Bool.or_false]
    cases s with
    | nil => simp [wordBit]
    | cons x s => cases k <;> simp [wordBit]
  · intro s pro a atoms _ heq ih hp k
    rw [accumWords_of_eq heq, overlay]
    have hend : binWidth s + (a.2.bitWidth - pro) = 0 + 32 := by omega
    cases k with
    | zero =>
      rw [List.getD_cons_zero, wordBit_concat, decide_eq_true rfl, Bool.true_and, hend,
        overlay_of_lt (show 32 * 0 + b < 0 + 32 by omega), Bool.or_false]
      simp only [Nat.zero_add, Nat.mul_zero, Nat.div_eq_of_lt hb]
      rw [decide_eq_true (show 0 < 32 by omega), Bool.true_and]
    | succ k =>
      have hj : 32 * (k + 1) + b = 32 * k + b + 32 := by omega
      rw [List.getD_cons_succ, ih (proper_zero hp.2), hend, hj, overlay_add,
        decide_eq_false (show ¬ 32 * ((32 * k + b + 32) / 32) < 0 + 32 by omega),
        decide_eq_false (show ¬ k + 1 = 0 by omega)]
      simp [wordBit]
  · intro s pro a atoms _ hlt ih hp k
    rw [accumWords_of_lt hlt, ih (proper_zero hp.2), binWidth_concat, wordBit_concat, overlay]
    have hpos := hp.1
    cases k with
    | zero =>
      simp only [decide_true, Bool.true_and, Nat.zero_add, Nat.mul_zero, Nat.div_eq_of_lt hb]
      rw [decide_eq_true (show 0 < binWidth s + (a.2.bitWidth - pro) by omega), Bool.true_and,
        Bool.or_assoc]
    | succ k =>
      rw [decide_eq_false (show ¬ k + 1 = 0 by omega),
        decide_eq_false (show ¬ 32 * ((32 * (k + 1) + b) / 32) < binWidth s + (a.2.bitWidth - pro) by omega)]
      simp
  · intro s pro a atoms hs hgt ih hp k
    have hpro : Proper (pro + (32 - binWidth s)) (a :: atoms) := ⟨by omega, hp.2⟩
    rw [accumWords_of_gt hs hgt]
    cases k with
    | zero =>
      rw [List.getD_cons_zero, wordBit_concat, decide_eq_true rfl, Bool.true_and, overlay,
        overlay_of_lt (show 32 * 0 + b < binWidth s + (a.2.bitWidth - pro) by omega), Bool.or_false]
      simp only [Nat.zero_add, Nat.mul_zero, Nat.div_eq_of_lt hb]
      rw [decide_eq_true (show 0 < binWidth s + (a.2.bitWidth - pro) by omega), Bool.true_and]
    | succ k =>
      have hj : 32 * (k + 1) + b = 32 * k + b + 32 := by omega
      have hend : binWidth s + (a.2.bitWidth - pro) =
          0 + (a.2.bitWidth - (pro + (32 - binWidth s))) + 32 := by omega
      have hidx : 32 * k + b + 32 - binWidth s + pro = 32 * k + b - 0 + (pro + (32 - binWidth s)) := by
        omega
      have hword : 32 * ((32 * k + b + 32) / 32) = 32 * ((32 * k + b) / 32) + 32 := by omega
      rw [List.getD_cons_succ, ih hpro, hj, overlay, overlay, binWidth_nil, hend, overlay_add, hword, hidx,
        decide_eq_true (show binWidth s ≤ 32 * k + b + 32 by omega),
        decide_eq_true (Nat.zero_le (32 * k + b)), decide_eq_false (show ¬ k + 1 = 0 by omega)]
      simp only [Nat.add_lt_add_iff_right, wordBit, Bool.and_false, Bool.false_and, Bool.false_or]

end Bits

/-- **The number of words.** -/
lemma length_accumWords (s : List ParamInfo) (pro : ℕ) (atoms : List (Name × BsvType))
    (hs : binWidth s < 32) (hne : s ≠ [] → 0 < binWidth s) (hp : Proper pro atoms) :
    (accumWords s pro atoms).length = (binWidth s + bitsLeft pro atoms + 31) / 32 := by
  revert hne hp
  refine accumWords_induction (P := fun s pro atoms => (s ≠ [] → 0 < binWidth s) → Proper pro atoms →
    (accumWords s pro atoms).length = (binWidth s + bitsLeft pro atoms + 31) / 32) ?_ ?_ ?_ ?_ s pro atoms hs
  · intro s pro hs hne _
    rw [accumWords_nil, bitsLeft]
    cases s with
    | nil => rfl
    | cons x s =>
      have hpos := hne (List.cons_ne_nil x s)
      simp only [List.isEmpty_cons, Bool.false_eq_true, if_false, List.length_singleton]
      omega
  · intro s pro a atoms _ heq ih _ hp
    rw [accumWords_of_eq heq, List.length_cons, ih (fun h => absurd rfl h) (proper_zero hp.2), bitsLeft,
      bitsLeft_zero, binWidth_nil]
    omega
  · intro s pro a atoms _ hlt ih _ hp
    have hpos := hp.1
    have hne : binWidth (s ++ [⟨a.1, a.2.bitWidth, pro, a.2, .set⟩]) = binWidth s + (a.2.bitWidth - pro) :=
      binWidth_concat s _
    rw [accumWords_of_lt hlt, ih (fun _ => by rw [hne]; omega) (proper_zero hp.2), bitsLeft, bitsLeft_zero, hne]
    congr 1
    omega
  · intro s pro a atoms hs hgt ih _ hp
    rw [accumWords_of_gt hs hgt, List.length_cons, ih (fun h => absurd rfl h) ⟨by omega, hp.2⟩, bitsLeft,
      bitsLeft, binWidth_nil]
    omega

/-! ## The places of pieces -/

/-- A piece at `off` is inside its field and inside the word. Either its field ends with it, or the word
does. -/
structure Fits (off : ℕ) (e : ParamInfo) : Prop where
  off_lt : off < 32
  shifted_lt : e.shifted < e.width
  width_le : e.width ≤ e.datatype.bitWidth
  end_le : off + (e.width - e.shifted) ≤ 32
  ends : e.width = e.datatype.bitWidth ∧ e.assignOp = .set ∨
    off + (e.width - e.shifted) = 32 ∧ e.assignOp = .or

/-- The pieces of a word lie one after the other. -/
def Placed : ℕ → List ParamInfo → Prop
  | _, [] => True
  | off, e :: w => Fits off e ∧ Placed (off + (e.width - e.shifted)) w

lemma placed_concat {off : ℕ} {s : List ParamInfo} {e : ParamInfo} (hs : Placed off s)
    (he : Fits (off + binWidth s) e) : Placed off (s ++ [e]) := by
  induction s generalizing off with
  | nil => exact ⟨he, trivial⟩
  | cons x s ih =>
    have hbin : off + binWidth (x :: s) = off + (x.width - x.shifted) + binWidth s := by
      simp [binWidth, Nat.add_assoc]
    rw [hbin] at he
    exact ⟨hs.1, ih hs.2 he⟩

omit [MathLog] in
/-- The pieces with one more, of the next field. -/
lemma mem_concat_piece {s : List ParamInfo} {e x : ParamInfo} {atoms : List (Name × BsvType)}
    (he : e ∈ s ++ [x]) : e ∈ s ∨ (e.name, e.datatype) ∈ (x.name, x.datatype) :: atoms := by
  rw [List.mem_append, List.mem_singleton] at he
  rcases he with he | rfl
  · exact .inl he
  · exact .inr List.mem_cons_self

/-- The words of a message are not empty, their pieces lie one after the other and are pieces of its
fields. -/
lemma placed_accumWords (s : List ParamInfo) (pro : ℕ) (atoms : List (Name × BsvType))
    (hs : binWidth s < 32) (hplaced : Placed 0 s) (hp : Proper pro atoms) :
    ∀ w ∈ accumWords s pro atoms, w ≠ [] ∧ Placed 0 w ∧
      ∀ e ∈ w, e ∈ s ∨ (e.name, e.datatype) ∈ atoms := by
  revert hplaced hp
  refine accumWords_induction (P := fun s pro atoms => Placed 0 s → Proper pro atoms →
    ∀ w ∈ accumWords s pro atoms, w ≠ [] ∧ Placed 0 w ∧
      ∀ e ∈ w, e ∈ s ∨ (e.name, e.datatype) ∈ atoms) ?_ ?_ ?_ ?_ s pro atoms hs
  · intro s pro _ hplaced _ w hw
    rw [accumWords_nil] at hw
    cases s with
    | nil => cases hw
    | cons x s =>
      simp only [List.isEmpty_cons, Bool.false_eq_true, if_false, List.mem_singleton] at hw
      subst hw
      exact ⟨List.cons_ne_nil x s, hplaced, fun e he => .inl he⟩
  · intro s pro a atoms hs heq ih hplaced hp w hw
    have hpos := hp.1
    rw [accumWords_of_eq heq, List.mem_cons] at hw
    rcases hw with rfl | hw
    · refine ⟨by simp, placed_concat hplaced ⟨?_, hpos, le_rfl, ?_, .inl ⟨rfl, rfl⟩⟩, ?_⟩
      · omega
      · show 0 + binWidth s + (a.2.bitWidth - pro) ≤ 32
        omega
      · exact fun e he => mem_concat_piece he
    · obtain ⟨hne, hw', hmem⟩ := ih trivial (proper_zero hp.2) w hw
      refine ⟨hne, hw', fun e he => .inr ?_⟩
      rcases hmem e he with he | he
      · cases he
      · exact List.mem_cons_of_mem _ he
  · intro s pro a atoms hs hlt ih hplaced hp w hw
    have hpos := hp.1
    rw [accumWords_of_lt hlt] at hw
    have hfits : Fits (0 + binWidth s) ⟨a.1, a.2.bitWidth, pro, a.2, .set⟩ := by
      refine ⟨by omega, hpos, le_rfl, ?_, .inl ⟨rfl, rfl⟩⟩
      show 0 + binWidth s + (a.2.bitWidth - pro) ≤ 32
      omega
    obtain ⟨hne, hw', hmem⟩ := ih (placed_concat hplaced hfits) (proper_zero hp.2) w hw
    refine ⟨hne, hw', fun e he => ?_⟩
    rcases hmem e he with he | he
    · exact mem_concat_piece he
    · exact .inr (List.mem_cons_of_mem _ he)
  · intro s pro a atoms hs hgt ih hplaced hp w hw
    have hpos := hp.1
    rw [accumWords_of_gt hs hgt, List.mem_cons] at hw
    rcases hw with rfl | hw
    · refine ⟨by simp, placed_concat hplaced ⟨?_, ?_, ?_, ?_, .inr ⟨?_, rfl⟩⟩, ?_⟩
      · omega
      · show pro < pro + (32 - binWidth s)
        omega
      · show pro + (32 - binWidth s) ≤ a.2.bitWidth
        omega
      · show 0 + binWidth s + (pro + (32 - binWidth s) - pro) ≤ 32
        omega
      · show 0 + binWidth s + (pro + (32 - binWidth s) - pro) = 32
        omega
      · exact fun e he => mem_concat_piece he
    · obtain ⟨hne, hw', hmem⟩ := ih trivial ⟨by omega, hp.2⟩ w hw
      refine ⟨hne, hw', fun e he => .inr ?_⟩
      rcases hmem e he with he | he
      · cases he
      · exact he

end Xbsv
