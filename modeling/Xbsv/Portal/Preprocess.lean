import Mathlib.Tactic.Common
import Xbsv.Strings.Scan

set_option relaxedAutoImplicit false
set_option autoImplicit false

/-!
# Conditional compilation in the interface compiler

`preprocess` of `syntax.py` keeps the regions of a source text whose conditions hold. A text is a list of characters.
The recursion of Python has no limit here.

## Main definitions

* `Xbsv.Preprocess.pp` — the recursive function in `preprocess`, as the list of the pieces that it puts together.
* `Xbsv.Preprocess.Source` — source texts with balanced directives.
* `Xbsv.Preprocess.Reading`, `Xbsv.Preprocess.Reading.regions` — the regions of a source text, and which of them are
  kept.
* `Xbsv.Preprocess.verilog`, `Xbsv.Preprocess.counted` — the meaning in Verilog, and the one that `preprocess` gives.
* `Xbsv.Preprocess.Preprocessed` — the regions are kept or left out as in Verilog.

## Main results

* `Xbsv.Preprocess.pp_print` — what `pp` makes of a source text.
* `Xbsv.Preprocess.preprocessed_iff` — which source texts are preprocessed as in Verilog.
* `Xbsv.Preprocess.preprocessed_of_plain` — those without `else`, with all definitions outside of conditions, are.
-/

namespace Xbsv.Preprocess

/-! ## The source -/

/-- The character with which a directive begins. -/
def tick : Char := Char.ofNat 96

/-- The class `\s`. -/
def isSpace (c : Char) : Bool := [' ', '\t', '\n', '\r', '\x0b', '\x0c'].contains c

/-- The stack of conditions and their validity. -/
abbrev Stack := List (Bool × Bool)

/-- What a directive does to the stack, the symbols and the text behind it. The assertion fails for other words. -/
def directive (top : Bool × Bool) (rest : Stack) (defs : List (List Char)) (tok s : List Char) :
    Option (Stack × List (List Char) × List Char) :=
  let (cond, valid) := top
  if tok = "ifdef".toList then do
    let (sym, s) ← Scan.upTo isSpace s
    let newCond := decide (sym ∈ defs)
    let newValid := newCond && valid
    return ((newCond, newValid) :: top :: rest, defs, s)
  else if tok = "ifndef".toList then do
    let (sym, s) ← Scan.upTo isSpace s
    let newCond := !decide (sym ∈ defs)
    let newValid := valid && newCond
    return ((newCond, newValid) :: top :: rest, defs, s)
  else if tok = "else".toList then
    let newCond := !cond
    return ((newCond, valid) :: rest, defs, s)
  else if tok = "endif".toList then return (rest, defs, s)
  else if tok = "define".toList then do
    let (k, r) ← Scan.upTo (· == '\n') s
    let (foo, _) ← Scan.upTo isSpace s
    let sym := s.take (min k.length foo.length)
    return (top :: rest, defs ++ [sym], '\n' :: r)
  else none

/-- `pp`, with at most `fuel` calls: the pieces `prv` and the last one. An empty stack has no top. -/
def pp : ℕ → Stack → List (List Char) → List Char → Option (List (List Char))
  | 0, _, _, _ => none
  | _ + 1, [], _, _ => none
  | fuel + 1, top :: rest, defs, s =>
    match Scan.lineStart '\n' tick s with
    | none => some [s]
    | some (pre, s) => do
      let (tok, s) ← Scan.upTo isSpace s
      let (stack, defs, s) ← directive top rest defs tok s
      let prv := if top.2 && top.1 then pre else ['\n', '\n']
      let out ← pp fuel stack defs ('\n' :: s)
      return prv :: out

/-- `preprocess`. -/
def preprocess (fuel : ℕ) (source : List Char) (defs : List (List Char)) : Option (List Char) :=
  (pp fuel [(true, true)] defs source).map List.flatten

/-! ## Source texts -/

/-- What stands behind a directive on its line: nothing, or a blank and a text that is not a directive. -/
structure Tail where
  chars : List Char
  line : '\n' ∉ chars
  blank : ∀ c ∈ chars.head?, isSpace c = true
  text : chars.tail.head? ≠ some tick

/-- A name behind a directive: blanks, the name, and what stands behind it. -/
structure Name where
  gap : List Char
  name : List Char
  tail : Tail
  gap_ne : gap ≠ []
  gap_blank : ∀ c ∈ gap, isSpace c = true ∧ c ≠ '\n'
  name_ne : name ≠ []
  name_word : ∀ c ∈ name, isSpace c = false ∧ c ≠ tick

/-- The words of the directives. -/
def words : List (List Char) := ["ifdef".toList, "ifndef".toList, "else".toList, "endif".toList, "define".toList]

/-- A line without a directive. -/
structure Line where
  chars : List Char
  line : '\n' ∉ chars
  text : ∀ s, chars = tick :: s → s.takeWhile (fun c => !isSpace c) ∉ words

/-- A text with balanced directives: lines, definitions, and conditions with their bodies. -/
inductive Source
  | done
  | text (l : Line) (next : Source)
  | define (n : Name) (next : Source)
  | ifOnly (neg : Bool) (n : Name) (body : Source) (endif : Tail) (next : Source)
  | ifElse (neg : Bool) (n : Name) (body : Source) (els : Tail) (other : Source) (endif : Tail) (next : Source)

/-- The line of a directive. -/
def lineOf (word rest : List Char) : List Char := tick :: (word ++ (rest ++ ['\n']))

def Name.chars (n : Name) : List Char := n.gap ++ (n.name ++ n.tail.chars)

/-- `ifdef` or `ifndef`. -/
def ifWord (neg : Bool) : List Char := if neg then "ifndef".toList else "ifdef".toList

/-- The text. -/
def Source.print : Source → List Char
  | .done => []
  | .text l next => l.chars ++ ['\n'] ++ next.print
  | .define n next => lineOf "define".toList n.chars ++ next.print
  | .ifOnly neg n body endif next =>
    lineOf (ifWord neg) n.chars ++ (body.print ++ (lineOf "endif".toList endif.chars ++ next.print))
  | .ifElse neg n body els other endif next =>
    lineOf (ifWord neg) n.chars ++ (body.print ++ (lineOf "else".toList els.chars ++
      (other.print ++ (lineOf "endif".toList endif.chars ++ next.print))))

/-- The number of directives. -/
def Source.directives : Source → ℕ
  | .done => 0
  | .text _ next => next.directives
  | .define _ next => next.directives + 1
  | .ifOnly _ _ body _ next => next.directives + 1 + body.directives + 1
  | .ifElse _ _ body _ other _ next => next.directives + 1 + other.directives + 1 + body.directives + 1

/-- No line begins like a directive. -/
def Source.Clean : Source → Prop
  | .done => True
  | .text l next => l.chars.head? ≠ some tick ∧ next.Clean
  | .define _ next => next.Clean
  | .ifOnly _ _ body _ next => body.Clean ∧ next.Clean
  | .ifElse _ _ body _ other _ next => body.Clean ∧ other.Clean ∧ next.Clean

/-- The text does not begin with a directive, and no line after the first one begins like a directive without being
one. -/
def Source.Readable : Source → Prop
  | .done => True
  | .text _ next => next.Clean
  | _ => False

/-! ## Regions -/

/-- The text between two directives, and whether it is kept. -/
structure Region where
  kept : Bool
  text : List Char

/-- How directives are read: the state in the two branches of a condition with the given value, where a region is kept
and where a definition takes effect, the name behind a directive, and what is left of its line. -/
structure Reading (σ : Type) where
  thenState : σ → Bool → σ
  elseState : σ → Bool → σ
  keeps : σ → Bool
  defines : σ → Bool
  name : Name → List Char
  left : Name → List Char

/-- What is left of a line behind a blank. -/
def Tail.left (t : Tail) : List Char :=
  match t.chars with
  | [] => []
  | _ :: s => s ++ ['\n']

/-- **The meaning in Verilog**: a region is kept where all conditions hold, and only there does a definition take
effect. -/
def verilog : Reading Bool where
  thenState kept test := kept && test
  elseState kept test := kept && !test
  keeps := id
  defines := id
  name n := n.name
  left n := n.tail.left

/-- **The meaning that `preprocess` gives.** A region is kept that does not stand directly behind an `else` and whose
tests all succeed; an `else` around it does not count. Every definition takes effect. A name behind more than one blank
is read as the empty name, and remains in the text. -/
def counted : Reading (Bool × Bool) where
  thenState s test := (s.1 && test, false)
  elseState s test := (s.1 && test, true)
  keeps s := s.1 && !s.2
  defines _ := true
  name n :=
    match n.gap with
    | [_] => n.name
    | _ => []
  left n :=
    match n.gap with
    | [_] => n.tail.left
    | gap => gap.drop 2 ++ (n.name ++ (n.tail.chars ++ ['\n']))

/-- The regions that have ended, the text of the last one, and the symbols. -/
structure Walk where
  closed : List Region
  last : List Char
  defs : List (List Char)

namespace Reading

variable {σ : Type} (R : Reading σ)

/-- The value of a condition. -/
def test (neg : Bool) (n : Name) (defs : List (List Char)) : Bool := neg ^^ decide (R.name n ∈ defs)

/-- The way through a text, with the symbols `defs`, in a region that has begun with `text`. -/
def walk (s : σ) : Source → List (List Char) → List Char → Walk
  | .done, defs, text => ⟨[], text, defs⟩
  | .text l next, defs, text => walk s next defs (text ++ (l.chars ++ ['\n']))
  | .define n next, defs, text =>
    let w := walk s next (if R.defines s then defs ++ [R.name n] else defs) ['\n', '\n']
    ⟨⟨R.keeps s, text⟩ :: w.closed, w.last, w.defs⟩
  | .ifOnly neg n body endif next, defs, text =>
    let s₁ := R.thenState s (R.test neg n defs)
    let w₁ := walk s₁ body defs ('\n' :: R.left n)
    let w₂ := walk s next w₁.defs ('\n' :: endif.left)
    ⟨⟨R.keeps s, text⟩ :: (w₁.closed ++ ⟨R.keeps s₁, w₁.last⟩ :: w₂.closed), w₂.last, w₂.defs⟩
  | .ifElse neg n body els other endif next, defs, text =>
    let s₁ := R.thenState s (R.test neg n defs)
    let s₂ := R.elseState s (R.test neg n defs)
    let w₁ := walk s₁ body defs ('\n' :: R.left n)
    let w₂ := walk s₂ other w₁.defs ('\n' :: els.left)
    let w₃ := walk s next w₂.defs ('\n' :: endif.left)
    ⟨⟨R.keeps s, text⟩ :: (w₁.closed ++ ⟨R.keeps s₁, w₁.last⟩ :: (w₂.closed ++ ⟨R.keeps s₂, w₂.last⟩ :: w₃.closed)),
      w₃.last, w₃.defs⟩

/-- The regions of a text. -/
def regions (s : σ) (src : Source) (defs : List (List Char)) : List Region :=
  (R.walk s src defs []).closed ++ [⟨R.keeps s, (R.walk s src defs []).last⟩]

end Reading

/-- The lines of a text that are not blank. -/
def visible (s : List Char) : List (List Char) := (s.splitOn '\n').filter fun l => l.any fun c => !isSpace c

/-- What is seen of a region. -/
def Region.shown (r : Region) : List (List Char) := if r.kept then visible r.text else []

/-- **The text is preprocessed as in Verilog**: `preprocess` ends, and what it returns has one piece for each region, with
the text of the region if it is kept and with blank lines if it is not. -/
def Preprocessed (src : Source) (defs : List (List Char)) : Prop :=
  ∃ pieces, (∀ fuel, src.print.length < fuel → pp fuel [(true, true)] defs src.print = some pieces ∧
      preprocess fuel src.print defs = some pieces.flatten) ∧
    pieces.map visible = (verilog.regions true src defs).map Region.shown

/-! ## One directive -/

variable {top : Bool × Bool} {rest : Stack} {defs : List (List Char)} {text : List Char} {fuel : ℕ}

lemma isSpace_newline : isSpace '\n' = true := by decide

/-- There is no blank in the word of a directive. -/
lemma isSpace_of_words {word : List Char} (hword : word ∈ words) : ∀ c ∈ word, isSpace c = false := by
  have hall : words.all (fun word => word.all fun c => !isSpace c) = true := by decide
  intro c hc
  rw [← Bool.not_eq_true']
  exact List.all_eq_true.mp (List.all_eq_true.mp hall word hword) c hc

/-- The piece that `pp` puts for a region. -/
def Region.render (r : Region) : List Char := if r.kept then r.text else ['\n', '\n']

/-- The next directive. -/
lemma pp_step {tok s₀ s₁ s₂ : List Char} {stack : Stack} {defs' : List (List Char)} (htext : Scan.Whole '\n' tick text)
    (htok : Scan.upTo isSpace s₀ = some (tok, s₁)) (hdir : directive top rest defs tok s₁ = some (stack, defs', s₂)) :
    pp (fuel + 1) (top :: rest) defs (text ++ tick :: s₀) =
      (pp fuel stack defs' ('\n' :: s₂)).map (Region.render ⟨top.2 && top.1, text⟩ :: ·) := by
  simp only [pp, htext.lineStart_append, htok, hdir, Option.bind_eq_bind, Option.bind_some, Region.render]
  cases pp fuel stack defs' ('\n' :: s₂) with
  | none => rfl
  | some out => rfl

/-- The word of a directive, and a blank or the end of the line. -/
lemma upTo_word {word : List Char} (hword : ∀ c ∈ word, isSpace c = false) (t : Tail) (X : List Char) :
    Scan.upTo isSpace (word ++ (t.chars ++ '\n' :: X)) = some (word, t.left ++ X) := by
  obtain ⟨chars, hline, hblank, htext⟩ := t
  cases chars with
  | nil => exact Scan.upTo_append hword isSpace_newline X
  | cons c chars =>
    rw [List.cons_append, Scan.upTo_append hword (hblank c rfl)]
    show some (word, _) = some (word, (chars ++ ['\n']) ++ X)
    rw [List.append_assoc, List.singleton_append]

/-- The name behind a directive as it is read. -/
lemma upTo_name (n : Name) (X : List Char) :
    Scan.upTo isSpace (n.gap.tail ++ (n.name ++ (n.tail.chars ++ '\n' :: X))) =
      some (counted.name n, counted.left n ++ X) := by
  obtain ⟨gap, name, tail, hne, hgap, hname, hword⟩ := n
  cases gap with
  | nil => exact absurd rfl hne
  | cons g gap =>
    cases gap with
    | nil => exact upTo_word (fun c hc => (hword c hc).1) tail X
    | cons g' gap =>
      have hblank : isSpace g' = true := (hgap g' (by simp)).1
      have hnil := Scan.upTo_append (w := []) (fun _ h => absurd h List.not_mem_nil) hblank
        (gap ++ (name ++ (tail.chars ++ '\n' :: X)))
      rw [List.nil_append] at hnil
      rw [List.tail_cons, List.cons_append, hnil]
      show some ([], _) = some ([], (gap ++ (name ++ (tail.chars ++ ['\n']))) ++ X)
      simp only [List.append_assoc, List.singleton_append]

/-- The word before a name. -/
lemma upTo_gap {word : List Char} (hword : ∀ c ∈ word, isSpace c = false) (n : Name) (X : List Char) :
    Scan.upTo isSpace (word ++ (n.chars ++ ['\n'] ++ X)) =
      some (word, n.gap.tail ++ (n.name ++ (n.tail.chars ++ '\n' :: X))) := by
  obtain ⟨gap, name, tail, hne, hgap, hname, hnameword⟩ := n
  cases gap with
  | nil => exact absurd rfl hne
  | cons g gap =>
    have hblank : isSpace g = true := (hgap g List.mem_cons_self).1
    rw [Name.chars, List.append_assoc, List.append_assoc, List.cons_append, List.append_assoc, Scan.upTo_append hword hblank]
    simp only [List.tail_cons, List.singleton_append]

/-- The end of a line. -/
lemma whole_nil : Scan.Whole '\n' tick ['\n'] := Scan.whole_line (l := []) List.not_mem_nil

/-- Behind a directive a new line begins. -/
lemma whole_left (t : Tail) : Scan.Whole '\n' tick ('\n' :: t.left) := by
  obtain ⟨chars, hline, hblank, htext⟩ := t
  cases chars with
  | nil => exact whole_nil
  | cons c chars => exact whole_nil.append (fun h => hline (List.mem_cons_of_mem _ h)) htext (by decide)

/-- And behind a name, however it is read. -/
lemma whole_counted_left (n : Name) : Scan.Whole '\n' tick ('\n' :: counted.left n) := by
  obtain ⟨gap, name, tail, hne, hgap, hname, hword⟩ := n
  cases gap with
  | nil => exact absurd rfl hne
  | cons g gap =>
    cases gap with
    | nil => exact whole_left tail
    | cons g' gap =>
      have hmem : ∀ c ∈ gap, isSpace c = true ∧ c ≠ '\n' := fun c hc => hgap c (by simp [hc])
      have htick : isSpace tick = false := by decide
      have hleft : counted.left ⟨g :: g' :: gap, name, tail, hne, hgap, hname, hword⟩ =
          (gap ++ (name ++ tail.chars)) ++ ['\n'] := by
        show gap ++ (name ++ (tail.chars ++ ['\n'])) = _
        simp only [List.append_assoc]
      rw [hleft]
      refine whole_nil.append (fun h => ?_) (fun h => ?_) (by decide)
      · rcases List.mem_append.mp h with h | h
        · exact (hmem _ h).2 rfl
        · rcases List.mem_append.mp h with h | h
          · exact absurd (hword _ h).1 (by decide)
          · exact tail.line h
      · cases gap with
        | nil =>
          cases name with
          | nil => exact hname rfl
          | cons c name => exact (hword c List.mem_cons_self).2 (Option.some.inj h)
        | cons c gap =>
          have hspace := (hmem c List.mem_cons_self).1
          rw [Option.some.inj h, htick] at hspace
          cases hspace

/-- A definition takes the name as it is read. -/
lemma directive_define (n : Name) (X : List Char) :
    directive top rest defs "define".toList (n.gap.tail ++ (n.name ++ (n.tail.chars ++ '\n' :: X))) =
      some (top :: rest, defs ++ [counted.name n], '\n' :: X) := by
  have hline : Scan.upTo (· == '\n') (n.gap.tail ++ (n.name ++ (n.tail.chars ++ '\n' :: X))) =
      some (n.gap.tail ++ (n.name ++ n.tail.chars), X) := by
    have hnone : ∀ c ∈ n.gap.tail ++ (n.name ++ n.tail.chars), (c == '\n') = false := by
      intro c hc
      apply beq_false_of_ne
      rintro rfl
      rcases List.mem_append.mp hc with h | h
      · exact (n.gap_blank _ (List.mem_of_mem_tail h)).2 rfl
      · rcases List.mem_append.mp h with h | h
        · exact absurd (n.name_word _ h).1 (by decide)
        · exact n.tail.line h
    have h := Scan.upTo_append hnone (x := '\n') (by decide) X
    simpa only [List.append_assoc] using h
  have htake : (n.gap.tail ++ (n.name ++ (n.tail.chars ++ '\n' :: X))).take
      (min (n.gap.tail ++ (n.name ++ n.tail.chars)).length (counted.name n).length) = counted.name n := by
    obtain ⟨gap, name, tail, hne, hgap, hname, hword⟩ := n
    cases gap with
    | nil => exact absurd rfl hne
    | cons g gap =>
      cases gap with
      | nil =>
        show (name ++ (tail.chars ++ '\n' :: X)).take (min (name ++ tail.chars).length name.length) = name
        rw [Nat.min_eq_right (by rw [List.length_append]; omega), List.take_left]
      | cons g' gap =>
        show List.take (min _ 0) _ = []
        rw [Nat.min_zero, List.take_zero]
  have hdef : ∀ s, directive top rest defs "define".toList s =
      (Scan.upTo (· == '\n') s).bind fun (k, r) => (Scan.upTo isSpace s).bind fun (foo, _) =>
        some (top :: rest, defs ++ [s.take (min k.length foo.length)], '\n' :: r) := fun _ => rfl
  rw [hdef, hline, Option.bind_some]
  dsimp only
  rw [upTo_name, Option.bind_some, htake]

/-- `define`. -/
lemma pp_define (htext : Scan.Whole '\n' tick text) (n : Name) (X : List Char) :
    pp (fuel + 1) (top :: rest) defs (text ++ (lineOf "define".toList n.chars ++ X)) =
      (pp fuel (top :: rest) (defs ++ [counted.name n]) (['\n', '\n'] ++ X)).map
        (Region.render ⟨top.2 && top.1, text⟩ :: ·) := by
  have hshape : lineOf "define".toList n.chars ++ X = tick :: ("define".toList ++ (n.chars ++ ['\n'] ++ X)) := by
    simp only [lineOf, List.cons_append, List.append_assoc]
  rw [hshape]
  exact pp_step htext (upTo_gap (isSpace_of_words (by decide)) n X) (directive_define n X)

/-- A condition is added to the stack. -/
lemma directive_if (neg : Bool) (n : Name) (X : List Char) :
    directive top rest defs (ifWord neg) (n.gap.tail ++ (n.name ++ (n.tail.chars ++ '\n' :: X))) =
      some ((counted.test neg n defs, top.2 && counted.test neg n defs) :: top :: rest, defs, counted.left n ++ X) := by
  cases neg with
  | false =>
    have hdef : ∀ s, directive top rest defs (ifWord false) s =
        (Scan.upTo isSpace s).bind fun (sym, s) =>
          some ((decide (sym ∈ defs), decide (sym ∈ defs) && top.2) :: top :: rest, defs, s) := fun _ => rfl
    rw [hdef, upTo_name, Option.bind_some, Reading.test, Bool.false_xor, Bool.and_comm]
  | true =>
    have hdef : ∀ s, directive top rest defs (ifWord true) s =
        (Scan.upTo isSpace s).bind fun (sym, s) =>
          some ((!decide (sym ∈ defs), top.2 && !decide (sym ∈ defs)) :: top :: rest, defs, s) := fun _ => rfl
    rw [hdef, upTo_name, Option.bind_some, Reading.test, Bool.true_xor]

/-- `ifdef` and `ifndef`. -/
lemma pp_if (htext : Scan.Whole '\n' tick text) (neg : Bool) (n : Name) (X : List Char) :
    pp (fuel + 1) (top :: rest) defs (text ++ (lineOf (ifWord neg) n.chars ++ X)) =
      (pp fuel ((counted.test neg n defs, top.2 && counted.test neg n defs) :: top :: rest) defs
        ('\n' :: counted.left n ++ X)).map (Region.render ⟨top.2 && top.1, text⟩ :: ·) := by
  have hshape : lineOf (ifWord neg) n.chars ++ X = tick :: (ifWord neg ++ (n.chars ++ ['\n'] ++ X)) := by
    simp only [lineOf, List.cons_append, List.append_assoc]
  have hword : ifWord neg ∈ words := by
    cases neg <;> decide
  rw [hshape]
  exact pp_step htext (upTo_gap (isSpace_of_words hword) n X) (directive_if neg n X)

/-- `else`. -/
lemma pp_else (htext : Scan.Whole '\n' tick text) (t : Tail) (X : List Char) :
    pp (fuel + 1) (top :: rest) defs (text ++ (lineOf "else".toList t.chars ++ X)) =
      (pp fuel ((!top.1, top.2) :: rest) defs ('\n' :: t.left ++ X)).map
        (Region.render ⟨top.2 && top.1, text⟩ :: ·) := by
  have hshape : lineOf "else".toList t.chars ++ X = tick :: ("else".toList ++ (t.chars ++ '\n' :: X)) := by
    simp only [lineOf, List.cons_append, List.append_assoc, List.nil_append]
  rw [hshape]
  exact pp_step htext (upTo_word (isSpace_of_words (by decide)) t X) rfl

/-- `endif`. -/
lemma pp_endif (htext : Scan.Whole '\n' tick text) (t : Tail) (X : List Char) :
    pp (fuel + 1) (top :: rest) defs (text ++ (lineOf "endif".toList t.chars ++ X)) =
      (pp fuel rest defs ('\n' :: t.left ++ X)).map (Region.render ⟨top.2 && top.1, text⟩ :: ·) := by
  have hshape : lineOf "endif".toList t.chars ++ X = tick :: ("endif".toList ++ (t.chars ++ '\n' :: X)) := by
    simp only [lineOf, List.cons_append, List.append_assoc, List.nil_append]
  rw [hshape]
  exact pp_step htext (upTo_word (isSpace_of_words (by decide)) t X) rfl

/-! ## A text -/

/-- The top of the stack belongs to a region: the tests that hold, and whether it stands behind an `else`. -/
def Follows (top s : Bool × Bool) : Prop := top.2 = s.1 ∧ (s.1 = true → top.1 = !s.2)

lemma Follows.keeps {top s : Bool × Bool} (h : Follows top s) : (top.2 && top.1) = counted.keeps s := by
  obtain ⟨hvalid, hcond⟩ := h
  show (top.2 && top.1) = (s.1 && !s.2)
  rw [hvalid]
  cases hs : s.1 with
  | false => rfl
  | true => rw [hcond hs]

lemma Follows.thenState {top s : Bool × Bool} (h : Follows top s) (test : Bool) :
    Follows (test, top.2 && test) (counted.thenState s test) := by
  refine ⟨by rw [h.1]; rfl, fun hs => ?_⟩
  exact (Bool.and_eq_true_iff.mp hs).2

lemma Follows.elseState {top s : Bool × Bool} (h : Follows top s) (test : Bool) :
    Follows (!test, top.2 && test) (counted.elseState s test) := by
  refine ⟨by rw [h.1]; rfl, fun hs => ?_⟩
  rw [(Bool.and_eq_true_iff.mp hs).2]
  rfl

variable {s : Bool × Bool}

/-- **What `pp` makes of a text**: the pieces of its regions, and then what follows. -/
theorem pp_print (src : Source) (hclean : src.Clean) (htop : Follows top s) (htext : Scan.Whole '\n' tick text)
    (fuel : ℕ) (rest : Stack) (defs : List (List Char)) (X : List Char) :
    Scan.Whole '\n' tick (counted.walk s src defs text).last ∧
      pp (fuel + src.directives) (top :: rest) defs (text ++ (src.print ++ X)) =
        (pp fuel (top :: rest) (counted.walk s src defs text).defs ((counted.walk s src defs text).last ++ X)).map
          ((counted.walk s src defs text).closed.map Region.render ++ ·) := by
  induction src generalizing top s text fuel rest defs X with
  | done =>
    refine ⟨htext, ?_⟩
    show pp fuel _ defs (text ++ X) = (pp fuel _ defs (text ++ X)).map ([] ++ ·)
    simp only [List.nil_append, Option.map_id']
  | text l next ih =>
    obtain ⟨hhead, hnext⟩ := hclean
    have hline := htext.append l.line hhead (by decide)
    have hwalk := ih hnext htop hline fuel rest defs X
    simpa only [Source.print, Source.directives, Reading.walk, List.append_assoc] using hwalk
  | define n next ih =>
    have hblank : Scan.Whole '\n' tick ['\n', '\n'] := whole_nil.append (l := []) List.not_mem_nil nofun (by decide)
    obtain ⟨hlast, heq⟩ := ih hclean htop hblank fuel rest (defs ++ [counted.name n]) X
    refine ⟨hlast, ?_⟩
    rw [Source.print, Source.directives, List.append_assoc, ← Nat.add_assoc, pp_define htext, heq, Option.map_map,
      htop.keeps]
    rfl
  | ifOnly neg n body endif next ihBody ihNext =>
    obtain ⟨hbody, hnext⟩ := hclean
    obtain ⟨hlast₁, heq₁⟩ := ihBody hbody (htop.thenState (counted.test neg n defs)) (whole_counted_left n)
      (fuel + next.directives + 1) (top :: rest) defs (lineOf "endif".toList endif.chars ++ (next.print ++ X))
    obtain ⟨hlast₂, heq₂⟩ := ihNext hnext htop (whole_left endif) fuel rest
      (counted.walk (counted.thenState s (counted.test neg n defs)) body defs ('\n' :: counted.left n)).defs X
    refine ⟨hlast₂, ?_⟩
    have hfuel : fuel + (next.directives + 1 + body.directives + 1) =
        fuel + next.directives + 1 + body.directives + 1 := by omega
    simp only [Source.print, Source.directives, List.append_assoc, hfuel]
    rw [pp_if htext, heq₁, pp_endif hlast₁, heq₂, htop.keeps, (htop.thenState _).keeps]
    simp only [Option.map_map, Reading.walk, List.map_cons, List.map_append]
    congr 1
    funext out
    simp only [Function.comp_apply, List.cons_append, List.append_assoc]
  | ifElse neg n body els other endif next ihBody ihOther ihNext =>
    obtain ⟨hbody, hother, hnext⟩ := hclean
    have hthen := htop.thenState (counted.test neg n defs)
    have helse := htop.elseState (counted.test neg n defs)
    obtain ⟨hlast₁, heq₁⟩ := ihBody hbody hthen (whole_counted_left n)
      (fuel + next.directives + 1 + other.directives + 1) (top :: rest) defs
      (lineOf "else".toList els.chars ++ (other.print ++ (lineOf "endif".toList endif.chars ++ (next.print ++ X))))
    obtain ⟨hlast₂, heq₂⟩ := ihOther hother helse (whole_left els) (fuel + next.directives + 1) (top :: rest)
      (counted.walk (counted.thenState s (counted.test neg n defs)) body defs ('\n' :: counted.left n)).defs
      (lineOf "endif".toList endif.chars ++ (next.print ++ X))
    obtain ⟨hlast₃, heq₃⟩ := ihNext hnext htop (whole_left endif) fuel rest
      (counted.walk (counted.elseState s (counted.test neg n defs)) other
        (counted.walk (counted.thenState s (counted.test neg n defs)) body defs ('\n' :: counted.left n)).defs
        ('\n' :: els.left)).defs X
    refine ⟨hlast₃, ?_⟩
    have hfuel : fuel + (next.directives + 1 + other.directives + 1 + body.directives + 1) =
        fuel + next.directives + 1 + other.directives + 1 + body.directives + 1 := by omega
    simp only [Source.print, Source.directives, List.append_assoc, hfuel]
    rw [pp_if htext, heq₁, pp_else hlast₁, heq₂, pp_endif hlast₂, heq₃, htop.keeps, hthen.keeps, helse.keeps]
    simp only [Option.map_map, Reading.walk, List.map_cons, List.map_append]
    congr 1
    funext out
    simp only [Function.comp_apply, List.cons_append, List.append_assoc]

/-! ## Other lines -/

/-- The assertion fails for a word that is not one of a directive. -/
lemma directive_eq_none {tok : List Char} (h : tok ∉ words) (s : List Char) : directive top rest defs tok s = none := by
  simp only [words, List.mem_cons, List.not_mem_nil, or_false, not_or] at h
  obtain ⟨h₁, h₂, h₃, h₄, h₅⟩ := h
  rw [directive, if_neg h₁, if_neg h₂, if_neg h₃, if_neg h₄, if_neg h₅]

/-- A line that begins like a directive stops `pp`. -/
lemma pp_line_eq_none (htext : Scan.Whole '\n' tick text) (l : Line) (hhead : l.chars.head? = some tick) (fuel : ℕ)
    (X : List Char) : pp fuel (top :: rest) defs (text ++ (l.chars ++ '\n' :: X)) = none := by
  obtain ⟨s₀, hchars⟩ : ∃ s₀, l.chars = tick :: s₀ := by
    cases hl : l.chars with
    | nil =>
      rw [hl] at hhead
      cases hhead
    | cons c s₀ =>
      rw [hl] at hhead
      exact ⟨s₀, by rw [Option.some.inj hhead]⟩
  obtain ⟨r, hword⟩ := Scan.exists_upTo isSpace_newline s₀ X
  cases fuel with
  | zero => rfl
  | succ fuel =>
    rw [hchars, List.cons_append]
    simp only [pp, htext.lineStart_append, hword, directive_eq_none (l.text s₀ hchars), Option.bind_eq_bind,
      Option.bind_some, Option.bind_none]

/-- `pp` does not get past a line that begins like a directive. -/
theorem pp_print_eq_none (src : Source) (hclean : ¬src.Clean) (htop : Follows top s)
    (htext : Scan.Whole '\n' tick text) (fuel : ℕ) (rest : Stack) (defs : List (List Char)) (X : List Char) :
    pp (fuel + src.directives) (top :: rest) defs (text ++ (src.print ++ X)) = none := by
  induction src generalizing top s text fuel rest defs X with
  | done => exact absurd trivial hclean
  | text l next ih =>
    by_cases hhead : l.chars.head? = some tick
    · have hnone : pp _ (top :: rest) defs _ = none :=
        pp_line_eq_none htext l hhead (fuel + next.directives) (next.print ++ X)
      simpa only [Source.print, Source.directives, List.append_assoc, List.cons_append, List.nil_append] using hnone
    · have hnone := ih (fun h => hclean ⟨hhead, h⟩) htop (htext.append l.line hhead (by decide)) fuel rest defs X
      simpa only [Source.print, Source.directives, List.append_assoc] using hnone
  | define n next ih =>
    have hblank : Scan.Whole '\n' tick ['\n', '\n'] := whole_nil.append (l := []) List.not_mem_nil nofun (by decide)
    rw [Source.print, Source.directives, List.append_assoc, ← Nat.add_assoc, pp_define htext, ih hclean htop hblank]
    rfl
  | ifOnly neg n body endif next ihBody ihNext =>
    have hthen := htop.thenState (counted.test neg n defs)
    have hfuel : fuel + (next.directives + 1 + body.directives + 1) =
        fuel + next.directives + 1 + body.directives + 1 := by omega
    simp only [Source.print, Source.directives, List.append_assoc, hfuel]
    by_cases hbody : body.Clean
    · obtain ⟨hlast₁, heq₁⟩ := pp_print body hbody hthen (whole_counted_left n) (fuel + next.directives + 1)
        (top :: rest) defs (lineOf "endif".toList endif.chars ++ (next.print ++ X))
      rw [pp_if htext, heq₁, pp_endif hlast₁, ihNext (fun h => hclean ⟨hbody, h⟩) htop (whole_left endif)]
      rfl
    · rw [pp_if htext, ihBody hbody hthen (whole_counted_left n)]
      rfl
  | ifElse neg n body els other endif next ihBody ihOther ihNext =>
    have hthen := htop.thenState (counted.test neg n defs)
    have helse := htop.elseState (counted.test neg n defs)
    have hfuel : fuel + (next.directives + 1 + other.directives + 1 + body.directives + 1) =
        fuel + next.directives + 1 + other.directives + 1 + body.directives + 1 := by omega
    simp only [Source.print, Source.directives, List.append_assoc, hfuel]
    by_cases hbody : body.Clean
    · obtain ⟨hlast₁, heq₁⟩ := pp_print body hbody hthen (whole_counted_left n)
        (fuel + next.directives + 1 + other.directives + 1) (top :: rest) defs
        (lineOf "else".toList els.chars ++ (other.print ++ (lineOf "endif".toList endif.chars ++ (next.print ++ X))))
      by_cases hother : other.Clean
      · obtain ⟨hlast₂, heq₂⟩ := pp_print other hother helse (whole_left els) (fuel + next.directives + 1) (top :: rest)
          (counted.walk (counted.thenState s (counted.test neg n defs)) body defs ('\n' :: counted.left n)).defs
          (lineOf "endif".toList endif.chars ++ (next.print ++ X))
        rw [pp_if htext, heq₁, pp_else hlast₁, heq₂, pp_endif hlast₂,
          ihNext (fun h => hclean ⟨hbody, hother, h⟩) htop (whole_left endif)]
        rfl
      · rw [pp_if htext, heq₁, pp_else hlast₁, ihOther hother helse (whole_left els)]
        rfl
    · rw [pp_if htext, ihBody hbody hthen (whole_counted_left n)]
      rfl

/-! ## The whole text -/

/-- Every directive ends a region. -/
lemma Reading.length_closed {σ : Type} (R : Reading σ) (s : σ) (src : Source) (defs : List (List Char))
    (text : List Char) : (R.walk s src defs text).closed.length = src.directives := by
  induction src generalizing s defs text with
  | done => rfl
  | text l next ih => exact ih s defs _
  | define n next ih => rw [Reading.walk, Source.directives, List.length_cons, ih]
  | ifOnly neg n body endif next ihBody ihNext =>
    rw [Reading.walk, Source.directives, List.length_cons, List.length_append, List.length_cons, ihBody, ihNext]
    omega
  | ifElse neg n body els other endif next ihBody ihOther ihNext =>
    rw [Reading.walk, Source.directives, List.length_cons, List.length_append, List.length_cons, List.length_append,
      List.length_cons, ihBody, ihOther, ihNext]
    omega

/-- Every directive has a line. -/
lemma directives_le (src : Source) : src.directives ≤ src.print.length := by
  induction src with
  | done => exact Nat.le_refl 0
  | text l next ih =>
    rw [Source.print, Source.directives, List.length_append]
    omega
  | define n next ih =>
    rw [Source.print, Source.directives, List.length_append, lineOf, List.length_cons]
    omega
  | ifOnly neg n body endif next ihBody ihNext =>
    simp only [Source.print, Source.directives, List.length_append, lineOf, List.length_cons]
    omega
  | ifElse neg n body els other endif next ihBody ihOther ihNext =>
    simp only [Source.print, Source.directives, List.length_append, lineOf, List.length_cons]
    omega

lemma follows_base : Follows (true, true) (true, false) := ⟨rfl, fun _ => rfl⟩

/-- The last piece. -/
lemma pp_last (htext : Scan.Whole '\n' tick text) : pp (fuel + 1) (top :: rest) defs (text ++ []) = some [text] := by
  simp only [pp, List.append_nil, htext.none]

/-- **The pieces of a readable text** are its regions. -/
theorem pp_of_readable (src : Source) (h : src.Readable) (defs : List (List Char)) (fuel : ℕ)
    (hfuel : src.print.length < fuel) :
    pp fuel [(true, true)] defs src.print = some ((counted.regions (true, false) src defs).map Region.render) := by
  obtain ⟨k, rfl⟩ : ∃ k, fuel = k + 1 + src.directives := ⟨fuel - 1 - src.directives, by
    have hle := directives_le src
    omega⟩
  cases src with
  | done => rfl
  | text l next =>
    obtain ⟨hlast, heq⟩ := pp_print next h follows_base (Scan.whole_line l.line) (k + 1) [] defs []
    rw [pp_last hlast] at heq
    rw [Source.print, Source.directives, ← List.append_nil next.print, heq, Reading.regions, List.map_append]
    rfl
  | define n next => exact absurd h id
  | ifOnly neg n body endif next => exact absurd h id
  | ifElse neg n body els other endif next => exact absurd h id

/-- A directive in the first line is read as text. -/
lemma whole_lineOf (word : List Char) (hword : '\n' ∉ word) (n : Name) :
    Scan.Whole '\n' tick (lineOf word n.chars) := by
  have hline : lineOf word n.chars = (tick :: (word ++ n.chars)) ++ ['\n'] := by
    rw [lineOf, List.cons_append, List.append_assoc]
  rw [hline]
  apply Scan.whole_line
  intro h
  rcases List.mem_cons.mp h with h | h
  · exact absurd h (by decide)
  · rcases List.mem_append.mp h with h | h
    · exact hword h
    · rcases List.mem_append.mp h with h | h
      · exact (n.gap_blank _ h).2 rfl
      · rcases List.mem_append.mp h with h | h
        · exact absurd (n.name_word _ h).1 (by decide)
        · exact n.tail.line h

lemma newline_not_mem_ifWord (neg : Bool) : '\n' ∉ ifWord neg := by
  cases neg <;> decide

/-- The last `endif` leaves an empty stack. -/
lemma pp_nil (fuel : ℕ) (defs : List (List Char)) (s : List Char) : pp fuel [] defs s = none := by
  cases fuel with
  | zero => rfl
  | succ fuel => rfl

/-- **Only readable texts are preprocessed as in Verilog.** -/
theorem readable_of_preprocessed (src : Source) (defs : List (List Char)) (h : Preprocessed src defs) :
    src.Readable := by
  obtain ⟨pieces, hrun, hmap⟩ := h
  obtain ⟨N, hN⟩ : ∃ N, ∀ d, pp (N + 1 + d) [(true, true)] defs src.print = some pieces :=
    ⟨src.print.length, fun d => (hrun _ (by omega)).1⟩
  by_contra hreadable
  cases src with
  | done => exact hreadable trivial
  | text l next =>
    have hnone := pp_print_eq_none next hreadable follows_base (Scan.whole_line l.line) (N + 1) [] defs []
    have hsome := hN next.directives
    rw [Source.print, ← List.append_nil next.print, hnone] at hsome
    cases hsome
  | define n next =>
    have hfirst := whole_lineOf "define".toList (by decide) n
    have hsome := hN next.directives
    rw [Source.print, ← List.append_nil next.print] at hsome
    by_cases hclean : next.Clean
    · -- One region is missing.
      obtain ⟨hlast, heq⟩ := pp_print next hclean follows_base hfirst (N + 1) [] defs []
      rw [heq, pp_last hlast] at hsome
      have hlength := congrArg List.length hmap
      rw [← Option.some.inj hsome, Reading.regions] at hlength
      simp only [List.length_map, List.length_append, Reading.length_closed, List.length_singleton,
        Source.directives] at hlength
      omega
    · rw [pp_print_eq_none next hclean follows_base hfirst] at hsome
      cases hsome
  | ifOnly neg n body endif next =>
    have hfirst := whole_lineOf _ (newline_not_mem_ifWord neg) n
    have hsome := hN body.directives
    rw [Source.print] at hsome
    by_cases hclean : body.Clean
    · obtain ⟨hlast, heq⟩ := pp_print body hclean follows_base hfirst (N + 1) [] defs
        (lineOf "endif".toList endif.chars ++ next.print)
      rw [heq, pp_endif hlast, pp_nil] at hsome
      cases hsome
    · rw [pp_print_eq_none body hclean follows_base hfirst] at hsome
      cases hsome
  | ifElse neg n body els other endif next =>
    have hfirst := whole_lineOf _ (newline_not_mem_ifWord neg) n
    have helse : Follows (false, true) (true, true) := ⟨rfl, fun _ => rfl⟩
    have hsome := hN (other.directives + 1 + body.directives)
    have hfuel : N + 1 + (other.directives + 1 + body.directives) = N + 1 + other.directives + 1 + body.directives := by
      omega
    rw [Source.print, hfuel] at hsome
    by_cases hbody : body.Clean
    · obtain ⟨hlast, heq⟩ := pp_print body hbody follows_base hfirst (N + 1 + other.directives + 1) [] defs
        (lineOf "else".toList els.chars ++ (other.print ++ (lineOf "endif".toList endif.chars ++ next.print)))
      rw [heq, pp_else hlast] at hsome
      by_cases hother : other.Clean
      · obtain ⟨hlast', heq'⟩ := pp_print other hother helse (whole_left els) (N + 1) []
          (counted.walk (true, false) body defs (lineOf (ifWord neg) n.chars)).defs
          (lineOf "endif".toList endif.chars ++ next.print)
        rw [show (!true, true) = (false, true) from rfl, heq', pp_endif hlast', pp_nil] at hsome
        cases hsome
      · rw [show (!true, true) = (false, true) from rfl, pp_print_eq_none other hother helse (whole_left els)] at hsome
        cases hsome
    · rw [pp_print_eq_none body hbody follows_base hfirst] at hsome
      cases hsome

/-- What is seen of a piece. -/
lemma visible_render (r : Region) : visible r.render = r.shown := by
  have hblank : visible ['\n', '\n'] = [] := by decide
  rw [Region.render, Region.shown]
  cases r.kept with
  | true => rfl
  | false => exact hblank

/-- A readable text is preprocessed as in Verilog just when both meanings show the same of every region. -/
lemma preprocessed_iff_of_readable (src : Source) (h : src.Readable) (defs : List (List Char)) :
    Preprocessed src defs ↔
      (counted.regions (true, false) src defs).map Region.shown = (verilog.regions true src defs).map Region.shown := by
  have hshown : ((counted.regions (true, false) src defs).map Region.render).map visible =
      (counted.regions (true, false) src defs).map Region.shown := by
    rw [List.map_map]
    apply List.map_congr_left
    intro r _
    exact visible_render r
  constructor
  · rintro ⟨pieces, hrun, hmap⟩
    have hpieces := (hrun _ (Nat.lt_succ_self _)).1
    rw [pp_of_readable src h defs _ (Nat.lt_succ_self _)] at hpieces
    rw [← hmap, ← Option.some.inj hpieces, hshown]
  · intro heq
    refine ⟨_, fun fuel hfuel => ⟨pp_of_readable src h defs fuel hfuel, ?_⟩, hshown.trans heq⟩
    rw [preprocess, pp_of_readable src h defs fuel hfuel, Option.map_some]

/-- A region behind an `else`, with a condition that does not hold. -/
def withElse : Source :=
  .text ⟨['a'], by decide, fun _ h => by cases h⟩
    (.ifElse false ⟨[' '], ['A'], ⟨[], by decide, by simp, by decide⟩, by decide,
        fun c hc => by rw [List.mem_singleton.mp hc]; decide, by decide,
        fun c hc => by rw [List.mem_singleton.mp hc]; decide⟩ .done
      ⟨[], by decide, by simp, by decide⟩ (.text ⟨['b'], by decide, fun _ h => by cases h⟩ .done)
      ⟨[], by decide, by simp, by decide⟩ .done)

/-- No `else`, definitions outside of all conditions only, and one blank before each name. -/
def Source.Plain : Bool → Source → Prop
  | _, .done => True
  | inside, .text _ next => next.Plain inside
  | inside, .define n next => inside = false ∧ n.gap.length = 1 ∧ next.Plain inside
  | inside, .ifOnly _ n body _ next => n.gap.length = 1 ∧ body.Plain true ∧ next.Plain inside
  | _, .ifElse .. => False

/-- A name behind one blank. -/
lemma counted_of_gap {n : Name} (h : n.gap.length = 1) : counted.name n = n.name ∧ counted.left n = n.tail.left := by
  obtain ⟨gap, name, tail, hne, hgap, hname, hword⟩ := n
  obtain ⟨g, rfl⟩ := List.length_eq_one_iff.mp h
  exact ⟨rfl, rfl⟩

/-- In a plain text both meanings are the same. -/
lemma walk_eq_of_plain {inside k : Bool} (src : Source) (h : src.Plain inside) (hk : inside = false → k = true)
    (defs : List (List Char)) (text : List Char) :
    counted.walk (k, false) src defs text = verilog.walk k src defs text := by
  induction src generalizing inside k defs text with
  | done => rfl
  | text l next ih => exact ih h hk defs _
  | define n next ih =>
    obtain ⟨houtside, hgap, hnext⟩ := h
    obtain ⟨hname, -⟩ := counted_of_gap hgap
    have hkept := hk houtside
    subst hkept
    simp only [Reading.walk, ih hnext fun _ => rfl, hname]
    rfl
  | ifOnly neg n body endif next ihBody ihNext =>
    obtain ⟨hgap, hbody, hnext⟩ := h
    obtain ⟨hname, hleft⟩ := counted_of_gap hgap
    have htest : counted.test neg n defs = verilog.test neg n defs := by
      rw [Reading.test, hname]
      rfl
    have hbodies : ∀ test, counted.walk (counted.thenState (k, false) test) body defs ('\n' :: counted.left n) =
        verilog.walk (verilog.thenState k test) body defs ('\n' :: verilog.left n) := by
      intro test
      rw [hleft]
      exact ihBody (k := k && test) hbody nofun defs _
    have hkeeps : ∀ test, counted.keeps (counted.thenState (k, false) test) = verilog.keeps (verilog.thenState k test) :=
      fun test => Bool.and_true _
    have hkeep : counted.keeps (k, false) = verilog.keeps k := Bool.and_true k
    simp only [Reading.walk, htest, hbodies, hkeeps, hkeep, ihNext hnext hk]
  | ifElse neg n body els other endif next => exact absurd h id

/-- **Plain texts are preprocessed as in Verilog.** -/
theorem preprocessed_of_plain (src : Source) (hreadable : src.Readable) (hplain : src.Plain false)
    (defs : List (List Char)) : Preprocessed src defs := by
  apply (preprocessed_iff_of_readable src hreadable defs).mpr
  rw [Reading.regions, Reading.regions, walk_eq_of_plain src hplain fun _ => rfl]
  rfl

end Xbsv.Preprocess
