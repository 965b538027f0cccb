import Mathlib.Data.Nat.Notation
import Mathlib.Algebra.BigOperators.Group.List.Basic
import Mathlib.Data.List.Nodup
import Mathlib.Tactic.Common

set_option relaxedAutoImplicit false
set_option autoImplicit false

/-!
# Types of parameters

The types that the interface compiler knows, and what its two back ends make of them: the width that the
C++ generator gives to a field and the size that the Bluespec generator computes. A type that is defined
elsewhere stands with its definition.

## Main definitions

* `Xbsv.BsvType` — the types.
* `Xbsv.BsvType.bitWidth` — the width in the C++ generator.
* `Xbsv.BsvType.numBitsBSV` — the size in the Bluespec generator.
* `Xbsv.collectMembers` — the fields of a parameter, with the members of structs in place of the structs.

## Main results

* `Xbsv.nodup_collectParams` — no two fields have the same name.
-/

namespace Xbsv

mutual

/-- A type of a parameter or of a member of a struct. -/
inductive BsvType where
  /-- `Bit#(n)`. -/
  | bit (n : ℕ)
  /-- `Int#(n)`. -/
  | int (n : ℕ)
  /-- `UInt#(n)`. -/
  | uint (n : ℕ)
  /-- `Float`. -/
  | float
  /-- `Vector#(n,t)`. -/
  | vector (n : ℕ) (t : BsvType)
  /-- An enumeration. -/
  | enum (name : String) (elements : List String)
  /-- A struct. -/
  | struct (name : String) (elements : StructMembers)

/-- The members of a struct. -/
inductive StructMembers where
  | nil
  | cons (name : String) (type : BsvType) (rest : StructMembers)

end

/-- A parameter of a method. -/
structure Param where
  name : String
  type : BsvType

/-- The name of a field: the parameter, and the members of structs that lead to it. -/
abbrev Name := List String

/-- The types that a field can have in C. -/
inductive CName where
  /-- `uint32_t`. -/
  | uint32
  /-- `uint64_t`. -/
  | uint64
  /-- `std::bitset<n>`. -/
  | bitset (n : ℕ)
  /-- `int`. -/
  | int
  /-- `unsigned int`. -/
  | unsignedInt
  /-- `float`. -/
  | float
  /-- `bsvvector<n,t>`. -/
  | bsvvector (n : ℕ) (t : CName)
  /-- An enumeration or a struct. -/
  | named (name : String)
  deriving DecidableEq

/-- What the generators compute with logarithms, in floating point. -/
class MathLog where
  /-- `int(math.ceil(math.log(n)))`. -/
  ceilLog : ℕ → ℕ
  /-- `int(math.ceil(math.log(n,2)))`. -/
  ceilLog2 : ℕ → ℕ

namespace BsvType

/-- `cName`: the type of a field in C. The generator stops at other sizes of `Int` and `UInt` than 32. -/
def cName : BsvType → Option CName
  | bit n => some (if n ≤ 32 then .uint32 else if n ≤ 64 then .uint64 else .bitset n)
  | int n => if n = 32 then some .int else none
  | uint n => if n = 32 then some .unsignedInt else none
  | float => some .float
  | vector n t => (cName t).map (.bsvvector n)
  | enum name _ => some (.named name)
  | struct name _ => some (.named name)

/-- `isBitField`: a member of this type is declared with its width. -/
def isBitField : BsvType → Bool
  | bit _ => true
  | int _ => true
  | uint _ => true
  | _ => false

variable [MathLog]

/-- `bitWidth`: the width of a field in the C++ generator. -/
def bitWidth : BsvType → ℕ
  | bit n => n
  | int n => n
  | uint n => n
  | float => 32
  | enum _ elements => MathLog.ceilLog elements.length
  | vector _ _ => 0
  | struct _ _ => 0

end BsvType

variable [MathLog]

mutual

/-- `numBitsBSV`: the size of a type in the Bluespec generator. -/
def BsvType.numBitsBSV : BsvType → ℕ
  | .bit n => n
  | .vector n t => n * t.numBitsBSV
  | .int n => n
  | .uint n => n
  | .float => 32
  | .struct _ elements => elements.numBitsBSV
  | .enum _ elements => MathLog.ceilLog2 elements.length

/-- The sizes of the members of a struct. -/
def StructMembers.numBitsBSV : StructMembers → ℕ
  | .nil => 0
  | .cons _ type rest => type.numBitsBSV + rest.numBitsBSV

end

omit [MathLog]

mutual

/-- `collectMembers`: the fields of a member, by name. -/
def collectMembers (scope : Name) (name : String) : BsvType → List (Name × BsvType)
  | .struct _ elements => collectElements (scope ++ [name]) elements
  | .bit n => [(scope ++ [name], .bit n)]
  | .int n => [(scope ++ [name], .int n)]
  | .uint n => [(scope ++ [name], .uint n)]
  | .float => [(scope ++ [name], .float)]
  | .vector n t => [(scope ++ [name], .vector n t)]
  | .enum e elements => [(scope ++ [name], .enum e elements)]

/-- The fields of the members of a struct. -/
def collectElements (scope : Name) : StructMembers → List (Name × BsvType)
  | .nil => []
  | .cons name type rest => collectMembers scope name type ++ collectElements scope rest

end

/-- The fields of all parameters: `argAtoms`, before it is reversed. -/
def collectParams (params : List Param) : List (Name × BsvType) :=
  params.flatMap fun p => collectMembers [] p.name p.type

/-! ## Names -/

/-- The names of the members of a struct. -/
def StructMembers.names : StructMembers → List String
  | .nil => []
  | .cons name _ rest => name :: rest.names

mutual

/-- The members of every struct have different names. -/
def BsvType.Distinct : BsvType → Prop
  | .struct _ elements => elements.names.Nodup ∧ elements.Distinct
  | _ => True

/-- The types of the members have members of different names. -/
def StructMembers.Distinct : StructMembers → Prop
  | .nil => True
  | .cons _ type rest => type.Distinct ∧ rest.Distinct

end

/-- Every field of a member is inside it. -/
def Below (scope : Name) (name : String) (n : Name) : Prop := scope ++ [name] <+: n

/-- Members of different names have different fields. -/
lemma Below.name_eq {scope : Name} {a b : String} {n : Name} (ha : Below scope a n) (hb : Below scope b n) :
    a = b := by
  obtain ⟨ta, rfl⟩ := ha
  obtain ⟨tb, hb⟩ := hb
  rw [List.append_assoc, List.append_assoc, List.append_cancel_left_eq] at hb
  exact (List.cons.inj hb).1.symm

mutual

/-- The fields of a member are inside it. -/
lemma below_collectMembers {scope : Name} {name : String} :
    ∀ {t : BsvType} {a : Name × BsvType}, a ∈ collectMembers scope name t → Below scope name a.1
  | .struct _ elements, a, ha => by
    rw [collectMembers] at ha
    exact prefix_collectElements ha
  | .bit _, a, ha | .int _, a, ha | .uint _, a, ha | .float, a, ha | .vector _ _, a, ha
  | .enum _ _, a, ha => by
    rw [collectMembers, List.mem_singleton] at ha
    rw [ha]
    exact List.prefix_refl _

/-- The fields of the members of a struct are inside the struct. -/
lemma prefix_collectElements {scope : Name} :
    ∀ {ms : StructMembers} {a : Name × BsvType}, a ∈ collectElements scope ms → scope <+: a.1
  | .nil, a, ha => by cases ha
  | .cons name type rest, a, ha => by
    rw [collectElements, List.mem_append] at ha
    rcases ha with ha | ha
    · exact (List.prefix_append scope [name]).trans (below_collectMembers ha)
    · exact prefix_collectElements ha

end

/-- A field of a struct is inside one of its members. -/
lemma exists_below {scope : Name} :
    ∀ {ms : StructMembers} {a : Name × BsvType}, a ∈ collectElements scope ms →
      ∃ name ∈ ms.names, Below scope name a.1
  | .nil, a, ha => by cases ha
  | .cons name type rest, a, ha => by
    rw [collectElements, List.mem_append] at ha
    rcases ha with ha | ha
    · exact ⟨name, List.mem_cons_self, below_collectMembers ha⟩
    · obtain ⟨other, hmem, hbelow⟩ := exists_below ha
      exact ⟨other, List.mem_cons_of_mem _ hmem, hbelow⟩

mutual

/-- The fields of a member have different names. -/
lemma nodup_collectMembers {scope : Name} {name : String} :
    ∀ {t : BsvType}, t.Distinct → ((collectMembers scope name t).map Prod.fst).Nodup
  | .struct _ elements, ht => by
    rw [BsvType.Distinct] at ht
    rw [collectMembers]
    exact nodup_collectElements ht.1 ht.2
  | .bit _, _ | .int _, _ | .uint _, _ | .float, _ | .vector _ _, _ | .enum _ _, _ => by
    rw [collectMembers]
    exact List.nodup_singleton _

/-- The fields of a struct have different names. -/
lemma nodup_collectElements {scope : Name} :
    ∀ {ms : StructMembers}, ms.names.Nodup → ms.Distinct →
      ((collectElements scope ms).map Prod.fst).Nodup
  | .nil, _, _ => List.nodup_nil
  | .cons name type rest, hnames, ht => by
    rw [StructMembers.names, List.nodup_cons] at hnames
    rw [StructMembers.Distinct] at ht
    rw [collectElements, List.map_append, List.nodup_append]
    refine ⟨nodup_collectMembers ht.1, nodup_collectElements hnames.2 ht.2, ?_⟩
    intro n hn n' hn' heq
    subst heq
    obtain ⟨a, ha, rfl⟩ := List.mem_map.mp hn
    obtain ⟨a', ha', heq⟩ := List.mem_map.mp hn'
    obtain ⟨other, hmem, hbelow⟩ := exists_below ha'
    rw [heq] at hbelow
    have hsame := (below_collectMembers ha).name_eq hbelow
    rw [hsame] at hnames
    exact hnames.1 hmem

end

/-- **No two fields have the same name** if no two parameters have, and no two members of a struct. -/
lemma nodup_collectParams {params : List Param} (hnames : (params.map Param.name).Nodup)
    (ht : ∀ p ∈ params, p.type.Distinct) : ((collectParams params).map Prod.fst).Nodup := by
  induction params with
  | nil => exact List.nodup_nil
  | cons p params ih =>
    rw [List.map_cons, List.nodup_cons] at hnames
    rw [collectParams, List.flatMap_cons, List.map_append, List.nodup_append]
    refine ⟨nodup_collectMembers (ht p List.mem_cons_self),
      ih hnames.2 (fun q hq => ht q (List.mem_cons_of_mem _ hq)), ?_⟩
    intro n hn n' hn' heq
    subst heq
    obtain ⟨a, ha, rfl⟩ := List.mem_map.mp hn
    obtain ⟨a', ha', heq⟩ := List.mem_map.mp hn'
    obtain ⟨q, hq, hmem⟩ := List.mem_flatMap.mp ha'
    have hbelow := below_collectMembers hmem
    rw [heq] at hbelow
    have hsame := (below_collectMembers ha).name_eq hbelow
    rw [hsame] at hnames
    exact hnames.1 (List.mem_map_of_mem hq)

end Xbsv
