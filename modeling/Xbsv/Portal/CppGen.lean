import Xbsv.Bits.CInt
import Xbsv.Portal.Types

set_option relaxedAutoImplicit false
set_option autoImplicit false

/-!
# The C++ generator

For every method the generator cuts the fields of a message into words of 32 bits and emits C code: a proxy
writes the words of a message, and a wrapper reads them and assigns the fields. The words are laid out from
the least significant end, so the fields are taken from the last one on, and the code for the words comes
out in the opposite order.

## Main definitions

* `Xbsv.accumWords` — the words of a message, as pieces of fields.
* `Xbsv.generateMarshall`, `Xbsv.generateDemarshall` — the code for a word.
* `Xbsv.Stmt.exec` — what the code does.
* `Xbsv.proxyWords` — the words that a proxy writes.
* `Xbsv.demarshall` — the fields after a wrapper has read a message.
-/

namespace Xbsv

variable [MathLog]

/-! ## Words -/

/-- `assignOp`: a piece is assigned or added. -/
inductive AssignOp where
  /-- `=`. -/
  | set
  /-- `|=`. -/
  | or
  deriving DecidableEq

/-- `paramInfo`: the bits of a field from `shifted` up to `width`. -/
structure ParamInfo where
  name : Name
  width : ℕ
  shifted : ℕ
  datatype : BsvType
  assignOp : AssignOp

/-- The bits in a bin. -/
def binWidth (s : List ParamInfo) : ℕ := (s.map fun x => x.width - x.shifted).sum

/-- `accumWords`, with a bound on the number of calls. -/
def accumWordsAux : ℕ → List ParamInfo → ℕ → List (Name × BsvType) → List (List ParamInfo)
  | 0, _, _, _ => []
  | _ + 1, s, _, [] => if s.isEmpty then [] else [s]
  | fuel + 1, s, pro, a :: atoms =>
    let w := binWidth s
    let aw := a.2.bitWidth
    if aw - pro + w = 32 then
      (s ++ [⟨a.1, aw, pro, a.2, .set⟩]) :: accumWordsAux fuel [] 0 atoms
    else if aw - pro + w < 32 then
      accumWordsAux fuel (s ++ [⟨a.1, aw, pro, a.2, .set⟩]) 0 atoms
    else
      (s ++ [⟨a.1, pro + (32 - w), pro, a.2, .or⟩]) :: accumWordsAux fuel [] (pro + (32 - w)) (a :: atoms)

/-- The bits of fields. -/
def atomsWidth (atoms : List (Name × BsvType)) : ℕ := (atoms.map fun a => a.2.bitWidth).sum

/-- `accumWords`: the words of a message, the least significant first. `s` is the bin that is being filled,
and `pro` bits of the first field have been taken. Every call takes bits or a field. -/
def accumWords (s : List ParamInfo) (pro : ℕ) (atoms : List (Name × BsvType)) : List (List ParamInfo) :=
  accumWordsAux (atomsWidth atoms + atoms.length + 1) s pro atoms

/-- `argWords`. -/
def argWords (params : List Param) : List (List ParamInfo) := accumWords [] 0 (collectParams params).reverse

/-! ## Code -/

/-- Expressions. -/
inductive Expr where
  /-- A field. -/
  | field (name : Name) (datatype : BsvType)
  /-- `tmp`. -/
  | tmp
  /-- `(e>>n)`. -/
  | shr (e : Expr) (n : ℕ)
  /-- `(e<<n)`. -/
  | shl (e : Expr) (n : ℕ)
  /-- `((e)&0x...ul)`. -/
  | mask (e : Expr) (n : ℕ)
  /-- `(c)(e)`. -/
  | cast (c : CName) (e : Expr)
  /-- `(const e & std::bitset<n>(0xFFFFFFFF)).to_ulong()`. -/
  | bitset (e : Expr) (n : ℕ)

/-- Statements. -/
inductive Stmt where
  /-- `WRITEL(p, temp_working_addr, e|..|e)`. -/
  | writel (word : List Expr)
  /-- `WRITEL(p, temp_working_addr, *(int*)&name)`. -/
  | writelFloat (name : Name)
  /-- `WRITEL(p, temp_working_addr, 0)`. -/
  | writelPadding
  /-- `tmp = READL(p, temp_working_addr)`. -/
  | readl
  /-- `name = *(float*)&(tmp)`. -/
  | assignFloat (name : Name)
  /-- `name op (c)(e)`. -/
  | assign (name : Name) (datatype : BsvType) (op : AssignOp) (e : Expr)

/-- The expression for a piece that is written at `off`. -/
def ParamInfo.field (e : ParamInfo) (off : ℕ) : Expr :=
  let field := Expr.field e.name e.datatype
  let field := if e.shifted ≠ 0 then .shr field e.shifted else field
  let field := if off ≠ 0 then .shl field off else field
  if e.datatype.bitWidth > 64 then .bitset field e.datatype.bitWidth else field

/-- The loop of `generate_marshall`. A `float` ends it: the word is the whole `float`. -/
def marshallFrom (off : ℕ) (word : List Expr) : List ParamInfo → Option Stmt
  | [] => some (.writel word)
  | e :: w => do
    let c ← e.datatype.cName
    if c = .float then
      return .writelFloat e.name
    else
      marshallFrom (off + e.width - e.shifted) (word ++ [e.field off]) w

/-- `generate_marshall`: the statement that writes a word. -/
def generateMarshall (w : List ParamInfo) : Option Stmt := marshallFrom 0 [] w

/-- The value assigned to the field of a piece that is read at `off`. -/
def ParamInfo.value (e : ParamInfo) (c : CName) (off : ℕ) : Expr :=
  let field := if off ≠ 0 then Expr.shr .tmp off else .tmp
  let field := Expr.mask field (2 ^ (e.datatype.bitWidth - e.shifted) - 1)
  let field := if e.shifted ≠ 0 then .shl (.cast c field) e.shifted else field
  .cast c field

/-- The loop of `generate_demarshall`. After a `float` the position stays as it is. -/
def demarshallFrom (off : ℕ) : List ParamInfo → Option (List Stmt)
  | [] => some []
  | e :: w => do
    let c ← e.datatype.cName
    if c = .float then
      let rest ← demarshallFrom off w
      return .assignFloat e.name :: rest
    else
      let rest ← demarshallFrom (off + e.width - e.shifted) w
      return .assign e.name e.datatype e.assignOp (e.value c off) :: rest

/-- `generate_demarshall`: the statements that read a word. -/
def generateDemarshall (w : List ParamInfo) : Option (List Stmt) := do
  let word ← demarshallFrom 0 w
  return .readl :: word

/-- `paramStructMarshall`. -/
def paramStructMarshall (params : List Param) : Option (List Stmt) :=
  if (argWords params).isEmpty then some [.writelPadding]
  else (argWords params).reverse.mapM generateMarshall

/-- `paramStructDemarshall`. -/
def paramStructDemarshall (params : List Param) : Option (List Stmt) :=
  if (argWords params).isEmpty then some [.readl]
  else do
    let words ← (argWords params).reverse.mapM generateDemarshall
    return words.flatten

/-! ## What the code does -/

/-- The contents of the fields: their bits, in the low bits of 64. -/
abbrev Fields := Name → BitVec 64

/-- The state in which the code runs: the fields, `tmp`, the words that will be read, and the words that
have been written. -/
structure Machine where
  fields : Fields
  tmp : BitVec 32
  input : List (BitVec 32)
  output : List (BitVec 32)

/-- The integer types of C. The elements of an enumeration are unsigned. -/
def CName.ty : CName → Option C.Ty
  | uint32 => some .uint
  | uint64 => some .ulong
  | int => some .int
  | unsignedInt => some .uint
  | named _ => some .uint
  | bitset _ => none
  | float => none
  | bsvvector _ _ => none

/-- A field is a bit field: it is a member of a struct, and declared with its width. -/
def isBitField (name : Name) (datatype : BsvType) : Bool := decide (1 < name.length) && datatype.isBitField

/-- The number of bits of a field. -/
def fieldWidth (name : Name) (datatype : BsvType) (ty : C.Ty) : ℕ :=
  if isBitField name datatype then datatype.bitWidth else ty.width

/-- The value of a field. A bit field of less than 32 bits is promoted to `int`; the others have the type with
which they are declared. -/
def Fields.read (fields : Fields) (name : Name) (datatype : BsvType) : Option C.Val := do
  let ty ← (← datatype.cName).ty
  let w := fieldWidth name datatype ty
  let ty := if w < 32 then C.Ty.int else ty
  return ⟨ty, ((fields name).setWidth w).setWidth ty.width⟩

/-- A value is stored in a field. -/
def Fields.store (fields : Fields) (name : Name) (datatype : BsvType) (v : C.Val) : Option Fields := do
  let ty ← (← datatype.cName).ty
  let w := fieldWidth name datatype ty
  return Function.update fields name (((v.conv ty).setWidth w).setWidth 64)

/-- The value of an expression. A message with a `std::bitset` is not accepted by the C compiler. -/
def Expr.eval (m : Machine) : Expr → Option C.Val
  | field name datatype => m.fields.read name datatype
  | tmp => some ⟨.uint, m.tmp⟩
  | shr e n => do (← e.eval m).shiftRight n
  | shl e n => do (← e.eval m).shiftLeft n
  | mask e n => do return (← e.eval m).and ⟨.ulong, BitVec.ofNat 64 n⟩
  | cast c e => do return (← e.eval m).cast (← c.ty)
  | bitset _ _ => none

/-- The value of `e|..|e`. -/
def evalWord (m : Machine) : List Expr → Option C.Val
  | [] => none
  | e :: word => do word.foldlM (fun v e => do return v.or (← e.eval m)) (← e.eval m)

/-- What a statement does. -/
def Stmt.exec (m : Machine) : Stmt → Option Machine
  | writel word => do
    let v ← evalWord m word
    let x : BitVec 32 := v.conv .uint
    return { m with output := m.output ++ [x] }
  | writelFloat name => some { m with output := m.output ++ [(m.fields name).setWidth 32] }
  | writelPadding => some { m with output := m.output ++ [0] }
  | readl =>
    match m.input with
    | [] => none
    | x :: input => some { m with tmp := x, input }
  | assignFloat name => some { m with fields := Function.update m.fields name (m.tmp.setWidth 64) }
  | assign name datatype op e => do
    let v ← e.eval m
    match op with
    | .set =>
      let fields ← m.fields.store name datatype v
      return { m with fields }
    | .or =>
      let old ← m.fields.read name datatype
      let fields ← m.fields.store name datatype (old.or v)
      return { m with fields }

/-- The words that a proxy writes for the arguments `args`. -/
def proxyWords (params : List Param) (args : Fields) : Option (List (BitVec 32)) := do
  let code ← paramStructMarshall params
  let m ← code.foldlM Stmt.exec ⟨args, 0, [], []⟩
  return m.output

/-- The fields after a wrapper has read the words `ws`. Before, they have any contents. -/
def demarshall (params : List Param) (fields : Fields) (ws : List (BitVec 32)) : Option Fields := do
  let code ← paramStructDemarshall params
  let m ← code.foldlM Stmt.exec ⟨fields, 0, ws, []⟩
  return m.fields

end Xbsv
