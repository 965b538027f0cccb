import Xbsv.Cores.Bram
import Xbsv.Dma.MemTypes

set_option relaxedAutoImplicit false
set_option autoImplicit false

/-!
# The call stack with a bypass

`mkStackReg` of `StackReg.bsv` keeps the stack of a program that calls and returns: the counter `pc`, the arguments and
the variables of each frame. The top frame and the one below it are in registers, deeper ones in block memories with one
port, whose reads take a cycle. So a return pops `next` to `top` and has `next` read again; a return in the cycle after
takes what is read straight to `top`, and a call in that cycle neither writes `next` back nor reads it.

The module is modelled cycle by cycle. In each cycle the environment uses at most one of the methods, the rules `poppc`,
`popargs` and `popvars` fire when a read has come back, and the memory ports take the requests of the cycle.

## Main definitions

* `Xbsv.StackReg`, `Xbsv.StackReg.cycle` — the module, and what it does in a cycle.
* `Xbsv.CallStack` — the stack that it should be.
* `Xbsv.StackReg.Represents` — how a state of the module stands for a stack.

## Main results

* `Xbsv.StackLane.Holds.docall`, `Xbsv.StackLane.Holds.doreturn`, `Xbsv.StackLane.Holds.idle` — what the steps do to one
  component.
* `Xbsv.StackReg.Represents.cycle` — a cycle is a step of the stack.
* `Xbsv.StackReg.frame_eq_top` — after all schedules the registers are the top frame of the stack.
-/

namespace Xbsv

/-! ## One component of the frames -/

/-- What the module has for one component of the frames, such as the registers `pctop` and `pcnext` and the memory
`pcstack` for `pc`. -/
structure StackLane (addressBits : ℕ) (α : Type) where
  stack : BRAM1Port addressBits α
  top : α
  next : α

namespace StackLane

variable {addressBits : ℕ} {α : Type}

/-- Rules `poppc`, `popargs` and `popvars`, which fire when there is a response. -/
def pop (l : StackLane addressBits α) (calling returning : Bool) : StackLane addressBits α :=
  match l.stack.response with
  | none => l
  | some v => { l with next := if calling then l.next else v, top := if returning then v else l.top }

/-- The part of `docall`: `next` is written back unless it is being read, and gets what is saved. -/
def docall (l : StackLane addressBits α) (fp : BitVec addressBits) (returningd1 : Bool) (saved entered : α) :
    StackLane addressBits α :=
  let request := if returningd1 then none else some (.write fp l.next)
  { ({ l with next := saved, top := entered }).pop true false with stack := l.stack.clock request }

/-- The part of `doreturn`: `next` gets to the top unless it is being read. -/
def doreturn (l : StackLane addressBits α) (fp : BitVec addressBits) (returningd1 : Bool) : StackLane addressBits α :=
  let popped := if returningd1 then l else { l with top := l.next }
  { popped.pop false true with stack := l.stack.clock (some (.read (fp - 1))) }

/-- A cycle with neither. -/
def idle (l : StackLane addressBits α) : StackLane addressBits α :=
  { l.pop false false with stack := l.stack.clock none }

end StackLane

/-! ## The source -/

/-- The state of `mkStackReg`. -/
structure StackReg (stackSize : ℕ) (P A V : Type) where
  pc : StackLane (tlog stackSize) P
  args : StackLane (tlog stackSize) A
  vars : StackLane (tlog stackSize) V
  fp : BitVec (tlog stackSize)
  returningd1 : Bool

/-- The components of a frame. -/
@[ext]
structure Frame (P A V : Type) where
  pc : P
  args : A
  vars : V
  deriving DecidableEq

namespace StackReg

variable {stackSize : ℕ} {P A V : Type}

/-- The methods, of which at most one is used in a cycle. -/
inductive Action (P A V : Type)
  | docall (jumpto returnto : P) (args : A) (vars : V)
  | doreturn
  | nextpc (jumpto : P)
  | idle

/-- The registers `top`, which the module shows. -/
def frame (s : StackReg stackSize P A V) : Frame P A V := ⟨s.pc.top, s.args.top, s.vars.top⟩

/-- After reset only `pctop`, `fp` and `returningd1` have values that are known. -/
def reset (initialpc : P) (args : A) (vars : V) (next : Frame P A V) (ram : BitVec (tlog stackSize) → Frame P A V) :
    StackReg stackSize P A V where
  pc := ⟨⟨fun a => (ram a).pc, none⟩, initialpc, next.pc⟩
  args := ⟨⟨fun a => (ram a).args, none⟩, args, next.args⟩
  vars := ⟨⟨fun a => (ram a).vars, none⟩, vars, next.vars⟩
  fp := 0
  returningd1 := false

/-- `min` and `max` of the source. -/
def least {w : ℕ} (x y : BitVec w) : BitVec w := if x ≤ y then x else y

def greatest {w : ℕ} (x y : BitVec w) : BitVec w := if x ≤ y then y else x

/-- One cycle: the method, the rules that pop, and `returning_delay`. -/
def cycle (s : StackReg stackSize P A V) : Action P A V → StackReg stackSize P A V
  | .docall jumpto returnto args vars =>
    { pc := s.pc.docall s.fp s.returningd1 returnto jumpto
      args := s.args.docall s.fp s.returningd1 s.args.top args
      vars := s.vars.docall s.fp s.returningd1 vars vars
      fp := least (s.fp + 1) (BitVec.allOnes _)
      returningd1 := false }
  | .doreturn =>
    { pc := s.pc.doreturn s.fp s.returningd1
      args := s.args.doreturn s.fp s.returningd1
      vars := s.vars.doreturn s.fp s.returningd1
      fp := greatest (s.fp - 1) 0
      returningd1 := true }
  | .nextpc jumpto =>
    { s with
      pc := ({ s.pc with top := jumpto }).idle
      args := s.args.idle
      vars := s.vars.idle
      returningd1 := false }
  | .idle => { s with pc := s.pc.idle, args := s.args.idle, vars := s.vars.idle, returningd1 := false }

/-- The cycles of a schedule. -/
def run (s : StackReg stackSize P A V) (schedule : List (Action P A V)) : StackReg stackSize P A V :=
  schedule.foldl cycle s

end StackReg

/-! ## The stack -/

/-- A stack of frames, which is never empty. -/
@[ext]
structure CallStack (P A V : Type) where
  top : Frame P A V
  saved : List (Frame P A V)
  deriving DecidableEq

namespace CallStack

variable {P A V : Type}

/-- A step of the stack, which has a depth from 0 to `stackSize - 1`. -/
def step (stackSize : ℕ) (c : CallStack P A V) : StackReg.Action P A V → Option (CallStack P A V)
  | .docall jumpto returnto args vars =>
    if c.saved.length + 1 < stackSize then
      some ⟨⟨jumpto, args, vars⟩, ⟨returnto, c.top.args, vars⟩ :: c.saved⟩
    else none
  | .doreturn =>
    match c.saved with
    | [] => none
    | f :: saved => some ⟨f, saved⟩
  | .nextpc jumpto => some { c with top := { c.top with pc := jumpto } }
  | .idle => some c

/-- The steps of a schedule. -/
def exec (stackSize : ℕ) (c : CallStack P A V) : List (StackReg.Action P A V) → Option (CallStack P A V)
  | [] => some c
  | a :: schedule => (c.step stackSize a).bind fun c' => c'.exec stackSize schedule

end CallStack

/-! ## What a component stands for -/

namespace StackLane

variable {addressBits : ℕ} {α : Type} {l : StackLane addressBits α} {mem : BitVec addressBits → α}

/-- The memory holds the saved values, the deepest one at address 1. -/
def Below (mem : BitVec addressBits → α) : List α → Prop
  | [] => True
  | x :: xs => mem (BitVec.ofNat _ (xs.length + 1)) = x ∧ Below mem xs

lemma Below.tail {xs : List α} (h : Below mem xs) : Below mem xs.tail := by
  cases xs with
  | nil => exact h
  | cons x xs => exact h.2

/-- A write above the saved values. -/
lemma Below.update {xs : List α} (h : Below mem xs) {m : ℕ} (hm : xs.length < m) (hlt : m < 2 ^ addressBits) (y : α) :
    Below (Function.update mem (BitVec.ofNat _ m) y) xs := by
  induction xs with
  | nil => exact h
  | cons x xs ih =>
    rw [List.length_cons] at hm
    refine ⟨?_, ih h.2 (by omega)⟩
    have hne : BitVec.ofNat addressBits (xs.length + 1) ≠ BitVec.ofNat addressBits m := by
      rw [Ne, BitVec.toNat_eq, BitVec.toNat_ofNat, BitVec.toNat_ofNat, Nat.mod_eq_of_lt hlt,
        Nat.mod_eq_of_lt (by omega)]
      omega
    rw [Function.update_of_ne hne]
    exact h.1

/-- The registers and the memory stand for a top value and saved ones. In the cycle after a return the saved value that
belongs in `next` is still being read. -/
def HoldsSaved (l : StackLane addressBits α) (saved : List α) : Bool → Prop
  | true => Below l.stack.mem saved ∧ ∃ v, l.stack.response = some v ∧ ∀ x ∈ saved.head?, v = x
  | false => l.stack.response = none ∧ (∀ x ∈ saved.head?, l.next = x) ∧ Below l.stack.mem saved.tail

/-- **The representation of one component.** -/
structure Holds (l : StackLane addressBits α) (returningd1 : Bool) (top : α) (saved : List α) : Prop where
  top : l.top = top
  saved : l.HoldsSaved saved returningd1

variable {returningd1 : Bool} {top : α} {saved : List α}

/-- A call saves a value. -/
lemma Holds.docall (h : l.Holds returningd1 top saved) (hlt : saved.length < 2 ^ addressBits) (x entered : α) :
    (l.docall (BitVec.ofNat _ saved.length) returningd1 x entered).Holds false entered (x :: saved) := by
  have hhead : ∀ y ∈ (x :: saved).head?, x = y := by simp
  cases returningd1 with
  | true =>
    -- What is being read is in the memory already.
    obtain ⟨hbelow, v, hv, -⟩ := h.saved
    have hpop : (l.docall (BitVec.ofNat _ saved.length) true x entered) =
        ⟨⟨l.stack.mem, none⟩, entered, x⟩ := by
      simp [StackLane.docall, pop, hv, BRAM1Port.clock]
    rw [hpop]
    exact ⟨rfl, rfl, hhead, hbelow⟩
  | false =>
    obtain ⟨hv, hnext, hbelow⟩ := h.saved
    have hpop : (l.docall (BitVec.ofNat _ saved.length) false x entered) =
        ⟨⟨Function.update l.stack.mem (BitVec.ofNat _ saved.length) l.next, none⟩, entered, x⟩ := by
      simp [StackLane.docall, pop, hv, BRAM1Port.clock]
    rw [hpop]
    refine ⟨rfl, rfl, hhead, ?_⟩
    show Below (Function.update l.stack.mem (BitVec.ofNat _ saved.length) l.next) saved
    cases saved with
    | nil => trivial
    | cons y ys =>
      refine ⟨?_, Below.update hbelow (Nat.lt_succ_self _) hlt _⟩
      rw [List.length_cons, Function.update_self]
      exact hnext y rfl

/-- The read that a return starts, with `x` no longer saved. -/
lemma Below.read {x : α} (h : Below mem saved) (y : α)
    (hy : y = mem (BitVec.ofNat addressBits (x :: saved).length - 1)) : ∀ z ∈ saved.head?, y = z := by
  intro z hz
  cases saved with
  | nil => cases hz
  | cons w ws =>
    cases hz
    have haddress : BitVec.ofNat addressBits (x :: z :: ws).length - 1 = BitVec.ofNat _ (ws.length + 1) := by
      rw [List.length_cons, List.length_cons, BitVec.ofNat_add (ws.length + 1) 1]
      exact BitVec.add_sub_cancel _ _
    rw [hy, haddress]
    exact h.1

/-- A return takes the value that was saved last. -/
lemma Holds.doreturn {x : α} (h : l.Holds returningd1 top (x :: saved)) :
    (l.doreturn (BitVec.ofNat _ (x :: saved).length) returningd1).Holds true x saved := by
  cases returningd1 with
  | true =>
    -- It is being read.
    obtain ⟨hbelow, v, hv, hhead⟩ := h.saved
    have hpop : (l.doreturn (BitVec.ofNat _ (x :: saved).length) true) =
        ⟨⟨l.stack.mem, some (l.stack.mem (BitVec.ofNat _ (x :: saved).length - 1))⟩, v, v⟩ := by
      simp [StackLane.doreturn, pop, hv, BRAM1Port.clock]
    rw [hpop]
    exact ⟨hhead x rfl, hbelow.2, _, rfl, Below.read hbelow.2 _ rfl⟩
  | false =>
    obtain ⟨hv, hnext, hbelow⟩ := h.saved
    have hpop : (l.doreturn (BitVec.ofNat _ (x :: saved).length) false) =
        ⟨⟨l.stack.mem, some (l.stack.mem (BitVec.ofNat _ (x :: saved).length - 1))⟩, l.next, l.next⟩ := by
      simp [StackLane.doreturn, pop, hv, BRAM1Port.clock]
    rw [hpop]
    exact ⟨hnext x rfl, hbelow, _, rfl, Below.read hbelow _ rfl⟩

/-- In other cycles `next` gets what was being read. -/
lemma Holds.idle (h : l.Holds returningd1 top saved) : l.idle.Holds false top saved := by
  cases returningd1 with
  | true =>
    obtain ⟨hbelow, v, hv, hhead⟩ := h.saved
    have hpop : l.idle = ⟨⟨l.stack.mem, none⟩, l.top, v⟩ := by
      simp [StackLane.idle, pop, hv, BRAM1Port.clock]
    rw [hpop]
    exact ⟨h.top, rfl, hhead, hbelow.tail⟩
  | false =>
    obtain ⟨hv, hnext, hbelow⟩ := h.saved
    have hpop : l.idle = ⟨⟨l.stack.mem, none⟩, l.top, l.next⟩ := by
      simp [StackLane.idle, pop, hv, BRAM1Port.clock]
    rw [hpop]
    exact ⟨h.top, rfl, hnext, hbelow⟩

end StackLane

/-! ## What a state stands for -/

namespace StackReg

variable {stackSize : ℕ} {P A V : Type} {s : StackReg stackSize P A V} {c c' : CallStack P A V}

/-- **The representation**: `fp` is the depth, and each component is that of the frames. -/
structure Represents (s : StackReg stackSize P A V) (c : CallStack P A V) : Prop where
  fp : s.fp = BitVec.ofNat _ c.saved.length
  depth : c.saved.length < 2 ^ tlog stackSize
  pc : s.pc.Holds s.returningd1 c.top.pc (c.saved.map Frame.pc)
  args : s.args.Holds s.returningd1 c.top.args (c.saved.map Frame.args)
  vars : s.vars.Holds s.returningd1 c.top.vars (c.saved.map Frame.vars)

lemma Represents.frame (h : s.Represents c) : s.frame = c.top := Frame.ext h.pc.top h.args.top h.vars.top

lemma least_allOnes {w : ℕ} (x : BitVec w) : least x (BitVec.allOnes w) = x := by
  have hlt := x.isLt
  refine if_pos ?_
  rw [BitVec.le_def, BitVec.toNat_allOnes]
  omega

lemma greatest_zero {w : ℕ} (x : BitVec w) : greatest x 0 = x := by
  rw [greatest]
  split
  case isTrue h => exact (BitVec.le_zero_iff.mp h).symm
  case isFalse => rfl

/-- After reset there is one frame. -/
lemma represents_reset (initialpc : P) (args : A) (vars : V) (next : Frame P A V)
    (ram : BitVec (tlog stackSize) → Frame P A V) :
    (reset initialpc args vars next ram).Represents ⟨⟨initialpc, args, vars⟩, []⟩ where
  fp := rfl
  depth := Nat.two_pow_pos _
  pc := ⟨rfl, rfl, fun _ h => absurd h (Option.not_mem_none _), trivial⟩
  args := ⟨rfl, rfl, fun _ h => absurd h (Option.not_mem_none _), trivial⟩
  vars := ⟨rfl, rfl, fun _ h => absurd h (Option.not_mem_none _), trivial⟩

lemma Represents.docall (h : s.Represents c) {jumpto returnto : P} {args : A} {vars : V}
    (hstep : c.step stackSize (.docall jumpto returnto args vars) = some c') :
    (s.cycle (.docall jumpto returnto args vars)).Represents c' := by
  rw [CallStack.step] at hstep
  split at hstep
  case isFalse => cases hstep
  case isTrue hdepth =>
    cases hstep
    have hlt := h.depth
    have hle := le_two_pow_tlog stackSize
    have hpc := h.pc.docall (by rwa [List.length_map]) returnto jumpto
    have hargs := h.args.docall (by rwa [List.length_map]) c.top.args args
    have hvars := h.vars.docall (by rwa [List.length_map]) vars vars
    rw [List.length_map, ← h.fp] at hpc hargs hvars
    refine ⟨?_, ?_, hpc, ?_, hvars⟩
    · show least (s.fp + 1) _ = _
      rw [least_allOnes, h.fp, List.length_cons, BitVec.ofNat_add]
      rfl
    · rw [List.length_cons]
      omega
    · show (s.args.docall s.fp s.returningd1 s.args.top args).Holds _ _ _
      rw [h.args.top]
      exact hargs

lemma Represents.doreturn (h : s.Represents c) (hstep : c.step stackSize .doreturn = some c') :
    (s.cycle .doreturn).Represents c' := by
  obtain ⟨top, saved⟩ := c
  cases saved with
  | nil => cases hstep
  | cons f saved =>
    cases hstep
    have hfp := h.fp
    have hlt := h.depth
    have hpc := h.pc.doreturn
    have hargs := h.args.doreturn
    have hvars := h.vars.doreturn
    simp only [List.length_cons, List.length_map] at hpc hargs hvars hfp hlt
    rw [← hfp] at hpc hargs hvars
    refine ⟨?_, Nat.lt_of_succ_lt hlt, hpc, hargs, hvars⟩
    show greatest (s.fp - 1) 0 = _
    rw [greatest_zero, hfp, BitVec.ofNat_add]
    exact BitVec.add_sub_cancel _ _

/-- **A cycle is a step of the stack.** -/
theorem Represents.cycle (h : s.Represents c) {a : Action P A V} (hstep : c.step stackSize a = some c') :
    (s.cycle a).Represents c' := by
  cases a with
  | docall jumpto returnto args vars => exact h.docall hstep
  | doreturn => exact h.doreturn hstep
  | nextpc jumpto =>
    cases hstep
    have hpc : StackLane.Holds { s.pc with top := jumpto } s.returningd1 jumpto (c.saved.map Frame.pc) :=
      ⟨rfl, h.pc.saved⟩
    exact ⟨h.fp, h.depth, hpc.idle, h.args.idle, h.vars.idle⟩
  | idle =>
    cases hstep
    exact ⟨h.fp, h.depth, h.pc.idle, h.args.idle, h.vars.idle⟩

/-- The cycles of a schedule are the steps of the stack. -/
theorem Represents.run (h : s.Represents c) {schedule : List (Action P A V)}
    (hexec : c.exec stackSize schedule = some c') : (s.run schedule).Represents c' := by
  induction schedule generalizing s c with
  | nil =>
    cases hexec
    exact h
  | cons a schedule ih =>
    obtain ⟨c₁, hstep, hrest⟩ := Option.bind_eq_some_iff.mp hexec
    exact ih (h.cycle hstep) hrest

/-- **The registers are the top frame** after every schedule that keeps the depth between 0 and `stackSize - 1`,
whatever the registers and memories without a reset value hold at the start. -/
theorem frame_eq_top {stackSize : ℕ} {P A V : Type} (initialpc : P) (args : A) (vars : V) (next : Frame P A V)
    (ram : BitVec (tlog stackSize) → Frame P A V) (schedule : List (Action P A V)) (c : CallStack P A V)
    (hexec : CallStack.exec stackSize ⟨⟨initialpc, args, vars⟩, []⟩ schedule = some c) :
    ((reset initialpc args vars next ram).run schedule).frame = c.top :=
  ((represents_reset initialpc args vars next ram).run hexec).frame

/-- Three calls, two returns one after the other, and a call in the cycle after them. -/
def callsAndReturns : List (Action ℕ ℕ ℕ) :=
  [.docall 10 1 100 5, .docall 20 11 200 6, .docall 30 21 300 7, .nextpc 31, .doreturn, .doreturn, .docall 40 12 400 8,
    .doreturn, .idle]

/-- The frame of the first call is on top again, to be gone on with at 12. -/
theorem frame_eq_top_callsAndReturns :
    CallStack.exec 4 ⟨⟨0, 90, 91⟩, []⟩ callsAndReturns = some ⟨⟨12, 100, 8⟩, [⟨1, 90, 5⟩]⟩ ∧
      ((reset 0 90 91 ⟨92, 93, 94⟩ fun _ => ⟨95, 96, 97⟩ : StackReg 4 ℕ ℕ ℕ).run callsAndReturns).frame =
        ⟨12, 100, 8⟩ := by
  have hexec : CallStack.exec 4 ⟨⟨0, 90, 91⟩, []⟩ callsAndReturns = some ⟨⟨12, 100, 8⟩, [⟨1, 90, 5⟩]⟩ := by
    decide +kernel
  exact ⟨hexec, frame_eq_top 0 90 91 ⟨92, 93, 94⟩ (fun _ => ⟨95, 96, 97⟩) callsAndReturns _ hexec⟩

end StackReg

end Xbsv
