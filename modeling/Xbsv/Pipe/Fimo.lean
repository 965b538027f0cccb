import Xbsv.Pcie.Mifo
import Xbsv.Rules.System

set_option relaxedAutoImplicit false
set_option autoImplicit false

/-!
# A queue with exits of all widths

`mkFIMO` takes in `nIn` elements at a time, and has an exit for every number of elements up to `maxOut`. It deals its
elements out to `maxOut` lanes, as `mkMIFO` does. All exits read from one position, and each of them moves the position
on by `maxOut`, whatever its own width is: so the position stays where it is, and every exit reads from lane 0 on. An
exit that is not of the full width leaves the lanes behind that it does not read.

## Main definitions

* `Xbsv.Fimo`, `Xbsv.fimo` — the module, and the systems of its calls.
* `Xbsv.Fimo.InOrder` — what a queue should give out.
* `Xbsv.Fimo.Full` — runs in which only the last exit is not of the full width.

## Main results

* `Xbsv.Fimo.Tracks.step` — the lanes are read from the first on.
* `Xbsv.Fimo.inOrder_iff_full` — which runs give out the elements in order.
-/

namespace Xbsv

open Rules

/-- The state of `mkFIMO`. -/
structure Fimo (maxOut : ℕ) (α : Type) where
  inFifo : Fifo 2 (Fin maxOut → α)
  posFifo : Fifo 2 (BitVec (tlog maxOut))
  weFifo : Fifo 2 (Fin maxOut → Bool)
  fifos : Fin maxOut → Fifo 2 α
  inPos : BitVec (tlog maxOut)
  outPos : BitVec (tlog maxOut)

namespace Fimo

/-- The calls of the methods, and the firing of the rule. A vector is looked at when it is taken. -/
inductive Action (nIn : ℕ) (α : Type)
  | enq (data : Fin nIn → α)
  | tofifos
  | deq (nOut : ℕ)

/-- A vector comes in, and elements go out. -/
inductive Event (nIn : ℕ) (α : Type)
  | entered (data : Fin nIn → α)
  | returned (v : List α)

variable {maxOut nIn : ℕ} {α : Type} [NeZero maxOut]

/-- The state after reset. -/
def reset (maxOut : ℕ) (α : Type) : Fimo maxOut α := ⟨.empty, .empty, .empty, fun _ => .empty, 0, 0⟩

/-- `i_n_in`. -/
def iNIn (maxOut nIn : ℕ) : LUInt maxOut := BitVec.ofNat _ nIn

/-- `i_max_out`. -/
def iMaxOut (maxOut : ℕ) : LUInt maxOut := BitVec.ofNat _ maxOut

variable (m : Fimo maxOut α)

/-- Rule `tofifos`. -/
def tofifos : Option (Fimo maxOut α) := do
  let (values, inFifo) ← m.inFifo.deq
  let (_, posFifo) ← m.posFifo.deq
  let (we, weFifo) ← m.weFifo.deq
  if h : ∀ i, we i = true → (m.fifos i).items.length < 2 then
    return { m with
      inFifo, posFifo, weFifo
      fifos := fun i => if hw : we i = true then
          ⟨(m.fifos i).items ++ [values i], by rw [List.length_append]; exact h i hw⟩
        else m.fifos i }
  else return m

/-- `deqReadyInternal`. -/
def deqReadyInternal (nOut : ℕ) : Bool :=
  let rot : LUInt maxOut := iMaxOut maxOut - m.outPos.setWidth _
  let notEmpties := rotateBy (fun i => !(m.fifos i).items.isEmpty) (rot.setWidth _)
  (List.ofFn fun i : Fin maxOut => if i < nOut then notEmpties i else true).all id

/-- Method `in.enq`; `undef` fills the vector up. -/
def enq (undef : α) (data : Fin nIn → α) : Option (Fimo maxOut α) := do
  let we : Fin maxOut → Bool := fun i => decide (BitVec.ofNat _ i.val < iNIn maxOut nIn)
  let wdata : Fin maxOut → α := fun i => if h : i < nIn then data ⟨i, h⟩ else undef
  let inFifo ← m.inFifo.enq (rotateBy wdata m.inPos)
  let weFifo ← m.weFifo.enq (rotateBy we m.inPos)
  let posFifo ← m.posFifo.enq m.inPos
  let inPos := ((m.inPos.setWidth _ + iNIn maxOut nIn) % iMaxOut maxOut).setWidth (tlog maxOut)
  return { m with inFifo, weFifo, posFifo, inPos }

/-- The lane of the element `i` that goes out next. -/
def outLane (i : ℕ) : Fin maxOut :=
  Fin.ofNat maxOut (((m.outPos.setWidth _ : LUInt maxOut) + BitVec.ofNat _ i) % iMaxOut maxOut).toNat

/-- Method `first` of `out[nOut]`, without the places from `nOut` on, which are undefined. -/
def first (nOut : ℕ) : Option (List α) :=
  if m.deqReadyInternal nOut then
    (List.range nOut).mapM fun i => (m.fifos (m.outLane i)).first
  else none

/-- Method `deq` of `out[nOut]`. -/
def deq (nOut : ℕ) : Option (Fimo maxOut α) :=
  if m.deqReadyInternal nOut then
    some { m with
      fifos := fun j => if ∃ i < nOut, m.outLane i = j then (m.fifos j).tail else m.fifos j
      outPos := (((m.outPos.setWidth _ : LUInt maxOut) + iMaxOut maxOut) % iMaxOut maxOut).setWidth _ }
  else none

def step (undef : α) : Action nIn α → Option (Fimo maxOut α × List (Event nIn α))
  | .enq data => (m.enq undef data).map fun m' => (m', [.entered data])
  | .tofifos => m.tofifos.map fun m' => (m', [])
  | .deq nOut => do
    let v ← m.first nOut
    let m' ← m.deq nOut
    return (m', [.returned v])

end Fimo

/-- The module, with calls at any times. -/
def fimo (maxOut nIn : ℕ) {α : Type} [NeZero maxOut] (undef : α) :
    RuleSystem (Fimo maxOut α) (Fimo.Action nIn α) (Fimo.Event nIn α) where
  step m a := m.step undef a

namespace Fimo

variable {maxOut nIn : ℕ} {α : Type}

/-! ## What should be given out -/

/-- The elements that came in. -/
def entered (tr : List (Event nIn α)) : List α :=
  tr.flatMap fun
    | .entered data => List.ofFn data
    | .returned _ => []

/-- The elements that went out at each time. -/
def returned (tr : List (Event nIn α)) : List (List α) :=
  tr.filterMap fun
    | .entered _ => none
    | .returned v => some v

/-- **What a queue gives out**: the elements that came in, in order. -/
def InOrder (tr : List (Event nIn α)) : Prop := (returned tr).flatten <+: entered tr

/-- **The full width**: each time but the last, `maxOut` elements went out. -/
def Full (maxOut : ℕ) (tr : List (Event nIn α)) : Prop := ∀ v ∈ (returned tr).dropLast, v.length = maxOut

section Traces

variable (tr es : List (Event nIn α)) (data : Fin nIn → α) (v : List α)

@[simp] lemma entered_append : entered (tr ++ es) = entered tr ++ entered es := List.flatMap_append

@[simp] lemma entered_entered : entered [.entered data] = List.ofFn data := List.append_nil _

@[simp] lemma entered_returned : entered ([.returned v] : List (Event nIn α)) = [] := rfl

@[simp] lemma returned_append : returned (tr ++ es) = returned tr ++ returned es := List.filterMap_append

@[simp] lemma returned_entered : returned [.entered data] = [] := rfl

@[simp] lemma returned_returned : returned ([.returned v] : List (Event nIn α)) = [v] := rfl

end Traces

variable [NeZero maxOut] {tr es : List (Event nIn α)} {m m' : Fimo maxOut α} {undef : α}

/-- An exit for some elements. -/
def Widths (_ : Fimo maxOut α) : Action nIn α → Prop
  | .deq nOut => 1 ≤ nOut ∧ nOut ≤ maxOut
  | _ => True

instance (m : Fimo maxOut α) (a : Action nIn α) : Decidable (Widths m a) :=
  match a with
  | .deq nOut => inferInstanceAs (Decidable (1 ≤ nOut ∧ nOut ≤ maxOut))
  | .enq _ | .tofifos => isTrue trivial

/-! ## The exits -/

/-- Exits read from lane 0 on. -/
lemma outLane_eq (hpow : ∃ k, maxOut = 2 ^ k) (h : m.outPos.toNat = 0) (j : Fin maxOut) : m.outLane j = j := by
  have hnum := Mifo.toNat_ofNat_of_le hpow j.isLt.le
  have hsum := Mifo.toNat_add_mod m.outPos hpow (c := BitVec.ofNat _ j.val) (by rw [hnum]; exact j.isLt.le)
  apply Fin.ext
  rw [outLane, Fin.val_ofNat]
  show ((m.outPos.setWidth _ + BitVec.ofNat _ j.val) % Mifo.iMaxIn maxOut).toNat % maxOut = _
  rw [hsum, hnum, h, Nat.zero_add, Nat.mod_mod, Nat.mod_eq_of_lt j.isLt]

/-- An exit asks the lanes that it reads. -/
lemma deqReadyInternal_iff (hpow : ∃ k, maxOut = 2 ^ k) (h : m.outPos.toNat = 0) (nOut : ℕ) :
    m.deqReadyInternal nOut = true ↔ ∀ j : Fin maxOut, j < nOut → (m.fifos j).items ≠ [] := by
  have hlane (j : Fin maxOut) : rotateBy (fun i => !(m.fifos i).items.isEmpty)
      ((iMaxOut maxOut - m.outPos.setWidth _ : LUInt maxOut).setWidth _) j = !(m.fifos j).items.isEmpty := by
    refine (Mifo.rotateBy_rest hpow (fun i => !(m.fifos i).items.isEmpty) m.outPos j).trans ?_
    have hj : Fin.ofNat maxOut ((m.outPos.toNat + j) % maxOut) = j := by
      apply Fin.ext
      rw [Fin.val_ofNat, h, Nat.zero_add, Nat.mod_mod, Nat.mod_eq_of_lt j.isLt]
    rw [hj]
  unfold deqReadyInternal
  rw [List.all_eq_true, List.forall_mem_ofFn_iff]
  simp only [hlane, id]
  refine forall_congr' fun j => ?_
  by_cases hj : j.val < nOut
  · simp [hj]
  · simp [hj]

/-- The position of the exits does not move. -/
lemma outPos_deq (hpow : ∃ k, maxOut = 2 ^ k) (h : m.outPos.toNat = 0) {nOut : ℕ} (hs : m.deq nOut = some m') :
    m'.outPos.toNat = 0 := by
  unfold deq at hs
  split at hs
  · cases hs
    have hnum := Mifo.toNat_ofNat_of_le hpow (Nat.le_refl maxOut)
    refine (Mifo.toNat_setWidth_mod m.outPos hpow hnum.le).trans ?_
    show (m.outPos.toNat + (BitVec.ofNat (tlog (maxOut + 1)) maxOut).toNat) % maxOut = _
    rw [hnum, h, Nat.zero_add, Nat.mod_self]
  · cases hs

/-! ## The entrance -/

/-- The vector that is filled up has the elements that came in at its front. -/
lemma taken_eq (hpow : ∃ k, maxOut = 2 ^ k) (hin : nIn ≤ maxOut) (undef : α) (data : Fin nIn → α) :
    Mifo.taken (iNIn maxOut nIn) (fun i : Fin maxOut => if h : i < nIn then data ⟨i, h⟩ else undef) = List.ofFn data := by
  have hnum : (iNIn maxOut nIn).toNat = nIn := Mifo.toNat_ofNat_of_le hpow hin
  apply List.ext_getElem?
  intro i
  rw [Mifo.taken, hnum, List.getElem?_take, List.getElem?_ofFn]
  by_cases hi : i < nIn
  · rw [if_pos hi, dif_pos (by omega), dif_pos hi, List.getElem?_ofFn, dif_pos hi]
  · rw [if_neg hi, List.getElem?_ofFn, dif_neg hi]

/-- What is in the module: of the elements that came in, some have gone to the lanes, of which the exits have read the
first elements, and the others wait. -/
structure Tracks (tr : List (Event nIn α)) (m : Fimo maxOut α) : Prop where
  outPos_eq : m.outPos.toNat = 0
  inPos_eq : m.inPos.toNat = (entered tr).length % maxOut
  exists_lanes : ∃ l xss cs, entered tr = l ++ xss.flatten ∧
    Mifo.Waits l.length m.inFifo.items m.posFifo.items cs m.weFifo.items xss ∧
    ∀ j : Fin maxOut, reads (returned tr) j ≤ (lane maxOut j 0 l).length ∧
      (m.fifos j).items = (lane maxOut j 0 l).drop (reads (returned tr) j)
  readFrom : ReadFrom maxOut (entered tr) (returned tr)
  ne_nil : ∀ v ∈ returned tr, v ≠ []

lemma tracks_reset : Tracks ([] : List (Event nIn α)) (reset maxOut α) := by
  refine ⟨?_, ?_, ⟨[], [], [], rfl, .nil, fun j => ⟨Nat.zero_le _, rfl⟩⟩, readFrom_nil, by simp [returned]⟩
  · simp [reset]
  · simp [reset, entered]

/-- A vector comes in. -/
lemma Tracks.enq (h : Tracks tr m) (hpow : ∃ k, maxOut = 2 ^ k) (hin : nIn ≤ maxOut) {data : Fin nIn → α}
    (hs : m.enq undef data = some m') : Tracks (tr ++ [Event.entered data]) m' := by
  obtain ⟨l, xss, cs, hent, hwaits, hlanes⟩ := h.exists_lanes
  simp only [Fimo.enq, bind, pure, Option.bind_eq_some_iff, Fifo.enq_eq_some, Option.some.injEq] at hs
  obtain ⟨inFifo, ⟨-, hinFifo⟩, weFifo, ⟨-, hwe⟩, posFifo, ⟨-, hpos⟩, rfl⟩ := hs
  have hnum : (iNIn maxOut nIn).toNat = nIn := Mifo.toNat_ofNat_of_le hpow hin
  have hcount : (iNIn maxOut nIn).toNat ≤ maxOut := by rwa [hnum]
  have hreturned : returned (tr ++ [Event.entered data]) = returned tr := by simp
  have hentered : entered (tr ++ [Event.entered data]) = entered tr ++ List.ofFn data := by simp
  refine ⟨h.outPos_eq, ?_, ⟨l, xss ++ [List.ofFn data], cs ++ [iNIn maxOut nIn], ?_, ?_, ?_⟩, ?_, ?_⟩
  · refine (Mifo.toNat_setWidth_mod m.inPos hpow hcount).trans ?_
    rw [hnum, h.inPos_eq, hentered, List.length_append, List.length_ofFn, Nat.mod_add_mod]
  · rw [hentered, hent, List.flatten_append, List.flatten_singleton, List.append_assoc]
  · show Mifo.Waits l.length inFifo.items posFifo.items _ weFifo.items _
    rw [hinFifo, hwe, hpos, ← taken_eq hpow hin undef data]
    refine hwaits.concat ?_ hcount _
    rw [h.inPos_eq, hent, List.length_append]
  · rw [hreturned]
    exact hlanes
  · rw [hreturned, hentered]
    exact h.readFrom.append _
  · rw [hreturned]
    exact h.ne_nil

/-- A vector goes to the lanes, or has to wait. -/
lemma Tracks.tofifos (h : Tracks tr m) (hpow : ∃ k, maxOut = 2 ^ k) (hs : m.tofifos = some m') : Tracks tr m' := by
  obtain ⟨l, xss, cs, hent, hwaits, hlanes⟩ := h.exists_lanes
  simp only [Fimo.tofifos, bind, pure, Option.bind_eq_some_iff, Prod.exists, Fifo.deq_eq_some] at hs
  obtain ⟨values, inFifo, hin, pos, posFifo, hpos, we, weFifo, hwe, hs⟩ := hs
  split at hs
  · cases hs
    rw [hin, hpos, hwe] at hwaits
    cases hwaits with
    | @cons _ _ count data _ _ cs _ xss hp hc hrest =>
      refine ⟨h.outPos_eq, h.inPos_eq, ⟨l ++ Mifo.taken count data, xss, cs, ?_, ?_, fun j => ?_⟩, h.readFrom, h.ne_nil⟩
      · rw [hent, List.flatten_cons, List.append_assoc]
      · rw [List.length_append, Mifo.length_taken hc]
        exact hrest
      · obtain ⟨hle, hitems⟩ := hlanes j
        rw [lane_append, Nat.zero_add, Mifo.lane_rotated hpow hp hc data j, List.drop_append_of_le_length hle, ← hitems,
          List.length_append]
        refine ⟨by omega, ?_⟩
        simp only
        split
        · rfl
        · rw [List.append_nil]
  · cases hs
    exact h

/-- What the heads of some lanes are. -/
lemma getElem?_of_mapM_range {f : ℕ → Option α} {n : ℕ} {v : List α} (h : (List.range n).mapM f = some v) :
    v.length = n ∧ ∀ i < n, v[i]? = f i := by
  induction n generalizing v with
  | zero =>
    cases h
    exact ⟨rfl, by simp⟩
  | succ n ih =>
    simp only [List.range_succ, List.mapM_append, List.mapM_cons, List.mapM_nil, bind, pure, Option.bind_eq_some_iff,
      Option.some.injEq] at h
    obtain ⟨u, hu, w, ⟨x, hx, rest, rfl, rfl⟩, rfl⟩ := h
    obtain ⟨hlen, hget⟩ := ih hu
    refine ⟨by rw [List.length_append, hlen]; rfl, fun i hi => ?_⟩
    rcases Nat.lt_or_ge i n with hlt | hge
    · rw [List.getElem?_append_left (by omega), hget i hlt]
    · obtain rfl : i = n := by omega
      rw [List.getElem?_append_right (by omega), hlen, Nat.sub_self, hx]
      rfl

/-- Elements go out: they are the next of the first lanes. -/
lemma Tracks.deq (h : Tracks tr m) (hpow : ∃ k, maxOut = 2 ^ k) {nOut : ℕ} (hpos : 1 ≤ nOut) (hout : nOut ≤ maxOut)
    {v : List α} (hfirst : m.first nOut = some v) (hs : m.deq nOut = some m') :
    Tracks (tr ++ [Event.returned v]) m' := by
  have houtPos := outPos_deq hpow h.outPos_eq hs
  obtain ⟨l, xss, cs, hent, hwaits, hlanes⟩ := h.exists_lanes
  unfold Fimo.deq at hs
  split at hs
  · rename_i hready
    cases hs
    unfold Fimo.first at hfirst
    rw [if_pos hready] at hfirst
    obtain ⟨hlen, hget⟩ := getElem?_of_mapM_range hfirst
    have hlane := outLane_eq hpow h.outPos_eq
    have hentered : entered (tr ++ [Event.returned v]) = entered tr := by simp
    have hreturned : returned (tr ++ [Event.returned v]) = returned tr ++ [v] := by simp
    rw [deqReadyInternal_iff hpow h.outPos_eq] at hready
    refine ⟨houtPos, by rw [hentered]; exact h.inPos_eq, ⟨l, xss, cs, by rw [hentered]; exact hent, hwaits, fun j => ?_⟩,
      ?_, ?_⟩
    · obtain ⟨hle, hitems⟩ := hlanes j
      have hread : (∃ i < nOut, m.outLane i = j) ↔ j.val < nOut := by
        constructor
        · rintro ⟨i, hi, rfl⟩
          rwa [hlane ⟨i, by omega⟩]
        · exact fun hj => ⟨j, hj, hlane j⟩
      rw [hreturned, reads_concat, hlen]
      simp only [hread]
      by_cases hj : j.val < nOut
      · rw [if_pos hj, if_pos hj, Fifo.items_tail, hitems, List.tail_drop]
        have hne := hready j hj
        rw [hitems, Ne, List.drop_eq_nil_iff] at hne
        exact ⟨by omega, rfl⟩
      · rw [if_neg hj, if_neg hj]
        exact ⟨hle, hitems⟩
    · rw [hreturned, hentered]
      refine readFrom_concat.mpr ⟨h.readFrom, by omega, fun i x hx => ?_⟩
      have hi : i < nOut := by
        have := (List.getElem?_eq_some_iff.mp hx).1
        omega
      obtain ⟨-, hitems⟩ := hlanes ⟨i, by omega⟩
      rw [hget i hi, hlane ⟨i, by omega⟩, Fifo.first, hitems, List.head?_drop, getElem?_lane (by omega)] at hx
      rw [hent, List.getElem?_append_left (List.getElem?_eq_some_iff.mp hx).1, hx]
    · rw [hreturned]
      intro u hu
      rcases List.mem_append.mp hu with hu | hu
      · exact h.ne_nil u hu
      · rw [List.mem_singleton.mp hu]
        exact List.ne_nil_of_length_pos (by omega)
  · cases hs

/-- **The lanes are read from the first on**, in every run. -/
lemma Tracks.step (h : Tracks tr m) (hpow : ∃ k, maxOut = 2 ^ k) (hin : nIn ≤ maxOut) {a : Action nIn α}
    (ha : Widths m a) (hs : m.step undef a = some (m', es)) : Tracks (tr ++ es) m' := by
  cases a with
  | enq data =>
    simp only [Fimo.step, Option.map_eq_some_iff, Prod.mk.injEq] at hs
    obtain ⟨m₁, henq, rfl, rfl⟩ := hs
    exact h.enq hpow hin henq
  | tofifos =>
    simp only [Fimo.step, Option.map_eq_some_iff, Prod.mk.injEq] at hs
    obtain ⟨m₁, hto, rfl, rfl⟩ := hs
    rw [List.append_nil]
    exact h.tofifos hpow hto
  | deq nOut =>
    simp only [Fimo.step, bind, pure, Option.bind_eq_some_iff, Option.some.injEq, Prod.mk.injEq] at hs
    obtain ⟨v, hfirst, m₁, hdeq, rfl, rfl⟩ := hs
    exact h.deq hpow ha.1 ha.2 hfirst hdeq

/-- **Which runs give out the elements in order**: those in which only the last exit is not of the full width, and no
others, if the elements are different. -/
theorem inOrder_iff_full {maxOut nIn : ℕ} {α : Type} [NeZero maxOut] (hpow : ∃ k, maxOut = 2 ^ k) (hin : nIn ≤ maxOut)
    (undef : α) {tr : List (Event nIn α)} {m : Fimo maxOut α}
    (h : ((fimo maxOut nIn undef).guard Widths).Reaches (.reset maxOut α) tr m) :
    (Full maxOut tr → InOrder tr) ∧ ((entered tr).Nodup → (InOrder tr ↔ Full maxOut tr)) := by
  have htr : Tracks tr m := by
    refine h.invariant tracks_reset fun {tr m a m' es} hm hs => ?_
    obtain ⟨hwidths, hs⟩ := RuleSystem.guard_step.mp hs
    exact hm.step hpow hin hwidths hs
  have hfull : Full maxOut tr → InOrder tr := htr.readFrom.flatten_prefix
  exact ⟨hfull, fun hnd => ⟨htr.readFrom.full_of_prefix htr.ne_nil hnd, hfull⟩⟩

/-- Two vectors of four elements come in, and four elements and then two go out. -/
def fourAndTwo := ((fimo 4 4 0).guard Widths).run (.reset 4 ℕ)
  [.enq fun i => i.val, .tofifos, .enq fun i => 4 + i.val, .tofifos, .deq 4, .deq 2]

theorem inOrder_iff_full_fourAndTwo : returned fourAndTwo.2 = [[0, 1, 2, 3], [4, 5]] ∧ InOrder fourAndTwo.2 := by
  refine ⟨by decide, ?_⟩
  exact (inOrder_iff_full ⟨2, rfl⟩ (by decide) 0 (RuleSystem.reaches_run _ _)).1 (by unfold Full; decide)

/-- The same vectors, and twice two elements go out. -/
def twoAndTwo := ((fimo 4 4 0).guard Widths).run (.reset 4 ℕ)
  [.enq fun i => i.val, .tofifos, .enq fun i => 4 + i.val, .tofifos, .deq 2, .deq 2]

/-- The elements 2 and 3 are left behind. -/
theorem not_inOrder_twoAndTwo : ((fimo 4 4 0).guard Widths).Reaches (.reset 4 ℕ) twoAndTwo.2 twoAndTwo.1 ∧
    entered twoAndTwo.2 = [0, 1, 2, 3, 4, 5, 6, 7] ∧ returned twoAndTwo.2 = [[0, 1], [4, 5]] ∧ ¬InOrder twoAndTwo.2 :=
  ⟨RuleSystem.reaches_run _ _, by decide, by decide, by unfold InOrder; decide⟩

end Fimo

end Xbsv
