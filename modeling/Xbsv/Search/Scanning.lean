import Xbsv.Rules.Epochs
import Xbsv.Search.MP
import Xbsv.Search.MPEngine

set_option relaxedAutoImplicit false
set_option autoImplicit false

/-!
# A search under way

The engine in a search: the index and the character at which it is, what has been fetched ahead, and the characters
of the haystack that are on their way.

## Main definitions

* `Xbsv.MPSetup` — what the software hands over before the first search.
* `Xbsv.MPEngine.Equipped` — the block RAMs after the setup, and their answers.
* `Xbsv.MPEngine.Scanning` — the invariant of a search.

## Main results

* `Xbsv.MPEngine.Scanning.compare` — the engine looks for the end of the haystack, then for the end of the needle,
  and then compares.
-/

namespace Xbsv

open Rules

/-- What the software hands over: the needle, and a table that falls. -/
structure MPSetup where
  memory : ObjectMemory
  needlePointer : BitVec 32
  mpNextPointer : BitVec 32
  m : ℕ
  T : ℕ → ℕ
  one_le_m : 1 ≤ m
  m_lt : m < 1024
  falls : Falls T m
  table : ∀ i, 1 ≤ i → i ≤ m → memory.bytes mpNextPointer 4 (4 * i) = BitVec.ofNat _ (T i)

/-- The characters of the needle. -/
def MPSetup.x (p : MPSetup) : ℕ → BitVec 8 := p.memory p.needlePointer

/-- A haystack whose length is an `int`, and whose offsets the engine can form. -/
structure Search.Proper (h : Search) : Prop where
  length_lt : h.haystack.length < 2 ^ 31
  base_le : h.base.toNat + h.haystack.length ≤ 2 ^ 32

instance (h : Search) : Decidable h.Proper :=
  decidable_of_iff (h.haystack.length < 2 ^ 31 ∧ h.base.toNat + h.haystack.length ≤ 2 ^ 32)
    ⟨fun hp => ⟨hp.1, hp.2⟩, fun hp => ⟨hp.1, hp.2⟩⟩

/-- The locations of some positions in the haystack. -/
def Search.locations (h : Search) (ps : List ℤ) : List (BitVec 32) := ps.map fun q => h.base + BitVec.ofInt 32 q

namespace MPEngine

variable {c : MPEngineConfig} {p : MPSetup} {h : Search} {a j : ℕ} {s s' : MPEngine c}

/-- The needle and the table are in the block RAMs, and the answers are those to what has been asked. -/
structure Equipped (p : MPSetup) (s : MPEngine c) : Prop where
  needle : ∀ k < p.m, s.needle (BitVec.ofNat _ k) = p.x k
  mpNext : ∀ i, 1 ≤ i → i ≤ p.m → s.mpNext (BitVec.ofNat _ i) = BitVec.ofNat _ (p.T i)
  needleLenReg : s.needleLenReg.toNat = p.m
  needleResp : s.needleResp.items = s.efifo.items.map fun e => s.needle ((e.2 - 1).setWidth _)
  mpNextResp : s.mpNextResp.items = s.efifo.items.map fun e => s.mpNext (e.2.setWidth _)

/-- The engine searches; it is at the index `a` of the needle and the character `j` of the haystack. -/
structure Scanning (p : MPSetup) (h : Search) (a j : ℕ) (s : MPEngine c) : Prop where
  proper : h.Proper
  stage : s.stage = .run
  haystackLenReg : s.haystackLenReg.toNat = h.haystack.length
  haystackBase : s.haystackBase = h.base
  jReg : s.jReg.toNat = j
  one_le : 1 ≤ j
  le : j ≤ h.haystack.length + 1
  a_le : a ≤ p.m + 1
  ahead : Ahead (· + 1) s.epochReg (BitVec.ofNat _ a) s.efifo.items s.iReg
  le_off : j - 1 ≤ s.haystackOff.toNat
  off_lt : s.haystackOff.toNat < h.haystack.length + c.nc
  stream : s.haystack.items ++ (s.hreader.beats s.memory).flatMap (fun v => unpackVector 1 c.nc v.data) =
    (List.range' (j - 1) (s.haystackOff.toNat - (j - 1))).map fun k =>
      s.memory.bytes s.haystackPointer 1 (h.base.toNat + k)
  tags : ∀ v ∈ s.hreader.beats s.memory, v.tag = s.dmaTag
  chars : ∀ k < h.haystack.length, s.memory.bytes s.haystackPointer 1 (h.base.toNat + k) = h.char k

/-! ## What is left to do -/

/-- What has been fetched of this epoch lowers the number of steps, what is to be thrown away adds to it. -/
def window (s : MPEngine c) : ℕ :=
  if s.stage = .run then
    2 - s.efifo.items.countP (fun e => e.1 = s.epochReg) + s.efifo.items.countP (fun e => e.1 ≠ s.epochReg)
  else s.efifo.items.length

/-- A bound on the steps of everything else. -/
def cost (s : MPEngine c) : ℕ :=
  s.n2b.cost + s.mp2b.cost + s.conff.items.length + s.compf.items.length + s.locf.items.length +
    s.haystack.items.length + s.hreader.cost c.nc +
    (s.haystackLenReg.toNat - s.haystackOff.toNat) * (c.nc + 4)

/-- A bound on the steps of a search at the index `a` and the character `j`. -/
def bound (p : MPSetup) (h : Search) (a j : ℕ) (s : MPEngine c) : ℕ :=
  5 * ((h.haystack.length + 1 - j) * (p.m + 2) + a + 1) + s.window + s.cost

/-- The locations of some positions, as they are put on `locf`. -/
def located (h : Search) (ps : List ℤ) : List Event := (h.locations ps).map .loc

/-- What a step of a search does in which the positions `ls` are still to be found: it finds some of them and the
search goes on, or there is none and the search ends. -/
def Proceeds (p : MPSetup) (h : Search) (ls : List ℤ) (b : ℕ) (es : List Event) (s : MPEngine c) : Prop :=
  (∃ a j ps ls', Scanning p h a j s ∧ MP.Finds p.x h.char p.T p.m h.haystack.length a j ls' ∧ ls = ps ++ ls' ∧
    es = located h ps ∧ s.bound p h a j < b) ∨
  ls = [] ∧ es = [.comp] ∧ s.stage = .ready ∧ s.hreader.beats s.memory = [] ∧ s.window + s.cost < b

/-! ## The index -/

lemma setWidth_ofNat (a : ℕ) : (BitVec.ofNat 32 a).setWidth 10 = BitVec.ofNat 10 a := by
  refine BitVec.eq_of_toNat_eq ?_
  rw [BitVec.toNat_setWidth, BitVec.toNat_ofNat, BitVec.toNat_ofNat, Nat.mod_mod_of_dvd _ (by decide)]

lemma ofNat_sub_one {a : ℕ} (ha : 0 < a) : BitVec.ofNat 32 a - 1 = BitVec.ofNat 32 (a - 1) := by
  obtain ⟨b, rfl⟩ := Nat.exists_eq_succ_of_ne_zero ha.ne'
  rw [Nat.succ_eq_add_one, BitVec.ofNat_add, Nat.add_sub_cancel]
  exact BitVec.add_sub_cancel _ _

lemma toNat_ofNat_of_le {a m : ℕ} (ha : a ≤ m + 1) (hm : m < 1024) : (BitVec.ofNat 32 a).toNat = a := by
  rw [BitVec.toNat_ofNat, Nat.mod_eq_of_lt (by omega)]

/-- The end of the needle. -/
lemma Equipped.eq_add_one (he : Equipped p s) (ha : a ≤ p.m + 1) :
    BitVec.ofNat 32 a = s.needleLenReg + 1 ↔ a = p.m + 1 := by
  have hm := p.m_lt
  have hone : (1 : BitVec 32).toNat = 1 := rfl
  rw [← BitVec.toNat_inj, toNat_ofNat_of_le ha hm, BitVec.toNat_add, he.needleLenReg, hone,
    Nat.mod_eq_of_lt (by omega)]

/-- The character of the needle at an index, and the table there. -/
lemma Equipped.answers (he : Equipped p s) (ha : 0 < a) (ham : a ≤ p.m) :
    s.needle ((BitVec.ofNat 32 a - 1).setWidth _) = p.x (a - 1) ∧
      s.mpNext ((BitVec.ofNat 32 a).setWidth _) = BitVec.ofNat _ (p.T a) := by
  rw [ofNat_sub_one ha, setWidth_ofNat, setWidth_ofNat]
  exact ⟨he.needle (a - 1) (by omega), he.mpNext a ha ham⟩

section Answers

variable {needleResp : Fifo SGList.bramDepth (BitVec (8 * 1))} {mpNextResp : Fifo SGList.bramDepth (BitVec (8 * 4))}
  {efifo : Fifo 2 (BitVec 2 × BitVec 32)} {nv : BitVec (8 * 1)} {mp : BitVec (8 * 4)} {e : BitVec 2} {i : BitVec 32}

/-- The next answers are those for the first index that has been fetched. -/
lemma Equipped.deq (he : Equipped p s) (hneedle : s.needleResp.items = nv :: needleResp.items)
    (hmpNext : s.mpNextResp.items = mp :: mpNextResp.items) (hefifo : s.efifo.items = (e, i) :: efifo.items) :
    Equipped p { s with needleResp, mpNextResp, efifo } ∧ nv = s.needle ((i - 1).setWidth _) ∧
      mp = s.mpNext (i.setWidth _) := by
  have hn := he.needleResp
  have hm := he.mpNextResp
  rw [hneedle, hefifo, List.map_cons, List.cons.injEq] at hn
  rw [hmpNext, hefifo, List.map_cons, List.cons.injEq] at hm
  exact ⟨{ he with needleResp := hn.2, mpNextResp := hm.2 }, hn.1, hm.1⟩

end Answers

/-! ## The haystack -/

namespace Scanning

/-- The end of the haystack. -/
lemma lt_iff (hs : Scanning p h a j s) : s.haystackLenReg < s.jReg ↔ h.haystack.length < j := by
  rw [BitVec.lt_def, hs.haystackLenReg, hs.jReg]

/-- A step that moves characters towards the engine. -/
lemma frame (hs : Scanning p h a j s) (haystack : Fifo (2 * c.nc) (BitVec (8 * 1))) (hreader : MemReader c.nc)
    (hstream : haystack.items ++ (hreader.beats s.memory).flatMap (fun v => unpackVector 1 c.nc v.data) =
      s.haystack.items ++ (s.hreader.beats s.memory).flatMap (fun v => unpackVector 1 c.nc v.data))
    (htags : ∀ v ∈ hreader.beats s.memory, v ∈ s.hreader.beats s.memory) :
    Scanning p h a j { s with haystack, hreader } :=
  { hs with
    stream := hstream.trans hs.stream
    tags := fun v hv => hs.tags v (htags v hv) }

/-- Rule `haystackReq`: the next beat is asked for. -/
lemma haystackReq (hs : Scanning p h a j s) (hstep : s.haystackReq = some s') :
    Scanning p h a j s' ∧ s'.window + s'.cost < s.window + s.cost := by
  simp only [MPEngine.haystackReq] at hstep
  split at hstep
  on_goal 2 => cases hstep
  rename_i hguard
  simp only [Option.bind_eq_bind, Option.bind_eq_some_iff, pure, Option.some.injEq] at hstep
  obtain ⟨hreader, hreq, rfl⟩ := hstep
  have hlt : s.haystackOff.toNat < h.haystack.length := by
    rw [← hs.haystackLenReg]
    exact hguard.2
  have hnc := c.nc_lt
  have hlen := hs.proper.length_lt
  have hbase := hs.proper.base_le
  have hoff : (s.haystackOff + BitVec.ofNat 32 c.nc).toNat = s.haystackOff.toNat + c.nc := by
    rw [BitVec.toNat_add, BitVec.toNat_ofNat, Nat.mod_eq_of_lt (by omega : c.nc < 2 ^ 32), Nat.mod_eq_of_lt (by omega)]
  have haddr : ((s.haystackBase + s.haystackOff).setWidth 40).toNat = h.base.toNat + s.haystackOff.toNat := by
    rw [hs.haystackBase, BitVec.toNat_setWidth, BitVec.toNat_add, Nat.mod_eq_of_lt (by omega : _ < 2 ^ 32),
      Nat.mod_eq_of_lt (by omega)]
  obtain ⟨hbeats, hcost⟩ := MemReader.readReq_eq_some hreq s.memory c.nc
  have hdata : unpackVector 1 c.nc (s.memory.answer c.nc ⟨s.haystackPointer,
      (s.haystackBase + s.haystackOff).setWidth 40, BitVec.ofNat 8 c.nc, s.dmaTag⟩).data =
      (List.range' s.haystackOff.toNat c.nc).map fun k => s.memory.bytes s.haystackPointer 1 (h.base.toNat + k) := by
    rw [ObjectMemory.answer, haddr, unpackVector_bytes _ _ _ (by omega), List.range'_eq_map_range, List.map_map]
    exact List.map_congr_left fun q _ => by rw [Function.comp_apply, Nat.one_mul, Nat.add_assoc]
  constructor
  · exact
      { hs with
        le_off := by
          have := hs.le_off
          show j - 1 ≤ (s.haystackOff + BitVec.ofNat 32 c.nc).toNat
          omega
        off_lt := by
          show (s.haystackOff + BitVec.ofNat 32 c.nc).toNat < _
          omega
        stream := by
          have hle := hs.le_off
          have hold := hs.stream
          have hsub : s.haystackOff.toNat + c.nc - (j - 1) = (s.haystackOff.toNat - (j - 1)) + c.nc := by omega
          show s.haystack.items ++ (hreader.beats s.memory).flatMap (fun v => unpackVector 1 c.nc v.data) =
            (List.range' (j - 1) ((s.haystackOff + BitVec.ofNat 32 c.nc).toNat - (j - 1))).map _
          rw [hoff, hsub, ← List.range'_append_1, List.map_append, Nat.add_sub_cancel' hle, ← hdata, ← hold, hbeats,
            List.flatMap_append, List.append_assoc]
          simp
        tags := by
          intro v hv
          replace hv : v ∈ hreader.beats s.memory := hv
          rw [hbeats, List.mem_append, List.mem_singleton] at hv
          rcases hv with hv | rfl
          · exact hs.tags v hv
          · rfl }
  · have hrest : s.haystackLenReg.toNat - (s.haystackOff.toNat + c.nc) + 1 ≤
        s.haystackLenReg.toNat - s.haystackOff.toNat := by
      have := c.nc_pos
      rw [hs.haystackLenReg]
      omega
    have hmul := Nat.mul_le_mul_right (c.nc + 4) hrest
    rw [Nat.succ_mul] at hmul
    simp only [window, cost, hoff, hcost]
    omega

/-- Rule `haystackResp`: a beat goes to the gearbox. -/
lemma haystackResp (hs : Scanning p h a j s) (hstep : s.haystackResp = some s') :
    Scanning p h a j s' ∧ s'.window + s'.cost < s.window + s.cost := by
  simp only [MPEngine.haystackResp, Option.bind_eq_bind, Option.bind_eq_some_iff, Prod.exists] at hstep
  obtain ⟨v, hreader, hdata, hstep⟩ := hstep
  obtain ⟨hbeats, hcost⟩ := MemReader.readData_eq_some hdata s.memory c.nc
  have htag : v.tag = s.dmaTag := hs.tags v (by rw [hbeats]; exact List.mem_cons_self)
  simp only [htag, if_true, Option.bind_eq_some_iff, Fifo.enqN_eq_some, pure, Option.some.injEq] at hstep
  obtain ⟨haystack, ⟨-, hitems⟩, rfl⟩ := hstep
  constructor
  · refine hs.frame haystack hreader ?_ fun w hw => ?_
    · rw [hitems, hbeats, List.flatMap_cons, List.append_assoc]
    · rw [hbeats]
      exact List.mem_cons_of_mem _ hw
  · simp only [window, cost, hitems, hcost, List.length_append, length_unpackVector]
    omega

/-- Rule `matchNeedleReq`: the next index is fetched. -/
lemma matchNeedleReq (hs : Scanning p h a j s) (he : Equipped p s) (hstep : s.matchNeedleReq = some s') :
    Scanning p h a j s' ∧ Equipped p s' ∧ s'.window + s'.cost < s.window + s.cost := by
  simp only [MPEngine.matchNeedleReq, if_pos hs.stage, Option.bind_eq_bind, Option.bind_eq_some_iff, Fifo.enq_eq_some,
    pure, Option.some.injEq] at hstep
  obtain ⟨needleResp, ⟨-, hneedle⟩, mpNextResp, ⟨-, hmpNext⟩, efifo, ⟨hroom, hefifo⟩, rfl⟩ := hstep
  refine ⟨?_, ?_, ?_⟩
  · exact
      { hs with
        ahead := by
          show Ahead (· + 1) s.epochReg (BitVec.ofNat _ a) efifo.items (s.iReg + 1)
          rw [hefifo]
          exact hs.ahead.fetch }
  · exact
      { he with
        needleResp := by
          show needleResp.items = efifo.items.map _
          rw [hneedle, hefifo, he.needleResp, List.map_append, List.map_singleton]
        mpNextResp := by
          show mpNextResp.items = efifo.items.map _
          rw [hmpNext, hefifo, he.mpNextResp, List.map_append, List.map_singleton] }
  · have hcount : s.efifo.items.countP (fun e => decide (e.1 = s.epochReg)) ≤ s.efifo.items.length :=
      List.countP_le_length
    simp only [window, cost, hs.stage, if_true, hefifo, List.countP_append, List.countP_singleton, decide_true,
      ne_eq, not_true_eq_false, decide_false, Bool.false_eq_true, if_false]
    omega

section Answers

variable {needleResp : Fifo SGList.bramDepth (BitVec (8 * 1))} {mpNextResp : Fifo SGList.bramDepth (BitVec (8 * 4))}
  {efifo : Fifo 2 (BitVec 2 × BitVec 32)} {nv : BitVec (8 * 1)} {mp : BitVec (8 * 4)} {e : BitVec 2} {i : BitVec 32}

/-- An answer of the epoch before is thrown away. -/
lemma discard (hs : Scanning p h a j s) (needleResp : Fifo SGList.bramDepth (BitVec (8 * 1)))
    (mpNextResp : Fifo SGList.bramDepth (BitVec (8 * 4))) (hefifo : s.efifo.items = (e, i) :: efifo.items) (hne : e ≠ s.epochReg) :
    Scanning p h a j { s with needleResp, mpNextResp, efifo } ∧
      ({ s with needleResp, mpNextResp, efifo } : MPEngine c).window < s.window := by
  constructor
  · have hahead := hs.ahead
    rw [hefifo] at hahead
    exact { hs with ahead := hahead.discard hne }
  · simp [window, hs.stage, hefifo, hne]

/-- What has been fetched behind an answer of this epoch is of this epoch. -/
lemma window_eq (hs : Scanning p h a j s) (hefifo : s.efifo.items = (s.epochReg, i) :: efifo.items) :
    s.window = 1 - efifo.items.length ∧ ∀ e' ∈ efifo.items, e'.1 = s.epochReg := by
  have hahead := hs.ahead
  rw [hefifo] at hahead
  have hfresh := (hahead.head (by omega)).2
  have hall : ∀ e' ∈ efifo.items, e'.1 = s.epochReg := fun e' he' => hfresh.fst_eq he'
  refine ⟨?_, hall⟩
  have hcount : efifo.items.countP (fun e => decide (e.1 = s.epochReg)) = efifo.items.length :=
    List.countP_eq_length.mpr fun e' he' => decide_eq_true (hall e' he')
  have hzero : efifo.items.countP (fun e => decide (e.1 ≠ s.epochReg)) = 0 :=
    List.countP_eq_zero.mpr fun e' he' => by simpa using hall e' he'
  simp only [window, hs.stage, if_true, hefifo]
  rw [List.countP_cons_of_pos (by simp), List.countP_cons_of_neg (by simp), hcount, hzero]
  omega

/-- The engine begins an epoch. -/
lemma redirect (hs : Scanning p h a j s) (needleResp : Fifo SGList.bramDepth (BitVec (8 * 1)))
    (mpNextResp : Fifo SGList.bramDepth (BitVec (8 * 4)))
    (hefifo : s.efifo.items = (s.epochReg, i) :: efifo.items) {b : ℕ} (hb : b ≤ p.m + 1) : Scanning p h b j { s with
      needleResp, mpNextResp, efifo, epochReg := s.epochReg + 1, iReg := BitVec.ofNat _ b } ∧
    ({ s with needleResp, mpNextResp, efifo, epochReg := s.epochReg + 1, iReg := BitVec.ofNat _ b } :
      MPEngine c).window ≤ s.window + 3 := by
  constructor
  · have hahead := hs.ahead
    rw [hefifo] at hahead
    exact { hs with
      a_le := hb
      ahead := hahead.redirect (by omega) _ }
  · have hlen := efifo.length_le
    have hcount : efifo.items.countP (fun e => decide (e.1 ≠ s.epochReg + 1)) ≤ efifo.items.length :=
      List.countP_le_length
    have hwindow := (hs.window_eq hefifo).1
    have hle := s.efifo.length_le
    rw [hefifo, List.length_cons] at hle
    simp only [window, hs.stage, if_true] at hwindow ⊢
    omega

/-- The first character on its way is the one at which the engine is. -/
lemma stream_cons (hs : Scanning p h a j s) {hv : BitVec (8 * 1)} {hay : List (BitVec (8 * 1))}
    (hhay : s.haystack.items = hv :: hay) :
    j ≤ s.haystackOff.toNat ∧ hv = s.memory.bytes s.haystackPointer 1 (h.base.toNat + (j - 1)) ∧
      hay ++ (s.hreader.beats s.memory).flatMap (fun v => unpackVector 1 c.nc v.data) =
        (List.range' j (s.haystackOff.toNat - j)).map fun k =>
          s.memory.bytes s.haystackPointer 1 (h.base.toNat + k) := by
  have hstream := hs.stream
  have hone := hs.one_le
  rw [hhay, List.cons_append] at hstream
  obtain ⟨k, hk, hfirst, hrest⟩ := cons_eq_map_range' hstream
  have hj : j - 1 + 1 = j := Nat.sub_add_cancel hone
  have hoff : s.haystackOff.toNat - j = k := by omega
  rw [hj] at hrest
  rw [hoff]
  exact ⟨by omega, hfirst, hrest⟩

/-- The character of the haystack. -/
lemma char_eq (hs : Scanning p h a j s) (hj : j ≤ h.haystack.length) {hv : BitVec (8 * 1)}
    {hay : List (BitVec (8 * 1))} (hhay : s.haystack.items = hv :: hay) : hv = h.char (j - 1) := by
  have hone := hs.one_le
  exact (hs.stream_cons hhay).2.1.trans (hs.chars (j - 1) (by omega))

/-- The next characters. -/
lemma advance (hs : Scanning p h a j s) (needleResp : Fifo SGList.bramDepth (BitVec (8 * 1)))
    (mpNextResp : Fifo SGList.bramDepth (BitVec (8 * 4))) (ha : a ≤ p.m) (hj : j ≤ h.haystack.length)
    (hefifo : s.efifo.items = (s.epochReg, i) :: efifo.items) {hv : BitVec (8 * 1)}
    {haystack : Fifo (2 * c.nc) (BitVec (8 * 1))} (hhay : s.haystack.items = hv :: haystack.items) :
    Scanning p h (a + 1) (j + 1) { s with needleResp, mpNextResp, efifo, jReg := s.jReg + 1, haystack } ∧
    ({ s with needleResp, mpNextResp, efifo, jReg := s.jReg + 1, haystack } : MPEngine c).window ≤ s.window + 1 := by
  obtain ⟨hle, -, hstream⟩ := hs.stream_cons hhay
  have hlen := hs.proper.length_lt
  obtain ⟨hwindow, hall⟩ := hs.window_eq hefifo
  constructor
  · have hahead := hs.ahead
    rw [hefifo] at hahead
    exact
      { hs with
        jReg := by
          have hone : (1 : BitVec 32).toNat = 1 := rfl
          show (s.jReg + 1).toNat = j + 1
          rw [BitVec.toNat_add, hs.jReg, hone, Nat.mod_eq_of_lt (by omega)]
        one_le := by omega
        le := by omega
        a_le := by omega
        ahead := by
          rw [BitVec.ofNat_add]
          exact hahead.advance (by omega)
        le_off := hle
        stream := hstream }
  · have hzero : efifo.items.countP (fun e => decide (e.1 ≠ s.epochReg)) = 0 :=
      List.countP_eq_zero.mpr fun e' he' => by simpa using hall e' he'
    have hcount : efifo.items.countP (fun e => decide (e.1 = s.epochReg)) = efifo.items.length :=
      List.countP_eq_length.mpr fun e' he' => decide_eq_true (hall e' he')
    have hnew : ({ s with needleResp, mpNextResp, efifo, jReg := s.jReg + 1, haystack } : MPEngine c).window =
        2 - efifo.items.length := by
      simp only [window, hs.stage, if_true, hzero, hcount, Nat.add_zero]
    omega

/-- At the end of the haystack nothing is on its way. -/
lemma beats_eq_nil (hs : Scanning p h a j s) (hj : h.haystack.length < j) : s.hreader.beats s.memory = [] := by
  have hlength := congrArg List.length hs.stream
  have hoff := hs.off_lt
  have hle := hs.le_off
  have hend := hs.le
  cases hbeats : s.hreader.beats s.memory with
  | nil => rfl
  | cons v vs =>
    rw [hbeats, List.flatMap_cons, List.length_append, List.length_append, length_unpackVector, List.length_map,
      List.length_range'] at hlength
    omega

/-- The location that is put on `locf`. -/
lemma location_eq (hs : Scanning p h a j s) (b : ℕ) :
    s.haystackBase + s.jReg - BitVec.ofNat 32 b = h.base + BitVec.ofInt 32 ((j : ℤ) - b) := by
  have hj : s.jReg = BitVec.ofNat 32 j := by rw [← hs.jReg, BitVec.ofNat_toNat, BitVec.setWidth_eq]
  have hint : BitVec.ofInt 32 ((j : ℤ) - b) + BitVec.ofNat 32 b = BitVec.ofNat 32 j := by
    rw [← BitVec.ofInt_natCast 32 b, ← BitVec.ofInt_add, Int.sub_add_cancel, BitVec.ofInt_natCast]
  rw [hs.haystackBase, hj, ← hint, ← BitVec.add_assoc, BitVec.add_sub_cancel]

/-- **The tests of the engine.** First comes the end of the haystack, then the end of the needle, and then the
characters are compared. -/
theorem compare (hs : Scanning p h a j s) (he : Equipped p s) {ls : List ℤ}
    (hls : MP.Finds p.x h.char p.T p.m h.haystack.length a j ls)
    (hneedle : s.needleResp.items = nv :: needleResp.items) (hmpNext : s.mpNextResp.items = mp :: mpNextResp.items)
    (hefifo : s.efifo.items = (s.epochReg, i) :: efifo.items) {es : List Event}
    (hstep : ({ s with needleResp, mpNextResp, efifo } : MPEngine c).compare nv mp i = some (s', es)) :
    Proceeds p h ls (s.bound p h a j) es s' ∧ Equipped p s' := by
  obtain ⟨he', hnv, hmp⟩ := he.deq hneedle hmpNext hefifo
  have hi : i = BitVec.ofNat _ a := by
    have hahead := hs.ahead
    rw [hefifo] at hahead
    exact (hahead.head (by omega)).1
  subst hi
  have hone := p.one_le_m
  have ha := hs.a_le
  have hlen : efifo.items.length ≤ 1 := by
    have hle := s.efifo.length_le
    rw [hefifo, List.length_cons] at hle
    omega
  simp only [MPEngine.compare, hs.lt_iff, he.eq_add_one ha] at hstep
  split at hstep
  · -- the end of the haystack
    rename_i hj
    simp only [Option.bind_eq_bind, Option.bind_eq_some_iff, Fifo.enq_eq_some, pure, Option.some.injEq,
      Prod.mk.injEq] at hstep
    obtain ⟨compf, ⟨-, hcompf⟩, rfl, rfl⟩ := hstep
    have hnil : ls = [] := by
      cases hls with
      | ends => rfl
      | found hle => omega
      | falls hle => omega
      | reads hle => omega
    refine ⟨.inr ⟨hnil, rfl, rfl, hs.beats_eq_nil hj, ?_⟩, { he' with }⟩
    simp only [bound, window, cost, hcompf, List.length_append, List.length_singleton, reduceCtorEq, if_false]
    omega
  · rename_i hj
    have hjn : j ≤ h.haystack.length := by omega
    split at hstep
    · -- the end of the needle
      rename_i hend
      subst hend
      simp only [Option.bind_eq_bind, Option.bind_eq_some_iff, Fifo.enq_eq_some, pure, Option.some.injEq,
        Prod.mk.injEq] at hstep
      obtain ⟨locf, ⟨-, hlocf⟩, rfl, rfl⟩ := hstep
      obtain ⟨hnext, hwindow⟩ := hs.redirect needleResp mpNextResp hefifo (show 1 ≤ p.m + 1 by omega)
      cases hls with
      | ends => omega
      | falls _ hne => exact absurd rfl hne
      | reads _ hne => exact absurd rfl hne
      | @found _ ls' _ hrest =>
        refine ⟨.inl ⟨1, j, [(j : ℤ) - (p.m + 1)], ls', { hnext with }, hrest, rfl, ?_, ?_⟩, { he' with }⟩
        · rw [hs.location_eq (p.m + 1), located, Search.locations, List.map_singleton, List.map_singleton]
          push_cast
          rfl
        · simp only [bound, window, cost, hlocf, List.length_append, List.length_singleton] at hwindow ⊢
          omega
    · rename_i hne
      have ham : a ≤ p.m := by omega
      simp only [Option.bind_eq_bind, Option.bind_eq_some_iff, Fifo.first_eq_some] at hstep
      obtain ⟨hv, ⟨hay, hhay⟩, hstep⟩ := hstep
      have hchar := hs.char_eq hjn hhay
      have hpos : (0 : BitVec 32) < BitVec.ofNat 32 a ↔ 0 < a := by
        rw [BitVec.lt_def, toNat_ofNat_of_le ha p.m_lt]
        rfl
      simp only [hpos] at hstep
      split at hstep
      · -- the characters differ
        rename_i hdiff
        simp only [pure, Option.some.injEq, Prod.mk.injEq] at hstep
        obtain ⟨rfl, rfl⟩ := hstep
        obtain ⟨hx, hT⟩ := he.answers hdiff.1 ham
        have hfall := p.falls a hdiff.1 ham
        have hchars : p.x (a - 1) ≠ h.char (j - 1) := by
          rw [← hx, ← hnv, ← hchar]
          exact hdiff.2
        obtain ⟨hnext, hwindow⟩ := hs.redirect needleResp mpNextResp hefifo (show p.T a ≤ p.m + 1 by omega)
        rw [← hT, ← hmp] at hnext hwindow
        cases hls with
        | ends => omega
        | found => exact absurd rfl hne
        | reads _ _ heq => exact absurd (heq hdiff.1) hchars
        | falls _ _ _ _ hrest =>
          refine ⟨.inl ⟨p.T a, j, [], ls, hnext, hrest, rfl, rfl, ?_⟩, { he' with }⟩
          simp only [bound, window, cost] at hwindow ⊢
          omega
      · -- the characters are equal
        rename_i hsame
        simp only [Option.bind_eq_some_iff, Prod.exists, Fifo.deq_eq_some, pure, Option.some.injEq,
          Prod.mk.injEq] at hstep
        obtain ⟨hv', haystack, hdeq, rfl, rfl⟩ := hstep
        have hchars : 0 < a → p.x (a - 1) = h.char (j - 1) := by
          intro ha'
          rw [← (he.answers ha' ham).1, ← hnv, ← hchar]
          exact not_not.mp fun hdiff => hsame ⟨ha', hdiff⟩
        obtain ⟨hnext, hwindow⟩ := hs.advance needleResp mpNextResp ham hjn hefifo hdeq
        cases hls with
        | ends => omega
        | found => exact absurd rfl hne
        | falls _ _ ha' hdiff => exact absurd (hchars ha') hdiff
        | reads _ _ _ hrest =>
          refine ⟨.inl ⟨a + 1, j + 1, [], ls, hnext, hrest, rfl, rfl, ?_⟩, { he' with }⟩
          have hsplit : h.haystack.length + 1 - j = h.haystack.length + 1 - (j + 1) + 1 := by omega
          simp only [bound, window, cost, hdeq, List.length_cons, hsplit, Nat.succ_mul] at hwindow ⊢
          omega

end Answers

/-- Rule `matchNeedleResp`. -/
lemma matchNeedleResp (hs : Scanning p h a j s) (he : Equipped p s) {ls : List ℤ}
    (hls : MP.Finds p.x h.char p.T p.m h.haystack.length a j ls) {es : List Event}
    (hstep : s.matchNeedleResp = some (s', es)) : Proceeds p h ls (s.bound p h a j) es s' ∧ Equipped p s' := by
  simp only [MPEngine.matchNeedleResp, if_pos hs.stage, Option.bind_eq_bind, Option.bind_eq_some_iff, Prod.exists,
    Fifo.deq_eq_some] at hstep
  obtain ⟨nv, needleResp, hneedle, mp, mpNextResp, hmpNext, e, i, efifo, hefifo, hstep⟩ := hstep
  split at hstep
  · rename_i heq
    subst heq
    exact hs.compare he hls hneedle hmpNext hefifo hstep
  · rename_i hne
    simp only [pure, Option.some.injEq, Prod.mk.injEq] at hstep
    obtain ⟨rfl, rfl⟩ := hstep
    obtain ⟨hnext, hwindow⟩ := hs.discard needleResp mpNextResp hefifo hne
    refine ⟨.inl ⟨a, j, [], ls, hnext, hls, rfl, rfl, ?_⟩, (he.deq hneedle hmpNext hefifo).1⟩
    simp only [bound, cost]
    omega

/-- The tests can be made when there is a character, and at the end of the haystack without one. -/
lemma exists_compare (hcompf : s.compf.items = []) (hlocf : s.locf.items = [])
    (hhay : s.haystackLenReg < s.jReg ∨ s.haystack.items ≠ []) (nv : BitVec (8 * 1)) (mp : BitVec (8 * 4))
    (i : BitVec 32) : ∃ r, s.compare nv mp i = some r := by
  have hcroom : s.compf.items.length < c.compSize := by
    rw [hcompf]
    exact c.compSize_pos
  have hlroom : s.locf.items.length < c.locSize := by
    rw [hlocf]
    exact c.locSize_pos
  obtain ⟨compf, hcomp, -⟩ := Fifo.exists_enq hcroom ()
  obtain ⟨locf, hloc, -⟩ := Fifo.exists_enq hlroom (s.haystackBase + s.jReg - i)
  simp only [MPEngine.compare, hcomp, hloc, Option.bind_eq_bind, Option.bind_some]
  split
  · exact ⟨_, rfl⟩
  · rename_i hend
    obtain ⟨hv, hay, hitems⟩ := List.exists_cons_of_ne_nil (hhay.resolve_left hend)
    obtain ⟨haystack, hdeq, -⟩ := Fifo.exists_deq hitems
    have hfirst : s.haystack.first = some hv := Fifo.first_eq_some.mpr ⟨hay, hitems⟩
    simp only [hfirst, hdeq, Option.bind_some]
    split
    · exact ⟨_, rfl⟩
    · split
      · exact ⟨_, rfl⟩
      · exact ⟨_, rfl⟩

/-- **Until the end of the search there is a step.** -/
theorem exists_step (hs : Scanning p h a j s) (he : Equipped p s) (hcompf : s.compf.items = [])
    (hlocf : s.locf.items = []) :
    (∃ r, s.haystackReq = some r) ∨ (∃ r, s.haystackResp = some r) ∨ (∃ r, s.hreader.clientReq = some r) ∨
      (∃ r, s.hreader.clientData s.memory = some r) ∨ (∃ r, s.matchNeedleReq = some r) ∨
      ∃ r, s.matchNeedleResp = some r := by
  have hneedle := he.needleResp
  have hmpNext := he.mpNextResp
  cases hefifo : s.efifo.items with
  | nil =>
    -- nothing has been fetched
    rw [hefifo, List.map_nil] at hneedle hmpNext
    have hroom₁ : s.needleResp.items.length < SGList.bramDepth := by simp [hneedle]
    have hroom₂ : s.mpNextResp.items.length < SGList.bramDepth := by simp [hmpNext]
    have hroom₃ : s.efifo.items.length < 2 := by simp [hefifo]
    obtain ⟨needleResp, henq₁, -⟩ := Fifo.exists_enq hroom₁ (s.needle ((s.iReg - 1).setWidth 10))
    obtain ⟨mpNextResp, henq₂, -⟩ := Fifo.exists_enq hroom₂ (s.mpNext (s.iReg.setWidth 10))
    obtain ⟨efifo, henq₃, -⟩ := Fifo.exists_enq hroom₃ (s.epochReg, s.iReg)
    have hreq : s.matchNeedleReq = some { s with needleResp, mpNextResp, efifo, iReg := s.iReg + 1 } := by
      simp only [MPEngine.matchNeedleReq, if_pos hs.stage, henq₁, henq₂, henq₃, Option.bind_eq_bind,
        Option.bind_some, pure]
    exact .inr (.inr (.inr (.inr (.inl ⟨_, hreq⟩))))
  | cons entry entries =>
    obtain ⟨e, i⟩ := entry
    rw [hefifo, List.map_cons] at hneedle hmpNext
    obtain ⟨needleResp, hdeq₁, -⟩ := Fifo.exists_deq hneedle
    obtain ⟨mpNextResp, hdeq₂, -⟩ := Fifo.exists_deq hmpNext
    obtain ⟨efifo, hdeq₃, -⟩ := Fifo.exists_deq hefifo
    have hresp : s.matchNeedleResp =
        if e = s.epochReg then
          ({ s with needleResp, mpNextResp, efifo } : MPEngine c).compare (s.needle ((i - 1).setWidth 10))
            (s.mpNext (i.setWidth 10)) i
        else some ({ s with needleResp, mpNextResp, efifo }, []) := by
      simp only [MPEngine.matchNeedleResp, if_pos hs.stage, hdeq₁, hdeq₂, hdeq₃, Option.bind_eq_bind,
        Option.bind_some, pure]
    by_cases hne : e ≠ s.epochReg
    · exact .inr (.inr (.inr (.inr (.inr ⟨_, by rw [hresp, if_neg hne]⟩))))
    · rw [if_pos (not_not.mp hne)] at hresp
      by_cases hhay : s.haystackLenReg < s.jReg ∨ s.haystack.items ≠ []
      · obtain ⟨r, hr⟩ := exists_compare (s := { s with needleResp, mpNextResp, efifo }) hcompf hlocf hhay
          (s.needle ((i - 1).setWidth 10)) (s.mpNext (i.setWidth 10)) i
        exact .inr (.inr (.inr (.inr (.inr ⟨r, by rw [hresp, hr]⟩))))
      · -- the next character has to come
        rw [hs.lt_iff, not_or, not_not] at hhay
        obtain ⟨hj, hempty⟩ := hhay
        by_cases hbeats : s.hreader.beats s.memory = []
        · have hstream := congrArg List.length hs.stream
          have hle := hs.le_off
          have hone := hs.one_le
          rw [hempty, hbeats, List.flatMap_nil, List.append_nil, List.length_nil, List.length_map,
            List.length_range'] at hstream
          have hlt : s.haystackOff < s.haystackLenReg := by
            rw [BitVec.lt_def, hs.haystackLenReg]
            omega
          obtain ⟨hreader, hreq⟩ := MemReader.exists_readReq hbeats ⟨s.haystackPointer,
            (s.haystackBase + s.haystackOff).setWidth 40, BitVec.ofNat 8 c.nc, s.dmaTag⟩
          exact .inl ⟨_, by rw [MPEngine.haystackReq, if_pos ⟨hs.stage, hlt⟩, hreq]; rfl⟩
        · rcases MemReader.exists_step hbeats with hreq | hdata | ⟨v, hreader, hget⟩
          · exact .inr (.inr (.inl hreq))
          · exact .inr (.inr (.inr (.inl hdata)))
          · have htag : v.tag = s.dmaTag := hs.tags v (by
              rw [(MemReader.readData_eq_some hget s.memory 0).1]
              exact List.mem_cons_self)
            have hroom : s.haystack.items.length + (unpackVector 1 c.nc v.data).length ≤ 2 * c.nc := by
              rw [hempty, length_unpackVector, List.length_nil]
              omega
            obtain ⟨haystack, henq, -⟩ := Fifo.exists_enqN hroom
            have hfeed : s.haystackResp = some { s with hreader, haystack } := by
              simp [MPEngine.haystackResp, hget, htag, henq]
            exact .inr (.inl ⟨_, hfeed⟩)

end Scanning

end MPEngine

end Xbsv
