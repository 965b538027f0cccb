import Mathlib.Data.BitVec
import Mathlib.Logic.Function.Basic
import Xbsv.Rules.Fifo
import Xbsv.Rules.System

set_option relaxedAutoImplicit false
set_option autoImplicit false

/-!
# The cycle counter of the directory

`mkStdDirectory` of `Directory.bsv` counts cycles in 64 bits. A bus of 32 bits reads them in two halves: the read of the
upper half also keeps the lower one in a register, `snapshot`, and that is what the second read gets. There is one such
register, and `portalCycleCount` of `portal.c` makes its two reads without a lock. So the lower half that a call gets is
that of the last read of an upper half, by whichever thread.

Times are numbers of cycles since reset, which do not wrap. They are kept beside the state, to say when a call starts,
when its two halves are from, and when it returns.

## Main definitions

* `Xbsv.Directory` — the registers of the directory, for the reads of any threads.
* `Xbsv.CycleReads`, `Xbsv.cycleReads` — threads that call `portalCycleCount`, and their runs.
* `Xbsv.CycleRead.Held` — the counter had the value of a call at some time of the call.
* `Xbsv.CycleRead.Torn` — the lower half is from before the carry that the call has missed.

## Main results

* `Xbsv.CycleReads.halves_of_reaches` — from which times the two halves of a value are.
* `Xbsv.CycleReads.held_iff` — the calls whose values the counter had.
* `Xbsv.CycleReads.held_of_alone` — calls between whose reads no other thread reads an upper half.
-/

namespace Xbsv

open Rules

/-! ## The directory -/

/-- The state of `mkStdDirectory`. The bus knows which thread each read is for. -/
structure Directory (ι : Type) where
  cycleCount : BitVec 64
  snapshot : BitVec 32
  addrFifo : Fifo 1 (ι × BitVec 16)
  dataFifo : Fifo 1 (ι × BitVec 32)

namespace Directory

variable {ι : Type}

def reset : Directory ι := ⟨0, 0, .empty, .empty⟩

/-- `base`, the address of the first register. -/
def base : BitVec 16 := 128

/-- `PORTAL_DIRECTORY_COUNTER_MSB` and `PORTAL_DIRECTORY_COUNTER_LSB`. -/
def counterMsb : BitVec 16 := 4 + base

def counterLsb : BitVec 16 := 5 + base

/-- Rule `count`. -/
def count (d : Directory ι) : Directory ι := { d with cycleCount := d.cycleCount + 1 }

/-- An answer goes to the queue. -/
def answer (d : Directory ι) (i : ι) (x : BitVec 32) : Option (Directory ι) := do
  let dataFifo ← d.dataFifo.enq (i, x)
  return { d with dataFifo }

/-- Method `request.put` for a read. -/
def request (portals : List (BitVec 32 × BitVec 32)) (d : Directory ι) (i : ι) (address : BitVec 16) :
    Option (Directory ι) :=
  if d.addrFifo.items ≠ [] then none
  else if address = 0 + base then d.answer i 2
  else if address = 1 + base then d.answer i 0
  else if address = 2 + base then d.answer i (BitVec.ofNat 32 portals.length)
  else if address = 3 + base then d.answer i 16
  else if address = counterMsb then
    ({ d with snapshot := d.cycleCount.setWidth 32 }).answer i (d.cycleCount.extractLsb' 32 32)
  else if address = counterLsb then d.answer i d.snapshot
  else do
    let addrFifo ← d.addrFifo.enq (i, address)
    return { d with addrFifo }

/-- Rule `req1`. -/
def req1 (portals : List (BitVec 32 × BitVec 32)) (d : Directory ι) : Option (Directory ι) := do
  let ((i, addr), addrFifo) ← d.addrFifo.deq
  let idx := addr - 6 - base
  let portal := portals.getD (idx >>> 1).toNat (0, 0)
  ({ d with addrFifo }).answer i (if idx.getLsbD 0 then portal.2 else portal.1)

/-- Method `response.get`. -/
def response (d : Directory ι) : Option ((ι × BitVec 32) × Directory ι) := do
  let (p, dataFifo) ← d.dataFifo.deq
  return (p, { d with dataFifo })

end Directory

/-! ## The threads -/

/-- Where a thread is, with the times that matter: not in a call; before its read of the upper half and waiting for it;
the same for the lower half; or in some other read. -/
inductive CycleThread
  | idle
  | msbRead (start : ℕ)
  | msbAsked (start msbAt : ℕ)
  | lsbRead (start msbAt : ℕ) (highBits : BitVec 32)
  | lsbAsked (start msbAt lsbAt : ℕ) (highBits : BitVec 32)
  | reading (address : BitVec 16)
  | asked

/-- A call of `portalCycleCount` that has returned: its thread and its value, when it was called, from when its halves
are, and when it returned. -/
structure CycleRead (ι : Type) where
  thread : ι
  value : BitVec 64
  start : ℕ
  msbAt : ℕ
  lsbAt : ℕ
  stop : ℕ
  deriving DecidableEq

namespace CycleThread

/-- The address that the thread reads next. -/
def address : CycleThread → Option (BitVec 16)
  | msbRead _ => some Directory.counterMsb
  | lsbRead _ _ _ => some Directory.counterLsb
  | reading address => some address
  | _ => none

/-- The thread when its read has come to the directory, where the lower half is from the time `snapshotAt`. -/
def ask (now snapshotAt : ℕ) : CycleThread → CycleThread
  | msbRead start => msbAsked start now
  | lsbRead start msbAt highBits => lsbAsked start msbAt snapshotAt highBits
  | _ => asked

end CycleThread

/-- The value that `portalCycleCount` returns. -/
def cycleValue (highBits lowBits : BitVec 32) : BitVec 64 := (highBits.setWidth 64 <<< 32) ||| lowBits.setWidth 64

/-- The directory and the threads, with the time, and the time that `snapshot` is from. -/
structure CycleReads (ι : Type) where
  directory : Directory ι
  threads : ι → CycleThread
  now : ℕ
  snapshotAt : ℕ

namespace CycleReads

variable {ι : Type} [DecidableEq ι]

def reset : CycleReads ι := ⟨.reset, fun _ => .idle, 0, 0⟩

/-- A cycle passes; a thread calls `portalCycleCount`, or reads some register; its read comes to the directory; rule
`req1`; and an answer comes back. -/
inductive Action (ι : Type)
  | count
  | call (i : ι)
  | readl (i : ι) (address : BitVec 16)
  | put (i : ι)
  | req1
  | get

/-- A thread calls `portalCycleCount`. -/
def call (s : CycleReads ι) (i : ι) : Option (CycleReads ι) :=
  match s.threads i with
  | .idle => some { s with threads := Function.update s.threads i (.msbRead s.now) }
  | _ => none

/-- A thread reads a register for other reasons. -/
def readl (s : CycleReads ι) (i : ι) (address : BitVec 16) : Option (CycleReads ι) :=
  match s.threads i with
  | .idle => some { s with threads := Function.update s.threads i (.reading address) }
  | _ => none

/-- The read of a thread comes to the directory. -/
def put (portals : List (BitVec 32 × BitVec 32)) (s : CycleReads ι) (i : ι) : Option (CycleReads ι) := do
  let address ← (s.threads i).address
  let directory ← s.directory.request portals i address
  let snapshotAt := if address = Directory.counterMsb then s.now else s.snapshotAt
  return { s with
    directory, snapshotAt
    threads := Function.update s.threads i ((s.threads i).ask s.now snapshotAt) }

/-- An answer comes back to its thread, which goes on or returns. -/
def get (s : CycleReads ι) : Option (CycleReads ι × List (CycleRead ι)) := do
  let ((i, x), directory) ← s.directory.response
  match s.threads i with
  | .msbAsked start msbAt =>
    return ({ s with directory, threads := Function.update s.threads i (.lsbRead start msbAt x) }, [])
  | .lsbAsked start msbAt lsbAt highBits =>
    return ({ s with directory, threads := Function.update s.threads i .idle },
      [⟨i, cycleValue highBits x, start, msbAt, lsbAt, s.now⟩])
  | _ => return ({ s with directory, threads := Function.update s.threads i .idle }, [])

def step (portals : List (BitVec 32 × BitVec 32)) (s : CycleReads ι) :
    Action ι → Option (CycleReads ι × List (CycleRead ι))
  | .count => some ({ s with directory := s.directory.count, now := s.now + 1 }, [])
  | .call i => (s.call i).map fun s' => (s', [])
  | .readl i address => (s.readl i address).map fun s' => (s', [])
  | .put i => (s.put portals i).map fun s' => (s', [])
  | .req1 => (s.directory.req1 portals).map fun directory => ({ s with directory }, [])
  | .get => s.get

end CycleReads

/-- Any number of threads that call `portalCycleCount` and read registers, as the counter goes on. -/
def cycleReads (ι : Type) [DecidableEq ι] (portals : List (BitVec 32 × BitVec 32)) :
    RuleSystem (CycleReads ι) (CycleReads.Action ι) (CycleRead ι) where
  step s a := s.step portals a

/-! ## Halves of times -/

/-- The upper and the lower half of the counter at a time. -/
def highAt (t : ℕ) : BitVec 32 := (BitVec.ofNat 64 t).extractLsb' 32 32

def lowAt (t : ℕ) : BitVec 32 := (BitVec.ofNat 64 t).setWidth 32

/-- The value that is made of the halves at two times. -/
def mixed (msbAt lsbAt : ℕ) : ℕ := msbAt / 2 ^ 32 * 2 ^ 32 + lsbAt % 2 ^ 32

lemma toNat_cycleValue (highBits lowBits : BitVec 32) :
    (cycleValue highBits lowBits).toNat = highBits.toNat * 2 ^ 32 + lowBits.toNat := by
  have hhigh := highBits.isLt
  have hlow := lowBits.isLt
  rw [cycleValue, BitVec.toNat_or, BitVec.toNat_shiftLeft, BitVec.toNat_setWidth, BitVec.toNat_setWidth,
    Nat.mod_eq_of_lt (by omega), Nat.mod_eq_of_lt (by omega), Nat.shiftLeft_eq, Nat.mod_eq_of_lt (by omega),
    Nat.mul_comm, ← Nat.two_pow_add_eq_or_of_lt hlow]

/-- The halves are what they should be. -/
lemma cycleValue_eq (msbAt lsbAt : ℕ) :
    cycleValue (highAt msbAt) (lowAt lsbAt) = BitVec.ofNat 64 (mixed msbAt lsbAt) := by
  apply BitVec.eq_of_toNat_eq
  rw [toNat_cycleValue, highAt, lowAt, BitVec.extractLsb'_toNat, BitVec.toNat_setWidth, BitVec.toNat_ofNat,
    BitVec.toNat_ofNat, BitVec.toNat_ofNat, Nat.shiftRight_eq_div_pow, mixed]
  omega

/-! ## The calls -/

namespace CycleRead

variable {ι : Type}

/-- **The counter had the value** at some time from the start to the end of the call. -/
def Held (c : CycleRead ι) : Prop := ∃ t, c.start ≤ t ∧ t ≤ c.stop ∧ BitVec.ofNat 64 t = c.value

/-- **The value is torn**: the upper half is that of the start, and the lower one was kept by another thread after a
carry, and is less than that of the start. -/
def Torn (c : CycleRead ι) : Prop := c.start / 2 ^ 32 = c.msbAt / 2 ^ 32 ∧ c.lsbAt % 2 ^ 32 < c.start % 2 ^ 32

instance (c : CycleRead ι) : Decidable c.Torn := inferInstanceAs (Decidable (_ ∧ _))

/-- The times are in order, and the halves are from them. -/
structure Halves (c : CycleRead ι) : Prop where
  msb : c.start ≤ c.msbAt
  lsb : c.msbAt ≤ c.lsbAt
  stop : c.lsbAt ≤ c.stop
  value : c.value = cycleValue (highAt c.msbAt) (lowAt c.lsbAt)

/-- **The calls whose values the counter had**: those that are not torn. (A call that takes almost `2 ^ 64` cycles may
still be going on when the counter comes round to a torn value.) -/
theorem Halves.held_iff_not_torn {c : CycleRead ι} (h : c.Halves) :
    c.Held ↔ ¬c.Torn ∨ mixed c.msbAt c.lsbAt + 2 ^ 64 ≤ c.stop := by
  have hmsb := h.msb
  have hlsb := h.lsb
  have hstop := h.stop
  have hdiv := Nat.div_le_div_right (c := 2 ^ 32) hmsb
  have hdiv' := Nat.div_le_div_right (c := 2 ^ 32) hlsb
  have hheld : c.Held ↔ ∃ t, c.start ≤ t ∧ t ≤ c.stop ∧ t % 2 ^ 64 = mixed c.msbAt c.lsbAt % 2 ^ 64 := by
    rw [Held, h.value, cycleValue_eq]
    simp only [BitVec.toNat_eq, BitVec.toNat_ofNat]
  rw [hheld, Torn, mixed]
  constructor
  · rintro ⟨t, hle, hge, heq⟩
    by_contra hnot
    obtain ⟨htorn, hshort⟩ := not_or.mp hnot
    omega
  · rintro (htorn | hlong)
    · exact ⟨c.msbAt / 2 ^ 32 * 2 ^ 32 + c.lsbAt % 2 ^ 32, by omega, by omega, rfl⟩
    · exact ⟨c.msbAt / 2 ^ 32 * 2 ^ 32 + c.lsbAt % 2 ^ 32 + 2 ^ 64, by omega, hlong, by omega⟩

end CycleRead

/-! ## The invariant -/

namespace CycleThread

/-- What is known of a thread at a time, when the snapshot is from `snapshotAt`. -/
def Known (now snapshotAt : ℕ) : CycleThread → Prop
  | msbRead start => start ≤ now
  | msbAsked start msbAt => start ≤ msbAt ∧ msbAt ≤ snapshotAt
  | lsbRead start msbAt highBits => start ≤ msbAt ∧ msbAt ≤ snapshotAt ∧ highBits = highAt msbAt
  | lsbAsked start msbAt lsbAt highBits =>
    start ≤ msbAt ∧ msbAt ≤ lsbAt ∧ lsbAt ≤ now ∧ highBits = highAt msbAt
  | _ => True

/-- The answer that a thread waits for. -/
def Awaits (x : BitVec 32) : CycleThread → Prop
  | msbAsked _ msbAt => x = highAt msbAt
  | lsbAsked _ _ lsbAt _ => x = lowAt lsbAt
  | asked => True
  | _ => False

/-- A thread that waits for an answer does not read. -/
lemma Awaits.address {x : BitVec 32} {t : CycleThread} (h : t.Awaits x) : t.address = none := by
  cases t with
  | msbAsked start msbAt => rfl
  | lsbAsked start msbAt lsbAt highBits => rfl
  | asked => rfl
  | idle => exact h.elim
  | msbRead start => exact h.elim
  | lsbRead start msbAt highBits => exact h.elim
  | reading address => exact h.elim

/-- As time goes on, no less is known. -/
lemma Known.mono {now now' snapshotAt snapshotAt' : ℕ} {t : CycleThread} (h : t.Known now snapshotAt)
    (hnow : now ≤ now') (hsnap : snapshotAt ≤ snapshotAt') : t.Known now' snapshotAt' := by
  cases t with
  | msbRead start => exact Nat.le_trans h hnow
  | msbAsked start msbAt => exact ⟨h.1, h.2.trans hsnap⟩
  | lsbRead start msbAt highBits => exact ⟨h.1, h.2.1.trans hsnap, h.2.2⟩
  | lsbAsked start msbAt lsbAt highBits => exact ⟨h.1, h.2.1, h.2.2.1.trans hnow, h.2.2.2⟩
  | idle => trivial
  | reading address => trivial
  | asked => trivial

end CycleThread

namespace CycleReads

variable {ι : Type} {portals : List (BitVec 32 × BitVec 32)} {s s' : CycleReads ι}
  {tr es : List (CycleRead ι)}

/-- **The invariant**: the registers are from their times, and the answers under way are those that the threads wait
for. -/
structure Tracks (tr : List (CycleRead ι)) (s : CycleReads ι) : Prop where
  cycleCount : s.directory.cycleCount = BitVec.ofNat 64 s.now
  snapshot : s.directory.snapshot = lowAt s.snapshotAt
  snapshotAt : s.snapshotAt ≤ s.now
  threads : ∀ i, (s.threads i).Known s.now s.snapshotAt
  data : ∀ p ∈ s.directory.dataFifo.items, (s.threads p.1).Awaits p.2
  addr : ∀ p ∈ s.directory.addrFifo.items, s.threads p.1 = .asked
  distinct : ∀ p ∈ s.directory.addrFifo.items, ∀ q ∈ s.directory.dataFifo.items, p.1 ≠ q.1
  returned : ∀ c ∈ tr, c.Halves

lemma tracks_reset : Tracks [] (reset : CycleReads ι) where
  cycleCount := rfl
  snapshot := rfl
  snapshotAt := Nat.le_refl _
  threads := fun _ => trivial
  data := fun _ h => absurd h List.not_mem_nil
  addr := fun _ h => absurd h List.not_mem_nil
  distinct := fun _ h => absurd h List.not_mem_nil
  returned := fun _ h => absurd h List.not_mem_nil

/-- What the directory does with a read: it answers, or keeps the address of another register. -/
lemma request_eq_some {d d' : Directory ι} {i : ι} {address : BitVec 16}
    (h : d.request portals i address = some d') :
    d.addrFifo.items = [] ∧ d'.cycleCount = d.cycleCount ∧
      ((d.dataFifo.items = [] ∧ d'.addrFifo = d.addrFifo ∧ ∃ x, d'.dataFifo.items = [(i, x)] ∧
          (address = Directory.counterMsb → x = d.cycleCount.extractLsb' 32 32) ∧
          (address = Directory.counterLsb → x = d.snapshot)) ∨
        (d'.addrFifo.items = [(i, address)] ∧ d'.dataFifo = d.dataFifo ∧ address ≠ Directory.counterMsb ∧
          address ≠ Directory.counterLsb)) ∧
      d'.snapshot = if address = Directory.counterMsb then d.cycleCount.setWidth 32 else d.snapshot := by
  have hanswer : ∀ {e e' : Directory ι} {x : BitVec 32}, e.answer i x = some e' →
      e.dataFifo.items = [] ∧ e'.dataFifo.items = [(i, x)] ∧ e'.addrFifo = e.addrFifo ∧
        e'.cycleCount = e.cycleCount ∧ e'.snapshot = e.snapshot := by
    intro e e' x he
    obtain ⟨fifo, henq, heq⟩ := Option.bind_eq_some_iff.mp he
    cases heq
    obtain ⟨hroom, hitems⟩ := Fifo.enq_eq_some.mp henq
    have hnil : e.dataFifo.items = [] := List.eq_nil_of_length_eq_zero (by omega)
    exact ⟨hnil, by rw [hitems, hnil]; rfl, rfl, rfl, rfl⟩
  unfold Directory.request at h
  split at h
  · cases h
  rename_i hnil
  rw [not_not] at hnil
  refine ⟨hnil, ?_⟩
  -- The registers before the counter, and then the counter.
  iterate 4
    split at h
    · rename_i haddress
      obtain ⟨hdata, hitems, haddr, hcycle, hsnap⟩ := hanswer h
      have hmsb : address ≠ Directory.counterMsb := by rw [haddress]; decide
      have hlsb : address ≠ Directory.counterLsb := by rw [haddress]; decide
      exact ⟨hcycle, .inl ⟨hdata, haddr, _, hitems, fun h0 => absurd h0 hmsb, fun h0 => absurd h0 hlsb⟩,
        by rw [if_neg hmsb]; exact hsnap⟩
  split at h
  · rename_i hmsb
    obtain ⟨hdata, hitems, haddr, hcycle, hsnap⟩ := hanswer h
    have hlsb : address ≠ Directory.counterLsb := by rw [hmsb]; decide
    exact ⟨hcycle, .inl ⟨hdata, haddr, _, hitems, fun _ => rfl, fun h0 => absurd h0 hlsb⟩,
      by rw [if_pos hmsb]; exact hsnap⟩
  rename_i hmsb
  split at h
  · obtain ⟨hdata, hitems, haddr, hcycle, hsnap⟩ := hanswer h
    exact ⟨hcycle, .inl ⟨hdata, haddr, _, hitems, fun h0 => absurd h0 hmsb, fun _ => rfl⟩,
      by rw [if_neg hmsb]; exact hsnap⟩
  · rename_i hlsb
    obtain ⟨fifo, henq, heq⟩ := Option.bind_eq_some_iff.mp h
    cases heq
    obtain ⟨-, hitems⟩ := Fifo.enq_eq_some.mp henq
    exact ⟨rfl, .inr ⟨by rw [hitems, hnil]; rfl, rfl, hmsb, hlsb⟩, by rw [if_neg hmsb]⟩

/-- A thread whose read comes to the directory. -/
lemma Known.ask {now snapshotAt snapshotAt' : ℕ} {t : CycleThread} {address : BitVec 16}
    (h : t.Known now snapshotAt) (hsnap : snapshotAt ≤ snapshotAt') (hnow : snapshotAt' ≤ now)
    (haddress : t.address = some address) (hmsb : address = Directory.counterMsb → snapshotAt' = now) :
    (t.ask now snapshotAt').Known now snapshotAt' := by
  cases t with
  | msbRead start =>
    cases haddress
    exact ⟨h, (hmsb rfl).ge⟩
  | lsbRead start msbAt highBits => exact ⟨h.1, h.2.1.trans hsnap, hnow, h.2.2⟩
  | reading address => trivial
  | idle => cases haddress
  | msbAsked start msbAt => cases haddress
  | lsbAsked start msbAt lsbAt highBits => cases haddress
  | asked => cases haddress

/-- The answer is the one that it waits for. -/
lemma awaits_ask {now snapshotAt snapshotAt' : ℕ} {t : CycleThread} {address : BitVec 16} {x : BitVec 32}
    (haddress : t.address = some address) (hmsb : address = Directory.counterMsb → x = highAt now)
    (hlsb : address = Directory.counterLsb → x = lowAt snapshotAt ∧ snapshotAt' = snapshotAt) :
    (t.ask now snapshotAt').Awaits x := by
  cases t with
  | msbRead start =>
    cases haddress
    exact hmsb rfl
  | lsbRead start msbAt highBits =>
    cases haddress
    obtain ⟨hx, hsame⟩ := hlsb rfl
    show x = lowAt snapshotAt'
    rw [hsame]
    exact hx
  | reading address => trivial
  | idle => cases haddress
  | msbAsked start msbAt => cases haddress
  | lsbAsked start msbAt lsbAt highBits => cases haddress
  | asked => cases haddress

/-- A thread that reads another register waits for its answer. -/
lemma ask_other {now snapshotAt : ℕ} {t : CycleThread} {address : BitVec 16} (haddress : t.address = some address)
    (hmsb : address ≠ Directory.counterMsb) (hlsb : address ≠ Directory.counterLsb) :
    t.ask now snapshotAt = .asked := by
  cases t with
  | msbRead start =>
    cases haddress
    exact absurd rfl hmsb
  | lsbRead start msbAt highBits =>
    cases haddress
    exact absurd rfl hlsb
  | reading address => rfl
  | idle => cases haddress
  | msbAsked start msbAt => cases haddress
  | lsbAsked start msbAt lsbAt highBits => cases haddress
  | asked => cases haddress

lemma Tracks.req1 (h : Tracks tr s) {directory : Directory ι} (hstep : s.directory.req1 portals = some directory) :
    Tracks tr { s with directory } := by
  simp only [Directory.req1, Directory.answer, Option.bind_eq_bind, Option.bind_eq_some_iff, Prod.exists,
    Fifo.deq_eq_some, Fifo.enq_eq_some, Option.pure_def, Option.some.injEq] at hstep
  obtain ⟨i, addr, addrFifo, haddr, dataFifo, ⟨hroom, hitems⟩, rfl⟩ := hstep
  have hone := s.directory.addrFifo.length_le
  rw [haddr, List.length_cons] at hone
  have hnil : addrFifo.items = [] := List.eq_nil_of_length_eq_zero (by omega)
  have hempty : s.directory.dataFifo.items = [] := List.eq_nil_of_length_eq_zero (by omega)
  rw [hempty, List.nil_append] at hitems
  refine ⟨h.cycleCount, h.snapshot, h.snapshotAt, h.threads, fun q hq => ?_, fun p hp => ?_, fun p hp => ?_, h.returned⟩
  · dsimp only at hq
    rw [hitems, List.mem_singleton] at hq
    subst hq
    show (s.threads i).Awaits _
    rw [h.addr (i, addr) (haddr ▸ List.mem_cons_self)]
    trivial
  · dsimp only at hp
    rw [hnil] at hp
    cases hp
  · dsimp only at hp
    rw [hnil] at hp
    cases hp

variable [DecidableEq ι]

/-- A thread that does not wait for an answer goes on. -/
lemma Tracks.update (h : Tracks tr s) {i : ι} (hi : s.threads i = .idle) {t : CycleThread}
    (ht : t.Known s.now s.snapshotAt) : Tracks tr { s with threads := Function.update s.threads i t } := by
  have hne : ∀ j, s.threads j ≠ .idle → j ≠ i := by
    rintro j hj rfl
    exact hj hi
  refine ⟨h.cycleCount, h.snapshot, h.snapshotAt, fun j => ?_, fun p hp => ?_, fun p hp => ?_, h.distinct, h.returned⟩
  · show (Function.update s.threads i t j).Known _ _
    by_cases hj : j = i
    · subst hj
      rw [Function.update_self]
      exact ht
    · rw [Function.update_of_ne hj]
      exact h.threads j
  · have hawaits := h.data p hp
    show (Function.update s.threads i t p.1).Awaits p.2
    rw [Function.update_of_ne (hne p.1 fun h0 => by rw [h0] at hawaits; exact hawaits)]
    exact hawaits
  · show Function.update s.threads i t p.1 = .asked
    rw [Function.update_of_ne (hne p.1 (by rw [h.addr p hp]; exact CycleThread.noConfusion))]
    exact h.addr p hp

lemma Tracks.put (h : Tracks tr s) {i : ι} (hstep : s.put portals i = some s') : Tracks tr s' := by
  simp only [CycleReads.put, Option.bind_eq_bind, Option.bind_eq_some_iff, Option.pure_def, Option.some.injEq]
    at hstep
  obtain ⟨address, haddress, directory, hrequest, rfl⟩ := hstep
  obtain ⟨hnil, hcycle, hcases, hsnapshot⟩ := request_eq_some hrequest
  have hnow := h.snapshotAt
  set snapshotAt := if address = Directory.counterMsb then s.now else s.snapshotAt with hdef
  have hsnap : s.snapshotAt ≤ snapshotAt := by
    rw [hdef]
    split <;> omega
  have hle : snapshotAt ≤ s.now := by
    rw [hdef]
    split <;> omega
  have hmsb : address = Directory.counterMsb → snapshotAt = s.now := fun h0 => if_pos h0
  have hwaits : ∀ q ∈ s.directory.dataFifo.items, q.1 ≠ i := by
    rintro q hq rfl
    rw [(h.data q hq).address] at haddress
    cases haddress
  refine ⟨hcycle.trans h.cycleCount, ?_, hle, fun j => ?_, ?_, ?_, ?_, h.returned⟩
  · show directory.snapshot = lowAt snapshotAt
    rw [hsnapshot, hdef]
    split
    · rw [h.cycleCount]
      rfl
    · exact h.snapshot
  · show (Function.update s.threads i _ j).Known s.now snapshotAt
    by_cases hj : j = i
    · subst hj
      rw [Function.update_self]
      exact Known.ask (h.threads j) hsnap hle haddress hmsb
    · rw [Function.update_of_ne hj]
      exact (h.threads j).mono (Nat.le_refl _) hsnap
  · intro q hq
    show (Function.update s.threads i _ q.1).Awaits q.2
    rcases hcases with ⟨-, -, x, hitems, hx, hx'⟩ | ⟨-, hdata, -, -⟩
    · rw [hitems, List.mem_singleton] at hq
      subst hq
      rw [Function.update_self]
      refine @awaits_ask _ s.snapshotAt _ _ _ _ haddress (fun h0 => ?_) fun h0 => ⟨?_, ?_⟩
      · rw [hx h0, h.cycleCount]
        rfl
      · rw [hx' h0, h.snapshot]
      · rw [hdef, if_neg]
        rw [h0]
        decide
    · rw [hdata] at hq
      rw [Function.update_of_ne (hwaits q hq)]
      exact h.data q hq
  · intro p hp
    show Function.update s.threads i _ p.1 = _
    rcases hcases with ⟨-, haddr, -⟩ | ⟨hitems, -, hother, hother'⟩
    · rw [haddr, hnil] at hp
      cases hp
    · rw [hitems, List.mem_singleton] at hp
      subst hp
      rw [Function.update_self]
      exact ask_other haddress hother hother'
  · intro p hp q hq
    rcases hcases with ⟨-, haddr, -⟩ | ⟨hitems, hdata, -, -⟩
    · rw [haddr, hnil] at hp
      cases hp
    · rw [hitems, List.mem_singleton] at hp
      rw [hdata] at hq
      subst hp
      exact (hwaits q hq).symm

/-- A thread goes on with its answer. -/
lemma Tracks.resume (h : Tracks tr s) {i : ι} {x : BitVec 32} {rest : Fifo 1 (ι × BitVec 32)}
    (hitems : s.directory.dataFifo.items = (i, x) :: rest.items) {t : CycleThread}
    (ht : t.Known s.now s.snapshotAt) (hes : ∀ c ∈ es, c.Halves) :
    Tracks (tr ++ es) { s with
      directory := { s.directory with dataFifo := rest }, threads := Function.update s.threads i t } := by
  have hone := s.directory.dataFifo.length_le
  rw [hitems, List.length_cons] at hone
  have hnil : rest.items = [] := List.eq_nil_of_length_eq_zero (by omega)
  have hne : ∀ p ∈ s.directory.addrFifo.items, p.1 ≠ i := fun p hp =>
    h.distinct p hp (i, x) (hitems ▸ List.mem_cons_self)
  refine ⟨h.cycleCount, h.snapshot, h.snapshotAt, fun j => ?_, fun q hq => ?_, fun p hp => ?_, fun p _ q hq => ?_,
    fun c hc => ?_⟩
  · show (Function.update s.threads i t j).Known _ _
    by_cases hj : j = i
    · subst hj
      rw [Function.update_self]
      exact ht
    · rw [Function.update_of_ne hj]
      exact h.threads j
  · dsimp only at hq
    rw [hnil] at hq
    cases hq
  · show Function.update s.threads i t p.1 = _
    rw [Function.update_of_ne (hne p hp)]
    exact h.addr p hp
  · dsimp only at hq
    rw [hnil] at hq
    cases hq
  · rcases List.mem_append.mp hc with hc | hc
    · exact h.returned c hc
    · exact hes c hc

lemma Tracks.get (h : Tracks tr s) (hstep : s.get = some (s', es)) : Tracks (tr ++ es) s' := by
  simp only [CycleReads.get, Directory.response, Option.bind_eq_bind, Option.bind_eq_some_iff, Prod.exists,
    Fifo.deq_eq_some, Option.pure_def, Option.some.injEq, Prod.mk.injEq] at hstep
  obtain ⟨i, x, directory, ⟨j, y, rest, hitems, ⟨rfl, rfl⟩, rfl⟩, hstep⟩ := hstep
  have hknown := h.threads j
  have hawaits := h.data (j, y) (hitems ▸ List.mem_cons_self)
  dsimp only at hawaits
  split at hstep
  · rename_i start msbAt ht
    cases hstep
    rw [ht] at hknown hawaits
    exact h.resume hitems ⟨hknown.1, hknown.2, hawaits⟩ fun _ hc => absurd hc List.not_mem_nil
  · rename_i start msbAt lsbAt highBits ht
    cases hstep
    rw [ht] at hknown hawaits
    refine h.resume hitems trivial fun c hc => ?_
    rw [List.mem_singleton.mp hc]
    refine ⟨hknown.1, hknown.2.1, hknown.2.2.1, ?_⟩
    show cycleValue highBits y = _
    rw [hknown.2.2.2, hawaits]
  · cases hstep
    exact h.resume hitems trivial fun _ hc => absurd hc List.not_mem_nil

/-- The invariant survives all steps. -/
theorem Tracks.step (h : Tracks tr s) {a : Action ι} (hstep : (cycleReads ι portals).step s a = some (s', es)) :
    Tracks (tr ++ es) s' := by
  cases a with
  | count =>
    cases hstep
    rw [List.append_nil]
    refine ⟨?_, h.snapshot, Nat.le_succ_of_le h.snapshotAt, fun i => ?_, h.data, h.addr, h.distinct, h.returned⟩
    · show s.directory.cycleCount + 1 = _
      rw [h.cycleCount, BitVec.ofNat_add]
      rfl
    · exact (h.threads i).mono (Nat.le_succ _) (Nat.le_refl _)
  | call i =>
    obtain ⟨s₁, hs, heq⟩ := Option.map_eq_some_iff.mp hstep
    cases heq
    rw [List.append_nil]
    unfold CycleReads.call at hs
    split at hs
    · cases hs
      exact h.update ‹_› (Nat.le_refl _)
    · cases hs
  | readl i address =>
    obtain ⟨s₁, hs, heq⟩ := Option.map_eq_some_iff.mp hstep
    cases heq
    rw [List.append_nil]
    unfold CycleReads.readl at hs
    split at hs
    · cases hs
      exact h.update ‹_› trivial
    · cases hs
  | put i =>
    obtain ⟨s₁, hs, heq⟩ := Option.map_eq_some_iff.mp hstep
    cases heq
    rw [List.append_nil]
    exact h.put hs
  | req1 =>
    obtain ⟨directory, hs, heq⟩ := Option.map_eq_some_iff.mp hstep
    cases heq
    rw [List.append_nil]
    exact h.req1 hs
  | get => exact h.get hstep

/-! ## The runs -/

/-- In all runs the halves are from times of the call, in order. -/
theorem halves_of_reaches (h : (cycleReads ι portals).Reaches .reset tr s) : ∀ c ∈ tr, c.Halves :=
  (h.invariant (I := Tracks) tracks_reset fun hs hstep => hs.step hstep).returned

/-- **The calls whose values the counter had**, in all runs of any number of threads: those that are not torn, and those
that go on until the counter has come round to the torn value. -/
theorem held_iff {ι : Type} [DecidableEq ι] {portals : List (BitVec 32 × BitVec 32)} {tr : List (CycleRead ι)}
    {s : CycleReads ι} (h : (cycleReads ι portals).Reaches .reset tr s) :
    ∀ c ∈ tr, (c.Held ↔ ¬c.Torn ∨ mixed c.msbAt c.lsbAt + 2 ^ 64 ≤ c.stop) :=
  fun c hc => (halves_of_reaches h c hc).held_iff_not_torn

/-- A call is right if its lower half is from its own read of the upper one. -/
theorem held_of_alone (h : (cycleReads ι portals).Reaches .reset tr s) {c : CycleRead ι} (hc : c ∈ tr)
    (hown : c.lsbAt = c.msbAt) : c.Held := by
  have hhalves := halves_of_reaches h c hc
  refine hhalves.held_iff_not_torn.mpr (.inl ?_)
  rintro ⟨hhigh, hlow⟩
  have hmsb := hhalves.msb
  rw [hown] at hlow
  omega

/-- The counter goes on by itself. -/
lemma reaches_now (portals : List (BitVec 32 × BitVec 32)) (n : ℕ) :
    (cycleReads ι portals).Reaches .reset []
      { reset with directory := { Directory.reset with cycleCount := BitVec.ofNat 64 n }, now := n } := by
  induction n with
  | zero => exact .refl
  | succ n ih =>
    have hcount := ih.step .count rfl
    rw [BitVec.ofNat_add]
    exact hcount

/-- One cycle before the carry. -/
def beforeCarry : CycleReads Bool :=
  { reset with
    directory := { Directory.reset with cycleCount := 0xffffffff }
    now := 0xffffffff }

/-- Runs from there. -/
lemma reaches_beforeCarry {s : CycleReads Bool} {tr : List (CycleRead Bool)}
    (h : (cycleReads Bool []).Reaches beforeCarry tr s) : (cycleReads Bool []).Reaches .reset tr s := by
  have hnow : (cycleReads Bool []).Reaches .reset [] beforeCarry := reaches_now [] 0xffffffff
  have hall := hnow.trans h
  rwa [List.nil_append] at hall

/-- A thread reads both halves before and after the carry, by itself. -/
def aloneCall :=
  (cycleReads Bool []).run beforeCarry [.call true, .put true, .get, .count, .put true, .get]

/-- It gets the value from before the carry. -/
theorem held_iff_aloneCall :
    aloneCall.2 = [⟨true, 0xffffffff, 0xffffffff, 0xffffffff, 0xffffffff, 0x100000000⟩] ∧
      ∀ c ∈ aloneCall.2, c.Held := by
  have hreaches : (cycleReads Bool []).Reaches .reset aloneCall.2 aloneCall.1 :=
    reaches_beforeCarry (RuleSystem.reaches_run _ _)
  have hcalls : aloneCall.2 = [⟨true, 0xffffffff, 0xffffffff, 0xffffffff, 0xffffffff, 0x100000000⟩] := by
    decide +kernel
  refine ⟨hcalls, fun c hc => (held_iff hreaches c hc).mpr (.inl ?_)⟩
  rw [hcalls, List.mem_singleton] at hc
  subst hc
  decide

/-- A second thread reads the upper half after the carry, before the first thread reads the lower one. -/
def tornCall :=
  (cycleReads Bool []).run beforeCarry
    [.call true, .put true, .get, .count, .call false, .put false, .get, .put true, .get]

/-- The first thread gets the value 0. -/
theorem not_held_tornCall :
    (cycleReads Bool []).Reaches .reset tornCall.2 tornCall.1 ∧
      tornCall.2 = [⟨true, 0, 0xffffffff, 0xffffffff, 0x100000000, 0x100000000⟩] ∧ ¬∀ c ∈ tornCall.2, c.Held := by
  have hcalls : tornCall.2 = [⟨true, 0, 0xffffffff, 0xffffffff, 0x100000000, 0x100000000⟩] := by decide +kernel
  refine ⟨reaches_beforeCarry (RuleSystem.reaches_run _ _), hcalls, fun hall => ?_⟩
  obtain ⟨t, hstart, hstop, hvalue⟩ := hall _ (hcalls ▸ List.mem_cons_self)
  have hnat := congrArg BitVec.toNat hvalue
  rw [BitVec.toNat_ofNat, show (0 : BitVec 64).toNat = 0 from rfl] at hnat
  dsimp only at hstart hstop
  omega

end CycleReads

end Xbsv
