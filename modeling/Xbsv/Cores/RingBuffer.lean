import Mathlib.Data.BitVec
import Xbsv.Bits.Rounds
import Xbsv.Rules.System

set_option relaxedAutoImplicit false
set_option autoImplicit false

/-!
# Rings in memory

`mkRingBuffer` of `RingBuffer.bsv` keeps the pointers of a ring in memory, whose slots have 64 bytes. One side puts
messages into the ring. The other side starts to fetch them, and acknowledges them when they have arrived: then their
slots are free. Each of the three calls advances a pointer of its own under a mask.

The calls have no guards. Whether there is a message to fetch, or a free slot, is read off the pointers, which tell the
numbers of calls up to whole rounds only. It is right because one slot stays free, so that the pointer that writes is
never a whole round ahead of the one that acknowledges.

## Main definitions

* `Xbsv.RingBuffer`, `Xbsv.ringBuffer` — the module, and its runs.
* `Xbsv.RingBuffer.Permits` — the calls that are made.
* `Xbsv.RingBuffer.Counts` — what the pointers tell of the numbers of calls.

## Main results

* `Xbsv.RingBuffer.get_set` — the registers hold what is written to them.
* `Xbsv.RingBuffer.Tracks.notEmpty_iff`, `Xbsv.RingBuffer.Tracks.notFull_iff` — the counts from the pointers.
* `Xbsv.RingBuffer.counts_of_permitted` — in every state of every run.
-/

namespace Xbsv

open Rules Bits

/-! ## The source -/

/-- The state of `mkRingBuffer`. -/
@[ext]
structure RingBuffer where
  rbufferbase : BitVec 40
  rbufferend : BitVec 40
  rbufferfirst : BitVec 40
  rbufferlastfetch : BitVec 40
  rbufferlastack : BitVec 40
  rbuffermask : BitVec 40
  rmempointer : BitVec 32
  renable : Bool
  deriving DecidableEq

namespace RingBuffer

def reset : RingBuffer := ⟨0, 0, 0, 0, 0, 0, 0, false⟩

/-- The methods, and the writes to the registers of the interface. -/
inductive Action
  | push
  | popfetch
  | popack
  | set (regist : BitVec 3) (addr : BitVec 64)
  | setFirst (addr : BitVec 64)
  | setLast (addr : BitVec 64)
  | bufferfirst (x : BitVec 40)
  | bufferlastfetch (x : BitVec 40)
  | enable (b : Bool)
  | mempointer (x : BitVec 32)

/-- A message is put into the ring, started to be fetched, and acknowledged. -/
inductive Event
  | pushed
  | fetched
  | acked
  deriving DecidableEq

variable (s : RingBuffer)

/-- Method `set`. -/
def set (regist : BitVec 3) (addr : BitVec 64) : RingBuffer :=
  if regist = 0 then { s with rbufferbase := addr.setWidth 40 }
  else if regist = 1 then { s with rbufferend := addr.setWidth 40 }
  else if regist = 2 then { s with rbufferfirst := addr.setWidth 40 }
  else if regist = 3 then { s with rbufferlastfetch := addr.setWidth 40 }
  else if regist = 4 then { s with rbuffermask := addr.setWidth 40 }
  else if regist = 5 then { s with rmempointer := addr.setWidth 32 }
  else if regist = 6 then { s with rbufferlastack := addr.setWidth 40 }
  else { s with renable := addr.getLsbD 0 }

/-- Method `setFirst`. -/
def setFirst (addr : BitVec 64) : RingBuffer := { s with rbufferfirst := addr.setWidth 40 }

/-- Method `setLast`. -/
def setLast (addr : BitVec 64) : RingBuffer :=
  { s with rbufferlastfetch := addr.setWidth 40, rbufferlastack := addr.setWidth 40 }

/-- Method `get`. -/
def get (regist : BitVec 3) : BitVec 64 :=
  if regist = 0 then s.rbufferbase.setWidth 64
  else if regist = 1 then s.rbufferend.setWidth 64
  else if regist = 2 then s.rbufferfirst.setWidth 64
  else if regist = 3 then s.rbufferlastfetch.setWidth 64
  else if regist = 4 then s.rbuffermask.setWidth 64
  else if regist = 5 then s.rmempointer.setWidth 64
  else if regist = 6 then s.rbufferlastack.setWidth 64
  else (BitVec.ofBool s.renable).setWidth 64

/-- `(x + 64) & rbuffermask`, the slot after `x`. -/
def next (x : BitVec 40) : BitVec 40 := (x + 64) &&& s.rbuffermask

/-- Method `notEmpty`. -/
def notEmpty : Bool := s.rbufferfirst ≠ s.rbufferlastfetch

/-- Method `notFull`. -/
def notFull : Bool := s.next s.rbufferfirst ≠ s.rbufferlastack

/-- Method `push`. -/
def push : RingBuffer := { s with rbufferfirst := s.next s.rbufferfirst }

/-- Method `popfetch`. -/
def popfetch : RingBuffer := { s with rbufferlastfetch := s.next s.rbufferlastfetch }

/-- Method `popack`. -/
def popack : RingBuffer := { s with rbufferlastack := s.next s.rbufferlastack }

def step : Action → Option (RingBuffer × List Event)
  | .push => some (s.push, [.pushed])
  | .popfetch => some (s.popfetch, [.fetched])
  | .popack => some (s.popack, [.acked])
  | .set regist addr => some (s.set regist addr, [])
  | .setFirst addr => some (s.setFirst addr, [])
  | .setLast addr => some (s.setLast addr, [])
  | .bufferfirst x => some ({ s with rbufferfirst := x }, [])
  | .bufferlastfetch x => some ({ s with rbufferlastfetch := x }, [])
  | .enable b => some ({ s with renable := b }, [])
  | .mempointer x => some ({ s with rmempointer := x }, [])

end RingBuffer

/-- The module, with calls of its methods at any times. -/
def ringBuffer : RuleSystem RingBuffer RingBuffer.Action RingBuffer.Event where
  step s a := s.step a

namespace RingBuffer

/-! ## The registers -/

/-- The number of bits that a register keeps of what is written to it. -/
def registWidth (regist : BitVec 3) : ℕ := if regist = 5 then 32 else if regist = 7 then 1 else 40

/-- **The registers hold what is written to them**, cut to their widths, and a write to one of them leaves the others as
they are. -/
theorem get_set (s : RingBuffer) (regist regist' : BitVec 3) (addr : BitVec 64) :
    (s.set regist addr).get regist' =
      if regist' = regist then (addr.setWidth (registWidth regist)).setWidth 64 else s.get regist' := by
  have height : ∀ r : BitVec 3, r = 0 ∨ r = 1 ∨ r = 2 ∨ r = 3 ∨ r = 4 ∨ r = 5 ∨ r = 6 ∨ r = 7 := by decide
  rcases height regist with rfl | rfl | rfl | rfl | rfl | rfl | rfl | rfl <;>
    rcases height regist' with rfl | rfl | rfl | rfl | rfl | rfl | rfl | rfl <;>
    first | rfl | exact congrArg (BitVec.setWidth 64) BitVec.setWidth_one.symm

/-! ## The calls that are made -/

/-- The number of messages that were put into the ring. -/
def pushes (tr : List Event) : ℕ := tr.count .pushed

/-- The number of them that were started to be fetched. -/
def fetches (tr : List Event) : ℕ := tr.count .fetched

/-- The number of them that were acknowledged. -/
def acks (tr : List Event) : ℕ := tr.count .acked

/-- The calls that are made after a trace: `push` when `notFull` is on, `popfetch` when `notEmpty` is on, and `popack`
when there is a fetch to acknowledge. The pointers and the mask are not written to. -/
def Permits (s : RingBuffer × List Event) : Action → Prop
  | .push => s.1.notFull = true
  | .popfetch => s.1.notEmpty = true
  | .popack => acks s.2 < fetches s.2
  | .set regist _ => regist ≠ 2 ∧ regist ≠ 3 ∧ regist ≠ 4 ∧ regist ≠ 6
  | .setFirst _ | .setLast _ | .bufferfirst _ | .bufferlastfetch _ => False
  | .enable _ | .mempointer _ => True

instance (s : RingBuffer × List Event) : ∀ a, Decidable (Permits s a)
  | .push => inferInstanceAs (Decidable (s.1.notFull = true))
  | .popfetch => inferInstanceAs (Decidable (s.1.notEmpty = true))
  | .popack => inferInstanceAs (Decidable (acks s.2 < fetches s.2))
  | .set regist _ => inferInstanceAs (Decidable (regist ≠ 2 ∧ regist ≠ 3 ∧ regist ≠ 4 ∧ regist ≠ 6))
  | .setFirst _ | .setLast _ | .bufferfirst _ | .bufferlastfetch _ => inferInstanceAs (Decidable False)
  | .enable _ | .mempointer _ => inferInstanceAs (Decidable True)

/-- A number of slots that a mask can tell. -/
structure Sized (N : ℕ) : Prop where
  pow : ∃ k, N = 2 ^ k
  two_le : 2 ≤ N
  fits : N * 64 ≤ 2 ^ 40

/-- A pointer to one of `N` slots. -/
structure IsSlot (N : ℕ) (x : BitVec 40) : Prop where
  dvd : 64 ∣ x.toNat
  lt : x.toNat < N * 64

/-- The module is configured for `N` slots, and the ring is empty, with its pointers at `p`. -/
structure Configured (N : ℕ) (p : BitVec 40) (s : RingBuffer) : Prop where
  mask : s.rbuffermask = BitVec.ofNat 40 (N * 64 - 1)
  first : s.rbufferfirst = p
  lastfetch : s.rbufferlastfetch = p
  lastack : s.rbufferlastack = p
  slot : IsSlot N p

/-- **What the pointers tell of the numbers of calls**, for `N` slots and pointers that were at `p`. -/
structure Counts (N : ℕ) (p : BitVec 40) (tr : List Event) (s : RingBuffer) : Prop where
  first_slot : IsSlot N s.rbufferfirst
  lastfetch_slot : IsSlot N s.rbufferlastfetch
  lastack_slot : IsSlot N s.rbufferlastack
  room : pushes tr - acks tr ≤ N - 1
  acks_le : acks tr ≤ fetches tr
  fetches_le : fetches tr ≤ pushes tr
  notEmpty : s.notEmpty = true ↔ fetches tr < pushes tr
  notFull : s.notFull = true ↔ pushes tr - acks tr < N - 1
  first : s.rbufferfirst.toNat = (p.toNat + 64 * pushes tr) % (N * 64)
  lastfetch : s.rbufferlastfetch.toNat = (p.toNat + 64 * fetches tr) % (N * 64)
  lastack : s.rbufferlastack.toNat = (p.toNat + 64 * acks tr) % (N * 64)

section Traces

variable (tr es : List Event)

@[simp] lemma pushes_append : pushes (tr ++ es) = pushes tr + pushes es := List.count_append

@[simp] lemma fetches_append : fetches (tr ++ es) = fetches tr + fetches es := List.count_append

@[simp] lemma acks_append : acks (tr ++ es) = acks tr + acks es := List.count_append

end Traces

/-! ## The invariant -/

variable {N : ℕ} {p : BitVec 40} {s s' : RingBuffer} {tr es : List Event}

/-- **The invariant**: each pointer has gone as many steps round the ring as there have been calls, and they keep their
order, within one slot less than a round. -/
structure Tracks (N : ℕ) (p : BitVec 40) (tr : List Event) (s : RingBuffer) : Prop where
  mask : s.rbuffermask.toNat = N * 64 - 1
  first : s.rbufferfirst.toNat = place N 64 p.toNat (pushes tr)
  lastfetch : s.rbufferlastfetch.toNat = place N 64 p.toNat (fetches tr)
  lastack : s.rbufferlastack.toNat = place N 64 p.toNat (acks tr)
  acks_le : acks tr ≤ fetches tr
  fetches_le : fetches tr ≤ pushes tr
  room : pushes tr < acks tr + N

/-- The slot after another. -/
lemma toNat_next (hN : Sized N) (hmask : s.rbuffermask.toNat = N * 64 - 1) {x : BitVec 40} {c k : ℕ}
    (hx : x.toNat = place N 64 c k) : (s.next x).toNat = place N 64 c (k + 1) := by
  obtain ⟨j, rfl⟩ := hN.pow
  have hround : 2 ^ j * 64 = 2 ^ (j + 6) := by rw [Nat.pow_add]
  have hle : j + 6 ≤ 40 := by
    have hfits := hN.fits
    rw [hround] at hfits
    exact (Nat.pow_le_pow_iff_right Nat.one_lt_two).mp hfits
  rw [hround] at hmask
  rw [next, toNat_add_and hle hmask, place_succ, hx, hround]
  rfl

lemma Configured.tracks (hN : Sized N) (h : s.Configured N p) : Tracks N p [] s := by
  have htwo := hN.two_le
  have hfits := hN.fits
  have hplace : p.toNat = place N 64 p.toNat 0 := (place_zero h.slot.lt).symm
  refine ⟨?_, ?_, ?_, ?_, Nat.le_refl _, Nat.le_refl _, ?_⟩
  · rw [h.mask, BitVec.toNat_ofNat, Nat.mod_eq_of_lt (by omega)]
  · rw [h.first]
    exact hplace
  · rw [h.lastfetch]
    exact hplace
  · rw [h.lastack]
    exact hplace
  · show 0 < 0 + N
    omega

/-- **Emptiness from the pointers**: they are different as long as there are less fetches than messages. -/
theorem Tracks.notEmpty_iff (h : Tracks N p tr s) : s.notEmpty = true ↔ fetches tr < pushes tr := by
  have hle := h.fetches_le
  have hacks := h.acks_le
  have hroom := h.room
  have hinj : place N 64 p.toNat (fetches tr) = place N 64 p.toNat (pushes tr) ↔ fetches tr = pushes tr :=
    place_inj (by decide) hle (by omega)
  rw [notEmpty, decide_eq_true_iff, ne_eq, BitVec.toNat_eq, h.first, h.lastfetch, eq_comm, hinj]
  omega

/-- **Fullness from the pointers**: the slot after the last message is the one to be acknowledged next when the
acknowledgements are one slot less than a round behind. -/
theorem Tracks.notFull_iff (hN : Sized N) (h : Tracks N p tr s) :
    s.notFull = true ↔ pushes tr - acks tr < N - 1 := by
  have hfetches := h.fetches_le
  have hacks := h.acks_le
  have hroom := h.room
  have htwo := hN.two_le
  -- Seen from the next message, the acknowledgements are a whole round ahead.
  have hinj : place N 64 p.toNat (pushes tr + 1) = place N 64 p.toNat (acks tr + N) ↔
      pushes tr + 1 = acks tr + N := place_inj (by decide) hroom (by omega)
  rw [place_add_round] at hinj
  rw [notFull, decide_eq_true_iff, ne_eq, BitVec.toNat_eq, toNat_next hN h.mask h.first, h.lastack, hinj]
  omega

/-- Other registers do not matter. -/
lemma Tracks.congr (h : Tracks N p tr s) (hmask : s'.rbuffermask = s.rbuffermask)
    (hfirst : s'.rbufferfirst = s.rbufferfirst) (hfetch : s'.rbufferlastfetch = s.rbufferlastfetch)
    (hack : s'.rbufferlastack = s.rbufferlastack) : Tracks N p (tr ++ []) s' := by
  rw [List.append_nil]
  exact ⟨by rw [hmask, h.mask], by rw [hfirst, h.first], by rw [hfetch, h.lastfetch], by rw [hack, h.lastack],
    h.acks_le, h.fetches_le, h.room⟩

/-- A message is put into a ring that is not full. -/
lemma Tracks.push (hN : Sized N) (h : Tracks N p tr s) (hfull : s.notFull = true) :
    Tracks N p (tr ++ [Event.pushed]) s.push := by
  have hroom := (h.notFull_iff hN).mp hfull
  have hfetches := h.fetches_le
  have htwo := hN.two_le
  have hpushes : pushes (tr ++ [Event.pushed]) = pushes tr + 1 := pushes_append tr _
  have hfetches' : fetches (tr ++ [Event.pushed]) = fetches tr := fetches_append tr _
  have hacks' : acks (tr ++ [Event.pushed]) = acks tr := acks_append tr _
  refine ⟨h.mask, ?_, ?_, ?_, ?_, ?_, ?_⟩
  · rw [hpushes]
    exact toNat_next hN h.mask h.first
  · rw [hfetches']
    exact h.lastfetch
  · rw [hacks']
    exact h.lastack
  · rw [hacks', hfetches']
    exact h.acks_le
  · omega
  · omega

/-- A message is fetched from a ring that is not empty. -/
lemma Tracks.popfetch (hN : Sized N) (h : Tracks N p tr s) (hempty : s.notEmpty = true) :
    Tracks N p (tr ++ [Event.fetched]) s.popfetch := by
  have hlt := h.notEmpty_iff.mp hempty
  have hacks := h.acks_le
  have hpushes' : pushes (tr ++ [Event.fetched]) = pushes tr := pushes_append tr _
  have hfetches : fetches (tr ++ [Event.fetched]) = fetches tr + 1 := fetches_append tr _
  have hacks' : acks (tr ++ [Event.fetched]) = acks tr := acks_append tr _
  refine ⟨h.mask, ?_, ?_, ?_, ?_, ?_, ?_⟩
  · rw [hpushes']
    exact h.first
  · rw [hfetches]
    exact toNat_next hN h.mask h.lastfetch
  · rw [hacks']
    exact h.lastack
  · omega
  · omega
  · rw [hpushes', hacks']
    exact h.room

/-- A fetch is acknowledged. -/
lemma Tracks.popack (hN : Sized N) (h : Tracks N p tr s) (hlt : acks tr < fetches tr) :
    Tracks N p (tr ++ [Event.acked]) s.popack := by
  have hroom := h.room
  have hpushes' : pushes (tr ++ [Event.acked]) = pushes tr := pushes_append tr _
  have hfetches' : fetches (tr ++ [Event.acked]) = fetches tr := fetches_append tr _
  have hacks : acks (tr ++ [Event.acked]) = acks tr + 1 := acks_append tr _
  refine ⟨h.mask, ?_, ?_, ?_, ?_, ?_, ?_⟩
  · rw [hpushes']
    exact h.first
  · rw [hfetches']
    exact h.lastfetch
  · rw [hacks]
    exact toNat_next hN h.mask h.lastack
  · omega
  · rw [hpushes', hfetches']
    exact h.fetches_le
  · omega

/-- A write to one of the other registers. -/
lemma Tracks.set {regist : BitVec 3} (h : Tracks N p tr s)
    (hother : regist ≠ 2 ∧ regist ≠ 3 ∧ regist ≠ 4 ∧ regist ≠ 6) (addr : BitVec 64) :
    Tracks N p (tr ++ []) (s.set regist addr) := by
  obtain ⟨h2, h3, h4, h6⟩ := hother
  rw [RingBuffer.set, if_neg h2, if_neg h3, if_neg h4, if_neg h6]
  split_ifs <;> exact h.congr rfl rfl rfl rfl

/-- **What a step does**: the pointers go on with the counts. -/
theorem Tracks.step (hN : Sized N) (h : Tracks N p tr s) {a : Action} (ha : Permits (s, tr) a)
    (hs : ringBuffer.step s a = some (s', es)) : Tracks N p (tr ++ es) s' := by
  cases a with
  | push =>
    cases hs
    exact h.push hN ha
  | popfetch =>
    cases hs
    exact h.popfetch hN ha
  | popack =>
    cases hs
    exact h.popack hN ha
  | set regist addr =>
    cases hs
    exact h.set ha addr
  | setFirst _ | setLast _ | bufferfirst _ | bufferlastfetch _ => exact absurd ha not_false
  | enable _ | mempointer _ =>
    cases hs
    exact h.congr rfl rfl rfl rfl

/-! ## The runs -/

lemma isSlot_of_place (hN : Sized N) (hp : IsSlot N p) {x : BitVec 40} {k : ℕ} (hx : x.toNat = place N 64 p.toNat k) :
    IsSlot N x := by
  have htwo := hN.two_le
  refine ⟨?_, ?_⟩
  · rw [hx]
    exact dvd_place hp.dvd
  · rw [hx]
    exact place_lt (by omega) (by decide)

lemma Tracks.counts (hN : Sized N) (hp : IsSlot N p) (h : Tracks N p tr s) : Counts N p tr s := by
  have hroom := h.room
  exact {
    first_slot := isSlot_of_place hN hp h.first
    lastfetch_slot := isSlot_of_place hN hp h.lastfetch
    lastack_slot := isSlot_of_place hN hp h.lastack
    room := by omega
    acks_le := h.acks_le
    fetches_le := h.fetches_le
    notEmpty := h.notEmpty_iff
    notFull := h.notFull_iff hN
    first := h.first
    lastfetch := h.lastfetch
    lastack := h.lastack }

/-- **The pointers and the counts**: in every state of every run whose calls are permitted, from a ring that is
configured and empty on, and over any number of rounds. -/
theorem counts_of_permitted {N : ℕ} (hN : Sized N) {p : BitVec 40} {s₀ s : RingBuffer} (hs : s₀.Configured N p)
    {tr us : List Event} (h : (ringBuffer.recorded.guard Permits).Reaches (s₀, []) tr (s, us)) :
    us = tr ∧ Counts N p tr s := by
  have hall := h.invariant_recorded (I := Tracks N p) (hs.tracks hN) fun ht ha hstep => ht.step hN ha hstep
  exact ⟨hall.1, hall.2.counts hN hs.slot⟩

/-- Four slots, with the pointers in the middle. -/
def fourSlots : RingBuffer := ((((reset.set 4 255).setFirst 128).setLast 128).set 5 7).set 7 1

/-- The ring is filled and goes round. -/
def goneRound :=
  (ringBuffer.recorded.guard Permits).run (fourSlots, [])
    [.push, .push, .push, .popfetch, .popfetch, .popack, .push, .enable false, .popfetch, .popack]

theorem counts_of_permitted_fourSlots :
    goneRound.1.1.rbufferfirst = 128 ∧ goneRound.1.1.notFull = true ∧ pushes goneRound.2 = 4 ∧
      Counts 4 128 goneRound.2 goneRound.1.1 := by
  have hN : Sized 4 := ⟨⟨2, rfl⟩, by decide, by decide⟩
  have hs : fourSlots.Configured 4 128 := ⟨by decide, by decide, by decide, by decide, by decide, by decide⟩
  exact ⟨by decide, by decide, by decide, (counts_of_permitted hN hs (RuleSystem.reaches_run _ _)).2⟩

end RingBuffer

end Xbsv
