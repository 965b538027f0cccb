import Mathlib.Data.List.Nodup
import Xbsv.Loops.Checked
import Xbsv.Rules.System

set_option relaxedAutoImplicit false
set_option autoImplicit false

/-!
# The portals of a poller

`registerInstance` and `unregisterInstance` of `poller.cpp`. A `PortalPoller` keeps its portals in two arrays that
grow and shrink together: the portals, and the descriptors that are polled. An access to an array outside of its
bounds has no value.

## Main definitions

* `Xbsv.Poller.registerInstance`, `Xbsv.Poller.unregisterInstance` — the functions.
* `Xbsv.Poller.poller` — their calls in any order, for portals with different descriptors.
* `Xbsv.Poller.Paired` — the two arrays belong together.
* `Xbsv.Poller.Removes` — a call removes a portal, if it is there, and nothing else.

## Main results

* `Xbsv.Poller.unregisterInstance_eq` — what a call of `unregisterInstance` does.
* `Xbsv.Poller.removes_iff` — which portals can be removed.
* `Xbsv.Poller.paired_of_reaches` — the runs in which the last portal is removed.
-/

namespace Xbsv.Poller

open Rules

/-! ## The source -/

/-- A `Portal`: the address of the object, and `pint.fpga_fd`. -/
structure Portal where
  address : ℕ
  fpgaFd : ℤ
  deriving DecidableEq

/-- `struct pollfd`. -/
structure Pollfd where
  fd : ℤ
  events : BitVec 16
  revents : BitVec 16
  deriving DecidableEq

/-- `POLLIN`. -/
def pollIn : BitVec 16 := 1

/-- The arrays of a `PortalPoller`. -/
structure State where
  portalWrappers : List Portal
  portalFds : List Pollfd
  numFds : ℤ
  deriving DecidableEq

/-- After the constructor. -/
def State.init : State := ⟨[], [], 0⟩

/-- `realloc` to `n` elements, where new ones hold `fresh`. A negative number is a size that cannot be had. -/
def realloc {α : Type} (fresh : α) (xs : List α) (n : ℤ) : List α :=
  if n < 0 then [] else xs.take n.toNat ++ List.replicate (n.toNat - xs.length) fresh

/-- `registerInstance`. -/
def registerInstance (portal : Portal) (s : State) : Option State := do
  let numFds := s.numFds + 1
  let portalWrappers := realloc ⟨0, 0⟩ s.portalWrappers numFds
  let portalFds := realloc ⟨0, 0, 0⟩ s.portalFds numFds
  let portalWrappers ← C.set portalWrappers (numFds - 1) portal
  let portalFds ← C.set portalFds (numFds - 1) ⟨portal.fpgaFd, pollIn, 0⟩
  return { portalWrappers, portalFds, numFds }

/-- The first loop: it stops at the descriptor of the portal. -/
def findLoop (portal : Portal) (s : State) (fuel : ℕ) : Option ℤ :=
  C.loop (fun i => if i < s.numFds then (C.get s.portalFds i).map fun e => decide (e.fd ≠ portal.fpgaFd) else some false)
    (fun i => some (i + 1)) fuel 0

/-- The second loop: the entries behind `i` move to the front. -/
def shiftLoop (i : ℤ) (s : State) (fuel : ℕ) : Option (List Pollfd × List Portal) :=
  C.loop (fun _ => some (decide (i < s.numFds - 1)))
    (fun (fds, wrappers) => do
      let fds ← C.set fds i (← C.get fds (i + 1))
      let wrappers ← C.set wrappers i (← C.get wrappers (i + 1))
      return (fds, wrappers)) fuel (s.portalFds, s.portalWrappers)

/-- `unregisterInstance`, where each loop makes at most `fuel` tests. -/
def unregisterInstance (portal : Portal) (s : State) (fuel : ℕ) : Option State := do
  let i ← findLoop portal s fuel
  let (fds, wrappers) ← shiftLoop i s fuel
  let numFds := s.numFds - 1
  return { portalWrappers := realloc ⟨0, 0⟩ wrappers numFds
           portalFds := realloc ⟨0, 0, 0⟩ fds numFds
           numFds }

/-! ## Runs -/

/-- The calls. -/
inductive Call
  | register (portal : Portal)
  | unregister (portal : Portal)

/-- Different portals have different descriptors, and a portal is registered once. -/
def Distinct (s : State) : Call → Prop
  | .register portal => portal.fpgaFd ∉ s.portalWrappers.map Portal.fpgaFd
  | .unregister portal => ∀ q ∈ s.portalWrappers, q.fpgaFd = portal.fpgaFd → q = portal

instance (s : State) : ∀ c, Decidable (Distinct s c)
  | .register portal => inferInstanceAs (Decidable (portal.fpgaFd ∉ s.portalWrappers.map Portal.fpgaFd))
  | .unregister portal => inferInstanceAs (Decidable (∀ q ∈ s.portalWrappers, q.fpgaFd = portal.fpgaFd → q = portal))

/-- The calls in any order. Both loops of a call that ends do so within one more test than there are portals. -/
def poller : RuleSystem State Call Empty where
  step s c :=
    if Distinct s c then
      match c with
      | .register portal => (registerInstance portal s).map (·, [])
      | .unregister portal => (unregisterInstance portal s (s.portalWrappers.length + 1)).map (·, [])
    else none

/-- **The two arrays belong together.** -/
structure Paired (s : State) : Prop where
  numFds : s.numFds = s.portalWrappers.length
  fds : s.portalFds.map Pollfd.fd = s.portalWrappers.map Portal.fpgaFd
  nodup : (s.portalWrappers.map Portal.fpgaFd).Nodup

/-- **The portal is removed**: the call ends, the entries of the portal are gone, if there were any, and the others are
there in their order. -/
def Removes (portal : Portal) (s : State) : Prop :=
  ∃ s', (∀ fuel, s.portalWrappers.length < fuel → unregisterInstance portal s fuel = some s') ∧
    s'.portalWrappers = s.portalWrappers.filter (· ≠ portal) ∧
    s'.portalFds = s.portalFds.filter (·.fd ≠ portal.fpgaFd) ∧ Paired s'

/-- The portal is the one that was registered last. -/
def IsLast (portal : Portal) (s : State) : Prop := s.portalWrappers.getLast? = some portal

instance (portal : Portal) (s : State) : Decidable (IsLast portal s) :=
  inferInstanceAs (Decidable (s.portalWrappers.getLast? = some portal))

variable {s s' : State} {portal : Portal} {fuel : ℕ}

/-! ## The arrays -/

/-- One more element. -/
lemma realloc_succ {α : Type} (fresh : α) (xs : List α) : realloc fresh xs (xs.length + 1 : ℕ) = xs ++ [fresh] := by
  rw [realloc, if_neg (by omega), Int.toNat_natCast, List.take_of_length_le (by omega)]
  congr 1
  rw [Nat.add_sub_cancel_left]
  rfl

/-- One element less, or none. -/
lemma realloc_pred {α : Type} (fresh : α) (xs : List α) : realloc fresh xs (xs.length - 1 : ℤ) = xs.dropLast := by
  rw [realloc, List.dropLast_eq_take]
  split
  case isTrue h =>
    have hnil : xs = [] := List.eq_nil_of_length_eq_zero (by omega)
    rw [hnil]
    rfl
  case isFalse h =>
    have hpred : ((xs.length : ℤ) - 1).toNat = xs.length - 1 := by omega
    rw [hpred, Nat.sub_eq_zero_of_le (Nat.sub_le ..), List.replicate_zero, List.append_nil]

/-- The new element is written. -/
lemma set_concat {α : Type} (xs : List α) (x y : α) : C.set (xs ++ [x]) xs.length y = some (xs ++ [y]) := by
  rw [C.set_of_lt (by rw [List.length_append, List.length_singleton]; omega), List.set_append_right _ _ (Nat.le_refl _),
    Nat.sub_self]
  rfl

lemma Paired.length_eq (hs : Paired s) : s.portalFds.length = s.portalWrappers.length := by
  have h := congrArg List.length hs.fds
  rwa [List.length_map, List.length_map] at h

/-! ## Registering -/

/-- A new portal comes last. -/
lemma registerInstance_eq (hs : Paired s) (portal : Portal) :
    registerInstance portal s = some
      ⟨s.portalWrappers ++ [portal], s.portalFds ++ [⟨portal.fpgaFd, pollIn, 0⟩], s.numFds + 1⟩ := by
  have hwrappers : s.numFds + 1 = (s.portalWrappers.length + 1 : ℕ) := by
    rw [hs.numFds]
    rfl
  have hfds : s.numFds + 1 = (s.portalFds.length + 1 : ℕ) := by rw [hs.length_eq, hwrappers]
  have hlast : s.numFds + 1 - 1 = s.portalWrappers.length := by
    rw [hs.numFds]
    omega
  simp only [registerInstance, hlast]
  rw [show realloc _ s.portalWrappers (s.numFds + 1) = _ from hwrappers ▸ realloc_succ _ _,
    show realloc _ s.portalFds (s.numFds + 1) = _ from hfds ▸ realloc_succ _ _, set_concat, C.some_bind, ← hs.length_eq,
    set_concat, C.some_bind]
  rfl

/-- A new portal keeps the arrays together. -/
lemma Paired.register (hs : Paired s) (hportal : portal.fpgaFd ∉ s.portalWrappers.map Portal.fpgaFd)
    (h : registerInstance portal s = some s') : Paired s' := by
  rw [registerInstance_eq hs] at h
  cases h
  refine ⟨?_, ?_, ?_⟩
  · rw [List.length_append, hs.numFds]
    rfl
  · rw [List.map_append, List.map_append, hs.fds]
    rfl
  · rw [List.map_append]
    exact List.nodup_append.mpr ⟨hs.nodup, List.nodup_singleton _, fun a ha b hb hab => by
      rw [List.mem_singleton.mp hb] at hab
      exact hportal (hab ▸ ha)⟩

/-! ## Unregistering -/

/-- The first loop finds the first entry with the descriptor, or the end. -/
lemma findLoop_eq (hs : Paired s) (hfuel : s.portalWrappers.length < fuel) :
    findLoop portal s fuel = some ((s.portalFds.findIdx fun e => e.fd = portal.fpgaFd : ℕ) : ℤ) := by
  set idx := s.portalFds.findIdx fun e => e.fd = portal.fpgaFd with hidx
  have hle : idx ≤ s.portalFds.length := List.findIdx_le_length
  have hlength := hs.length_eq
  have hnum := hs.numFds
  -- From an entry before the one that is looked for.
  have hrest : ∀ k j : ℕ, j + k = idx → ∀ fuel, k < fuel →
      C.loop (fun i => if i < s.numFds then (C.get s.portalFds i).map fun e => decide (e.fd ≠ portal.fpgaFd)
        else some false) (fun i => some (i + 1)) fuel (j : ℤ) = some (idx : ℤ) := by
    intro k
    induction k with
    | zero =>
      intro j hj fuel hfuel
      obtain ⟨fuel, rfl⟩ : ∃ n, fuel = n + 1 := ⟨fuel - 1, by omega⟩
      obtain rfl : j = idx := by omega
      have htest : (if (idx : ℤ) < s.numFds then (C.get s.portalFds idx).map fun e => decide (e.fd ≠ portal.fpgaFd)
          else some false) = some false := by
        split
        case isTrue hlt =>
          have hin : idx < s.portalFds.length := by omega
          have hfd := List.findIdx_getElem (p := fun e : Pollfd => decide (e.fd = portal.fpgaFd)) (w := hin)
          rw [C.get_natCast, List.getElem?_eq_getElem hin, Option.map_some]
          simpa using hfd
        case isFalse => rfl
      rw [C.loop_succ, htest, Option.bind_some, if_neg Bool.false_ne_true]
    | succ k ih =>
      intro j hj fuel hfuel
      obtain ⟨fuel, rfl⟩ : ∃ n, fuel = n + 1 := ⟨fuel - 1, by omega⟩
      have hin : j < s.portalFds.length := by omega
      have htest : (if (j : ℤ) < s.numFds then (C.get s.portalFds j).map fun e => decide (e.fd ≠ portal.fpgaFd)
          else some false) = some true := by
        have hbefore : j < s.portalFds.findIdx fun e => e.fd = portal.fpgaFd := by omega
        have hfd := List.not_of_lt_findIdx hbefore
        rw [if_pos (by omega), C.get_natCast, List.getElem?_eq_getElem hin, Option.map_some]
        simpa using hfd
      rw [C.loop_succ, htest, Option.bind_some, if_pos rfl, Option.bind_some]
      exact ih (j + 1) (by omega) fuel (by omega)
  exact hrest idx 0 (by omega) fuel (by omega)

/-- The second loop does nothing, or does not end. -/
lemma shiftLoop_eq (s : State) (i : ℤ) (hfuel : 0 < fuel) :
    shiftLoop i s fuel = if i < s.numFds - 1 then none else some (s.portalFds, s.portalWrappers) := by
  rw [shiftLoop]
  split
  case isTrue h =>
    rw [Option.eq_none_iff_forall_ne_some]
    intro t ht
    obtain ⟨-, hend⟩ := C.loop_invariant (I := fun _ => True) (fun _ _ _ _ _ => trivial) trivial ht
    rw [decide_eq_true h] at hend
    cases hend
  case isFalse h =>
    obtain ⟨fuel, rfl⟩ : ∃ n, fuel = n + 1 := ⟨fuel - 1, by omega⟩
    rw [C.loop_succ, Option.bind_some, if_neg (by rwa [decide_eq_true_eq])]

/-- **What a call does**: it does not end, or it drops the last entry. -/
theorem unregisterInstance_eq (hs : Paired s) (portal : Portal) (hfuel : s.portalWrappers.length < fuel) :
    unregisterInstance portal s fuel =
      if s.portalFds.findIdx (fun e => e.fd = portal.fpgaFd) + 1 < s.portalFds.length then none
      else some ⟨s.portalWrappers.dropLast, s.portalFds.dropLast, s.numFds - 1⟩ := by
  have hlength := hs.length_eq
  have hnum := hs.numFds
  simp only [unregisterInstance, findLoop_eq hs hfuel, C.some_bind, shiftLoop_eq s _ (Nat.zero_lt_of_lt hfuel)]
  by_cases h : s.portalFds.findIdx (fun e => e.fd = portal.fpgaFd) + 1 < s.portalFds.length
  · rw [if_pos h, if_pos (by omega)]
    rfl
  · rw [if_neg h, if_neg (by omega), C.some_bind]
    dsimp only
    have hwrappers := realloc_pred (⟨0, 0⟩ : Portal) s.portalWrappers
    have hfds := realloc_pred (⟨0, 0, 0⟩ : Pollfd) s.portalFds
    rw [← hnum] at hwrappers
    rw [hlength, ← hnum] at hfds
    rw [hwrappers, hfds]
    rfl

/-! ## Removing a portal -/

/-- The last portal and its entry. -/
lemma Paired.exists_of_isLast (hs : Paired s) (hlast : IsLast portal s) :
    ∃ wrappers fds e, s.portalWrappers = wrappers ++ [portal] ∧ s.portalFds = fds ++ [e] ∧ e.fd = portal.fpgaFd ∧
      fds.map Pollfd.fd = wrappers.map Portal.fpgaFd ∧ portal.fpgaFd ∉ wrappers.map Portal.fpgaFd := by
  obtain ⟨wrappers, hwrappers⟩ := List.getLast?_eq_some_iff.mp hlast
  have hne : s.portalFds ≠ [] := by
    apply List.ne_nil_of_length_pos
    rw [hs.length_eq, hwrappers, List.length_append, List.length_singleton]
    omega
  have hfds := List.dropLast_concat_getLast hne
  have hmap := hs.fds
  rw [hwrappers, ← hfds, List.map_append, List.map_append] at hmap
  obtain ⟨hinit, hend⟩ := List.append_inj' hmap (by rw [List.length_map, List.length_map]; rfl)
  have hnodup := hs.nodup
  rw [hwrappers, List.map_append] at hnodup
  exact ⟨wrappers, _, _, hwrappers, hfds.symm, List.singleton_inj.mp hend, hinit,
    fun hmem => (List.nodup_append.mp hnodup).2.2 _ hmem _ (List.mem_singleton.mpr rfl) rfl⟩

/-- The last portal is removed. -/
lemma removes_of_isLast (hs : Paired s) (hlast : IsLast portal s) : Removes portal s := by
  obtain ⟨wrappers, fds, e, hwrappers, hfds, he, hmap, hnew⟩ := hs.exists_of_isLast hlast
  have hidx : s.portalFds.findIdx (fun e => e.fd = portal.fpgaFd) = fds.length := by
    have hnone : fds.findIdx (fun e => e.fd = portal.fpgaFd) = fds.length := by
      apply List.findIdx_eq_length.mpr
      intro x hx
      apply decide_eq_false
      intro hfd
      exact hnew (hmap ▸ hfd ▸ List.mem_map_of_mem hx)
    have hhead : [e].findIdx (fun e => e.fd = portal.fpgaFd) = 0 := by simp [List.findIdx_cons, he]
    rw [hfds, List.findIdx_append, if_neg (by omega), hhead, Nat.zero_add]
  refine ⟨⟨wrappers, fds, s.numFds - 1⟩, fun fuel hfuel => ?_, ?_, ?_, ?_, hmap, ?_⟩
  · rw [unregisterInstance_eq hs portal hfuel, hidx, hwrappers, hfds, List.dropLast_concat, List.dropLast_concat,
      if_neg (by rw [List.length_append, List.length_singleton]; omega)]
  · have hkeep : wrappers.filter (· ≠ portal) = wrappers := by
      apply List.filter_eq_self.mpr
      intro q hq
      apply decide_eq_true
      rintro rfl
      exact hnew (List.mem_map_of_mem hq)
    rw [hwrappers, List.filter_append, hkeep]
    simp
  · have hkeep : fds.filter (·.fd ≠ portal.fpgaFd) = fds := by
      apply List.filter_eq_self.mpr
      intro x hx
      apply decide_eq_true
      intro hfd
      exact hnew (hmap ▸ hfd ▸ List.mem_map_of_mem hx)
    rw [hfds, List.filter_append, hkeep]
    simp [he]
  · show s.numFds - 1 = _
    rw [hs.numFds, hwrappers, List.length_append, List.length_singleton]
    push_cast
    omega
  · have hnodup := hs.nodup
    rw [hwrappers, List.map_append] at hnodup
    exact (List.nodup_append.mp hnodup).1

/-- **Which portals can be removed**: the one that was registered last, and no other. -/
theorem removes_iff (hs : Paired s) (portal : Portal) : Removes portal s ↔ IsLast portal s := by
  refine ⟨fun h => ?_, removes_of_isLast hs⟩
  obtain ⟨s', hcall, hwrappers, -, hs'⟩ := h
  have heq := hcall _ (Nat.lt_succ_self _)
  rw [unregisterInstance_eq hs portal (Nat.lt_succ_self _)] at heq
  split at heq
  case isTrue => cases heq
  case isFalse =>
    cases heq
    rcases List.eq_nil_or_concat s.portalWrappers with hnil | ⟨wrappers, q, hconcat⟩
    · -- The number of portals is negative.
      have hnum : s.numFds - 1 = s.portalWrappers.dropLast.length := hs'.numFds
      rw [hs.numFds, hnil] at hnum
      simp at hnum
    · have hnodup : (wrappers ++ [q]).Nodup := by
        rw [← List.concat_eq_append, ← hconcat]
        exact List.Nodup.of_map _ hs.nodup
      rw [List.concat_eq_append] at hconcat
      rw [hconcat, List.dropLast_concat, List.filter_append] at hwrappers
      rw [IsLast, hconcat, List.getLast?_concat]
      congr 1
      -- Another last portal would have to be there twice.
      by_contra hne
      have hmem : q ∈ wrappers := by
        change wrappers = _ at hwrappers
        rw [hwrappers, List.mem_append]
        right
        simp [hne]
      exact (List.nodup_append.mp hnodup).2.2 q hmem q (List.mem_singleton.mpr rfl) rfl

/-! ## The runs -/

/-- The calls that remove the last portal, and all that register one. -/
def Good (s : State) : Call → Prop
  | .register _ => True
  | .unregister portal => IsLast portal s

instance (s : State) : ∀ c, Decidable (Good s c)
  | .register _ => inferInstanceAs (Decidable True)
  | .unregister portal => inferInstanceAs (Decidable (IsLast portal s))

/-- **In all runs**: as long as every portal that is unregistered is the last one, the two arrays belong together, and
then just the last portal can be removed. -/
theorem paired_of_reaches (tr : List Empty) (s : State) (h : (poller.guard Good).Reaches .init tr s) :
    Paired s ∧ ∀ portal, Removes portal s ↔ IsLast portal s := by
  have hpaired : Paired s := by
    refine h.invariant (I := fun _ s => Paired s) (show Paired .init from ⟨rfl, rfl, List.nodup_nil⟩) ?_
    intro tr s c s' es hs hstep
    obtain ⟨hgood, hstep⟩ := RuleSystem.guard_step.mp hstep
    simp only [poller] at hstep
    split at hstep
    case isFalse => cases hstep
    case isTrue hdistinct =>
      cases c with
      | register portal =>
        obtain ⟨s₁, hcall, heq⟩ := Option.map_eq_some_iff.mp hstep
        cases heq
        exact hs.register hdistinct hcall
      | unregister portal =>
        obtain ⟨s₁, hcall, -, -, hs₁⟩ := removes_of_isLast hs hgood
        dsimp only at hstep
        rw [hcall _ (Nat.lt_succ_self _)] at hstep
        cases hstep
        exact hs₁
  exact ⟨hpaired, removes_iff hpaired⟩

/-- Two portals are registered, and the second one is unregistered. -/
theorem paired_of_reaches_two :
    (poller.guard Good).Reaches .init [] ⟨[⟨1, 5⟩], [⟨5, pollIn, 0⟩], 1⟩ ∧ Paired ⟨[⟨1, 5⟩], [⟨5, pollIn, 0⟩], 1⟩ ∧
      ∀ portal, Removes portal ⟨[⟨1, 5⟩], [⟨5, pollIn, 0⟩], 1⟩ ↔ IsLast portal ⟨[⟨1, 5⟩], [⟨5, pollIn, 0⟩], 1⟩ := by
  have hrun : (poller.guard Good).Reaches .init [] ⟨[⟨1, 5⟩], [⟨5, pollIn, 0⟩], 1⟩ :=
    RuleSystem.reaches_run (M := poller.guard Good) .init [.register ⟨1, 5⟩, .register ⟨2, 6⟩, .unregister ⟨2, 6⟩]
  exact ⟨hrun, paired_of_reaches [] _ hrun⟩

/-- Of two portals the first one cannot be unregistered; and an unknown portal takes another one with it. -/
theorem not_removes_first :
    (∃ tr s, poller.Reaches .init tr s ∧ s.portalWrappers = [⟨1, 5⟩, ⟨2, 6⟩] ∧ ¬Removes ⟨1, 5⟩ s) ∧
      ∃ tr s, poller.Reaches .init tr s ∧ s.portalWrappers = [⟨1, 5⟩] ∧ ¬Removes ⟨2, 6⟩ s := by
  constructor
  · refine ⟨_, _, RuleSystem.reaches_run (M := poller) State.init [.register ⟨1, 5⟩, .register ⟨2, 6⟩], rfl, ?_⟩
    rw [removes_iff ⟨rfl, rfl, by decide⟩]
    decide
  · refine ⟨_, _, RuleSystem.reaches_run (M := poller) State.init [.register ⟨1, 5⟩], rfl, ?_⟩
    rw [removes_iff ⟨rfl, rfl, by decide⟩]
    decide

end Xbsv.Poller
